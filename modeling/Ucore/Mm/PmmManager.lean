import Ucore.Lib.Blocks
import Ucore.Lib.Transitions

/- struct pmm_manager of kern/mm/pmm.h, and its callers: the state of a manager together
   with the blocks that have been handed out and not yet freed. -/
namespace Ucore
open Blocks Transitions

/- `none` is a failed assertion or a call that does not return; the page that
   `alloc_pages` returns is `none` for NULL. -/
structure PmmManager (S : Type) where
  allocPages : S → Nat → Option (Option Nat × S)
  freePages : S → Nat → Nat → Option S

structure World (S : Type) where
  state : S
  live : List Block

inductive Call where
  | alloc (n : Nat)
  | free (b : Block)
  deriving DecidableEq, Repr

section
variable {S : Type}

/- A caller frees only what it holds, whole. -/
def Permitted (w : World S) : Call → Prop
  | .alloc n => 0 < n
  | .free b => b ∈ w.live

instance (w : World S) : (c : Call) → Decidable (Permitted w c)
  | .alloc n => inferInstanceAs (Decidable (0 < n))
  | .free b => inferInstanceAs (Decidable (b ∈ w.live))

def PmmManager.serve (m : PmmManager S) (w : World S) : Call → Option (World S)
  | .alloc n =>
      (m.allocPages w.state n).map fun r =>
        match r.1 with
        | some page => ⟨r.2, ⟨page, n⟩ :: w.live⟩
        | none => ⟨r.2, w.live⟩
  | .free b => (m.freePages w.state b.base b.size).map fun s => ⟨s, w.live.erase b⟩

def PmmManager.request (m : PmmManager S) (w : World S) (c : Call) : Option (World S) :=
  if Permitted w c then m.serve w c else none

/- The same, refused where the state does not meet a condition on the call. -/
def PmmManager.requestWhen (m : PmmManager S) (good : World S → Call → Prop)
    [∀ w c, Decidable (good w c)] (w : World S) (c : Call) : Option (World S) :=
  if good w c then m.request w c else none

theorem request_when_run {m : PmmManager S} {good : World S → Call → Prop}
    [∀ w c, Decidable (good w c)] {start w : World S} {calls : List Call}
    (ran : replay (m.requestWhen good) start calls = some w) :
    Run (fun w c w' => good w c ∧ m.request w c = some w') start calls w := by
  apply run_mono _ (replay_run ran)
  intro w c w' answered
  simpa [PmmManager.requestWhen] using answered

/- An invariant that every good call keeps holds after every run of good calls, and in
   that state every good call is answered. -/
theorem runs_keep {m : PmmManager S} {Inv : World S → Prop} {good : World S → Call → Prop}
    (kept : ∀ w c, Inv w → Permitted w c → good w c → ∃ w', m.serve w c = some w' ∧ Inv w')
    {start w : World S} {calls : List Call} (inv : Inv start)
    (run : Run (fun w c w' => good w c ∧ m.request w c = some w') start calls w) :
    Inv w ∧ ∀ c, Permitted w c → good w c → (m.request w c).isSome := by
  have now : Inv w := by
    apply run_invariant _ run inv
    intro w c w' inv ⟨fine, answered⟩
    by_cases permitted : Permitted w c
    · obtain ⟨w'', served, inv'⟩ := kept w c inv permitted fine
      have same : w'' = w' := by simpa [PmmManager.request, permitted, served] using answered
      exact same ▸ inv'
    · simp [PmmManager.request, permitted] at answered
  refine ⟨now, ?_⟩
  intro c permitted fine
  obtain ⟨w', served, _⟩ := kept w c now permitted fine
  simp [PmmManager.request, permitted, served]

end

end Ucore
