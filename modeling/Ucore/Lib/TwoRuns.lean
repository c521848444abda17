import Ucore.Lib.Programs
import Ucore.Lib.Transitions

/- Two runs of one program: `Blind R m` says that `m` cannot tell states that are related by `R` from each
   other. Started in two such states it gives the same value, and states that are related again. -/
namespace Programs
variable {ε σ α β : Type} {R : σ → σ → Prop}

def Blind (R : σ → σ → Prop) (m : Prog ε σ α) : Prop :=
  ∀ s s', R s s' → ∀ a t, m s = .ok (a, t) → ∃ t', m s' = .ok (a, t') ∧ R t t'

theorem blind_pure {a : α} : Blind R (pure a : Prog ε σ α) := by
  intro s s' related b t ran
  cases ran
  exact ⟨s', rfl, related⟩

theorem blind_stop {e : ε} : Blind R (stop e : Prog ε σ α) := by
  intro s s' _ a t ran
  cases ran

/-- The rule of sequence. -/
theorem blind_bind {m : Prog ε σ α} {f : α → Prog ε σ β} (first : Blind R m) (rest : ∀ a, Blind R (f a)) :
    Blind R (m >>= f) := by
  intro s s' related b u ran
  obtain ⟨a, t, run, ran⟩ := bind_ran ran
  obtain ⟨t', run', related'⟩ := first s s' related a t run
  obtain ⟨u', ran', last⟩ := rest a t t' related' b u ran
  rw [run_bind run']
  exact ⟨u', ran', last⟩

/- What is read from the state is the same in both. -/
theorem blind_get {f : σ → Prog ε σ β} (same : ∀ s s', R s s' → f s' = f s) (rest : ∀ s, Blind R (f s)) :
    Blind R (get >>= f) := by
  intro s s' related b u ran
  rw [run_get_bind] at ran ⊢
  rw [same s s' related]
  exact rest s s s' related b u ran

theorem blind_modify {g : σ → σ} (kept : ∀ s s', R s s' → R (g s) (g s')) :
    Blind R (modify g : Prog ε σ PUnit) := by
  intro s s' related a t ran
  cases ran
  exact ⟨g s', rfl, kept s s' related⟩

theorem blind_check {e : ε} {p : Prop} [Decidable p] : Blind R (check e p : Prog ε σ Unit) := by
  unfold check
  split
  · exact blind_pure
  · exact blind_stop

theorem blind_ite {p : Prop} [Decidable p] {m m' : Prog ε σ α} (yes : p → Blind R m) (no : ¬ p → Blind R m') :
    Blind R (if p then m else m') := by
  split
  · exact yes ‹_›
  · exact no ‹_›

end Programs

namespace Transitions
variable {S C : Type*} {next : S → C → S → Prop}

/- Where a step has one end, a run has one. -/
theorem run_unique (one : ∀ s c t t', next s c t → next s c t' → t = t') {s t t' : S} {cs : List C}
    (run : Run next s cs t) (run' : Run next s cs t') : t = t' := by
  induction run with
  | stop s =>
    cases run'
    rfl
  | call first _ ih =>
    cases run' with
    | call first' rest' =>
      obtain rfl := one _ _ _ _ first first'
      exact ih rest'

end Transitions
