import Ucore.Mm.ExecSegmentRuns
import Ucore.Mm.ExecStack

/- `load_icode` of lab8/kern/process/proc.c with the permissions of the entries that it makes. -/
namespace Ucore.Exec.Image
open Stopping
open CowFork (Perm pteUser PGSIZE USERBASE USERTOP USTACKTOP USTACKSIZE E_INVAL_ELF ELF_MAGIC ELF_PT_LOAD ProgHdr word
  roundDown roundUp)

/-- The new address space, and the permissions of its entries; those of `Perm` that an entry has with `PTE_V`. -/
structure ImageState where
  load : LoadState
  perms : Nat → Option Perm

abbrev ImageM (α : Type) := EStateM LoadStop ImageState α

/- What makes no entries. -/
def keepPerms {α : Type} (m : LoadM α) : ImageM α := fun s =>
  match m s.load with
  | .ok a t => .ok a ⟨t, s.perms⟩
  | .error stopped t => .error stopped ⟨t, s.perms⟩

def pgdirAllocPage (la : Nat) (perm : Perm) : ImageM Bool := do
  let granted ← keepPerms (Exec.pgdirAllocPage la)
  if granted then modify fun s => { s with perms := Function.update s.perms (entry la) (some perm) }
  return granted

def segmentPerm (ph : ProgHdr) : Perm :=
  let vmFlags := segmentFlags ph
  { r := vmFlags.read || vmFlags.write, w := vmFlags.write, x := vmFlags.exec, u := true, cow := false }

def fillPages (perm : Perm) (act : Nat → Nat → Nat → Nat → Int → LoadM (Except Int Int)) (last : Nat) :
    Nat → Nat → Nat → Int → ImageM (Except Int (Nat × Nat × Int))
  | 0, la, start, ret => return (if start < last then .error ret else .ok (la, start, ret))
  | fuel + 1, la, start, ret => do
      if last ≤ start then return .ok (la, start, ret)
      if !(← pgdirAllocPage la perm) then return .error ret
      let off := start - la
      let next := word (la + PGSIZE)
      let size := PGSIZE - off - (if last < next then next - last else 0)
      match ← keepPerms (act la off size start ret) with
      | .error ret => return .error ret
      | .ok ret => fillPages perm act last fuel next (word (start + size)) ret

def fillSegment (file : Binary) (ph : ProgHdr) : ImageM (Except Int Unit) := do
  match ← fillPages (segmentPerm ph) (readPage file ph) ph.fileEnd (← get).load.memory.length (roundDown ph.p_va) ph.p_va
    (-E_NO_MEM) with
  | .error ret => return .error ret
  | .ok (la, start, ret) =>
      if start < la ∧ start = ph.memEnd then return .ok ()
      let start ← if start < la then keepPerms (clearTail la start ph.memEnd) else pure start
      let filled ← fillPages (segmentPerm ph) clearPage ph.memEnd (← get).load.memory.length la start ret
      return filled.map fun _ => ()

def loadSegment (file : Binary) (ph : ProgHdr) : ImageM (Except Int Unit) := do
  if ph.p_type ≠ ELF_PT_LOAD then return .ok ()
  if ph.p_filesz > ph.p_memsz then return .error (-E_INVAL_ELF)
  let ret ← keepPerms (mmMap ph.p_va ph.p_memsz (segmentFlags ph))
  if ret ≠ 0 then return .error ret
  fillSegment file ph

def loadSegments (file : Binary) : Nat → Nat → ImageM (Except Int Unit)
  | 0, _ => return .ok ()
  | n + 1, pos => do
      let ret ← keepPerms (loadIcodeRead file pos sizeofProghdr)
      if ret ≠ 0 then return .error ret
      match ← loadSegment file (progHdr file pos) with
      | .error ret => return .error ret
      | .ok _ => loadSegments file n (word (pos + sizeofProghdr))

def stackPage (i : Nat) : ImageM Unit := do
  let page ← pgdirAllocPage (USTACKTOP - i * PGSIZE) pteUser
  check .assertion (page = true)

def buildStack : ImageM Int := do
  let ret ← keepPerms (mmMap (USTACKTOP - USTACKSIZE) USTACKSIZE ⟨true, true, false, true⟩)
  if ret ≠ 0 then return ret
  stackPage 1
  stackPage 2
  stackPage 3
  stackPage 4
  return 0

def exitMmap : ImageM Unit := do
  keepPerms Exec.exitMmap
  modify fun s => { s with perms := fun i => if (s.load.pages i).isSome then s.perms i else none }

def loadImage (file : Binary) : ImageM (Except Int Unit) := do
  if !(← keepPerms kmalloc) then return .error (-E_NO_MEM)
  if !(← keepPerms setupPgdir) then return .error (-E_NO_MEM)
  let ret ← keepPerms (loadIcodeRead file 0 sizeofElfhdr)
  if ret ≠ 0 then return .error ret
  if eMagic file ≠ ELF_MAGIC then return .error (-E_INVAL_ELF)
  match ← loadSegments file (ePhnum file) (ePhoff file) with
  | .error ret =>
      exitMmap
      return .error ret
  | .ok _ =>
      let ret ← buildStack
      if ret ≠ 0 then
        exitMmap
        return .error ret
      return .ok ()

def loadIcode (file : Binary) (args : ArgList) : ImageM (Int × Option TrapFrame) := do
  match ← loadImage file with
  | .error ret => return (ret, none)
  | .ok _ =>
      let tf ← keepPerms (setupArgs args (eEntry file))
      return (0, some tf)

/- Without the permissions it is the load of the other modules. -/
def erase {α : Type} : EStateM.Result LoadStop ImageState α → EStateM.Result LoadStop LoadState α
  | .ok a t => .ok a t.load
  | .error stopped t => .error stopped t.load

def Erases {α : Type} (m : ImageM α) (n : LoadM α) : Prop := ∀ s, erase (m s) = n s.load

section
variable {α β : Type} {m : ImageM α} {n : LoadM α} {f : α → ImageM β} {g : α → LoadM β} {s t : ImageState} {a : α}
  {u : LoadState} {stopped : LoadStop}

theorem keep_run (run : n s.load = .ok a u) : keepPerms n s = .ok a ⟨u, s.perms⟩ := by
  unfold keepPerms
  rw [run]

theorem keep_stop (run : n s.load = .error stopped u) : keepPerms n s = .error stopped ⟨u, s.perms⟩ := by
  unfold keepPerms
  rw [run]

theorem erased_run (erases : Erases m n) (run : m s = .ok a t) : n s.load = .ok a t.load := by
  rw [← erases s, run]
  rfl

theorem erases_pure : Erases (pure a : ImageM α) (pure a) := fun _ => rfl

theorem erases_keep : Erases (keepPerms n) n := by
  intro s
  cases run : n s.load with
  | ok a t =>
    rw [keep_run run]
    rfl
  | error e t =>
    rw [keep_stop run]
    rfl

theorem erases_bind (first : Erases m n) (rest : ∀ a, Erases (f a) (g a)) : Erases (m >>= f) (n >>= g) := by
  intro s
  have same := first s
  cases run : m s with
  | ok a t =>
    rw [run] at same
    rw [run_bind run, run_bind same.symm]
    exact rest a t
  | error e t =>
    rw [run] at same
    rw [run_bind_stop run, run_bind_stop same.symm]
    rfl

theorem erases_ite {p : Prop} [Decidable p] {m' : ImageM α} {n' : LoadM α} (yes : Erases m n) (no : Erases m' n') :
    Erases (if p then m else m') (if p then n else n') := by
  by_cases holds : p
  · rw [if_pos holds, if_pos holds]
    exact yes
  · rw [if_neg holds, if_neg holds]
    exact no

/- A change of the permissions alone. -/
theorem erases_perms {change : ImageState → ImageState} (same : ∀ s, (change s).load = s.load)
    (rest : Erases m n) : Erases (modify change >>= fun _ => m) n := by
  intro s
  change erase (m (change s)) = _
  rw [rest, same]

theorem erases_get {f : ImageState → ImageM β} {g : LoadState → LoadM β} (rest : ∀ s, Erases (f s) (g s.load)) :
    Erases (get >>= f) (get >>= g) :=
  fun s => rest s s

theorem alloc_erases (la : Nat) (perm : Perm) : Erases (pgdirAllocPage la perm) (Exec.pgdirAllocPage la) := by
  have whole : Exec.pgdirAllocPage la = Exec.pgdirAllocPage la >>= pure := (bind_pure _).symm
  rw [whole]
  refine erases_bind erases_keep fun granted => ?_
  cases granted with
  | false => exact erases_pure
  | true => exact erases_perms (fun _ => rfl) erases_pure

theorem fill_pages_erases (perm : Perm) (act : Nat → Nat → Nat → Nat → Int → LoadM (Except Int Int)) (last fuel : Nat) :
    ∀ la start ret, Erases (fillPages perm act last fuel la start ret) (Exec.fillPages act last fuel la start ret) := by
  induction fuel with
  | zero => exact fun _ _ _ => erases_pure
  | succ fuel ih =>
    intro la start ret
    unfold fillPages Exec.fillPages
    refine erases_ite erases_pure (erases_bind (alloc_erases la perm) fun granted => ?_)
    refine erases_ite erases_pure (erases_bind erases_keep fun acted => ?_)
    cases acted with
    | error ret => exact erases_pure
    | ok ret => exact ih _ _ _

theorem fill_segment_erases (file : Binary) (ph : ProgHdr) : Erases (fillSegment file ph) (Exec.fillSegment file ph) := by
  have bss : ∀ la start ret, Erases (do
      let filled ← fillPages (segmentPerm ph) clearPage ph.memEnd (← get).load.memory.length la start ret
      return filled.map fun _ => () : ImageM (Except Int Unit)) (do
      let filled ← Exec.fillPages clearPage ph.memEnd (← get).memory.length la start ret
      return filled.map fun _ => () : LoadM (Except Int Unit)) :=
    fun la start ret => erases_get fun s => erases_bind (fill_pages_erases _ _ _ _ _ _ _) fun _ => erases_pure
  refine erases_get fun s => erases_bind (fill_pages_erases _ _ _ _ _ _ _) fun filled => ?_
  cases filled with
  | error ret => exact erases_pure
  | ok place =>
    obtain ⟨la, start, ret⟩ := place
    refine erases_ite erases_pure ?_
    by_cases tail : start < la
    · dsimp only
      rw [if_pos tail, if_pos tail]
      exact erases_bind erases_keep fun start => bss la start ret
    · dsimp only
      rw [if_neg tail, if_neg tail]
      exact erases_bind erases_pure fun start => bss la start ret

theorem load_segment_erases (file : Binary) (ph : ProgHdr) : Erases (loadSegment file ph) (Exec.loadSegment file ph) := by
  refine erases_ite erases_pure (erases_ite erases_pure (erases_bind erases_keep fun ret => ?_))
  exact erases_ite erases_pure (fill_segment_erases file ph)

theorem load_segments_erases (file : Binary) (n : Nat) :
    ∀ pos, Erases (loadSegments file n pos) (Exec.loadSegments file n pos) := by
  induction n with
  | zero => exact fun _ => erases_pure
  | succ n ih =>
    intro pos
    refine erases_bind erases_keep fun ret => erases_ite erases_pure ?_
    refine erases_bind (load_segment_erases file _) fun loaded => ?_
    cases loaded with
    | error ret => exact erases_pure
    | ok _ => exact ih _

theorem check_erases {p : Prop} [Decidable p] : Erases (check stopped p) (check stopped p) := by
  unfold check
  exact erases_ite erases_pure fun _ => rfl

theorem build_stack_erases : Erases buildStack Exec.buildStack := by
  have page : ∀ i, Erases (stackPage i) (Exec.stackPage i) :=
    fun i => erases_bind (alloc_erases _ _) fun _ => check_erases
  refine erases_bind erases_keep fun ret => erases_ite erases_pure ?_
  exact erases_bind (page 1) fun _ => erases_bind (page 2) fun _ => erases_bind (page 3) fun _ =>
    erases_bind (page 4) fun _ => erases_pure

theorem load_image_erases (file : Binary) : Erases (loadImage file) (Exec.loadImage file) := by
  have left : Erases exitMmap Exec.exitMmap := by
    have whole : Exec.exitMmap = Exec.exitMmap >>= pure := (bind_pure _).symm
    rw [whole]
    exact erases_bind erases_keep fun _ _ => rfl
  refine erases_bind erases_keep fun first => erases_ite erases_pure ?_
  refine erases_bind erases_keep fun second => erases_ite erases_pure ?_
  refine erases_bind erases_keep fun ret => erases_ite erases_pure (erases_ite erases_pure ?_)
  refine erases_bind (load_segments_erases file _ _) fun loaded => ?_
  cases loaded with
  | error ret => exact erases_bind left fun _ => erases_pure
  | ok _ =>
    refine erases_bind build_stack_erases fun ret => ?_
    exact erases_ite (erases_bind left fun _ => erases_pure) erases_pure

/-- The permissions change nothing else: `load_icode` leaves what the model without them says. -/
theorem load_icode_erases (file : Binary) (args : ArgList) : Erases (loadIcode file args) (Exec.loadIcode file args) := by
  refine erases_bind (load_image_erases file) fun loaded => ?_
  cases loaded with
  | error ret => exact erases_pure
  | ok _ => exact erases_bind erases_keep fun _ => erases_pure

end
end Ucore.Exec.Image
