import Ucore.Mm.CowIsolation

/- The page faults of lab5/kern/trap/trap.c: what the faulting instruction finds when it is executed
   again. -/
namespace Ucore.CowFork
open Programs Transitions

/-- What becomes of the faulting instruction. -/
inductive Back where
  | again
  | killed
  deriving DecidableEq

/- The page fault cases; `user` is a trap from user mode. The results of `do_pgfault` are at most
   printed. -/
def exceptionHandler (mm : Nat) (user : Bool) (code : Fault) (la : Nat) : CowM Unit :=
  match code with
  | .fetch => do if user then let _ ← doPgfault mm .fetch la
  | .load => do if user then let _ ← doPgfault mm .load la
  | .store => do if user then let _ ← doPgfault mm .store la

/- `exiting` is `PF_EXITING` of the current process. -/
def trap (mm : Nat) (exiting user : Bool) (code : Fault) (la : Nat) : CowM Back := do
  exceptionHandler mm user code la
  if user then
    if exiting then return .killed
  return .again

def Perm.allows (perm : Perm) : Fault → Bool
  | .fetch => perm.x
  | .load => perm.r
  | .store => perm.w

/-- What the processor checks; the kernel may access the pages of users. -/
def CowState.Permits (s : CowState) (mm : Nat) (user : Bool) (code : Fault) (la : Nat) : Prop :=
  (s.pte mm la).v = true ∧ (user = true → (s.pte mm la).perm.u = true) ∧ (s.pte mm la).perm.allows code = true

/-- The access is permitted after the trap, or the process is gone. -/
def Settled (s : CowState) (mm : Nat) (exiting user : Bool) (code : Fault) (la : Nat) : Prop :=
  ∃ back t, trap mm exiting user code la s = .ok (back, t) ∧ (back = .killed ∨ t.Permits mm user code la)

/-- There is a VMA, and memory for what the fault needs: a page and its table for one that is not
mapped, which is then no code, or a copy of one that is shared. -/
def CowState.Mends (s : CowState) (mm : Nat) (code : Fault) (la : Nat) : Prop :=
  s.findVma mm la ≠ none ∧
    if (s.pte mm la).v then
      (s.pte mm la).perm.cow = true ∧ (s.ref (s.pte mm la).page > 1 → s.offered ≠ none) ∧
        (s.pte mm la).perm.u = true ∧ (code ≠ .store → (s.pte mm la).perm.allows code = true)
    else code ≠ .fetch ∧ s.tables.head?.getD false = true ∧ s.offered ≠ none

section
variable {s t : CowState} {mm la : Nat} {code : Fault} {ret : Int}
  {pool : Finset Nat} {excess : Nat → Nat}

theorem handler_run (run : doPgfault mm code la s = .ok (ret, t)) :
    exceptionHandler mm true code la s = .ok ((), t) := by
  cases code with
  | fetch | load | store => exact run_bind run

theorem user_trap_run (exiting : Bool) (run : doPgfault mm code la s = .ok (ret, t)) :
    trap mm exiting true code la s = .ok (if exiting then .killed else .again, t) := by
  unfold trap
  rw [run_bind (handler_run run)]
  cases exiting with
  | true | false => rfl

/- Nothing is done for a fault of the kernel. -/
theorem kernel_trap_run {exiting : Bool} : trap mm exiting false code la s = .ok (.again, s) := by
  cases code with
  | fetch | load | store => rfl

theorem permits_of_pte (pte : t.pte mm la = s.pte mm la) :
    t.Permits mm true code la ↔ s.Permits mm true code la := by
  unfold CowState.Permits
  rw [pte]

theorem absent_denies {user : Bool} (absent : (s.pte mm la).v = false) : ¬ s.Permits mm user code la := by
  rintro ⟨valid, _⟩
  rw [absent] at valid
  cases valid

theorem absent_mends (absent : (s.pte mm la).v = false) : s.Mends mm code la ↔
    s.findVma mm la ≠ none ∧ code ≠ .fetch ∧ s.tables.head?.getD false = true ∧ s.offered ≠ none := by
  unfold CowState.Mends
  rw [absent, if_neg Bool.false_ne_true]

theorem present_mends (valid : (s.pte mm la).v = true) : s.Mends mm code la ↔
    s.findVma mm la ≠ none ∧ (s.pte mm la).perm.cow = true ∧
      (s.ref (s.pte mm la).page > 1 → s.offered ≠ none) ∧ (s.pte mm la).perm.u = true ∧
        (code ≠ .store → (s.pte mm la).perm.allows code = true) := by
  unfold CowState.Mends
  rw [if_pos valid]

/- A copied or upgraded page is permitted more than before: writing. -/
theorem regained {perm : Perm} (user : perm.u = (s.pte mm la).perm.u) (write : perm.w = true)
    (rest : code ≠ .store → perm.allows code = (s.pte mm la).perm.allows code) :
    (perm.u = true ∧ perm.allows code = true) ↔
      (s.pte mm la).perm.u = true ∧ (code ≠ .store → (s.pte mm la).perm.allows code = true) := by
  rw [user]
  apply and_congr_right
  intro _
  by_cases store : code = .store
  · subst store
    exact iff_of_true write fun other => absurd rfl other
  · rw [rest store]
    exact ⟨fun allowed _ => allowed, fun allowed => allowed store⟩

theorem regained_permits {page : Nat} {perm : Perm} (entry : t.pte mm la = ⟨true, page, perm⟩)
    (valid : (s.pte mm la).v = true) (vma : s.findVma mm la ≠ none)
    (cow : (s.pte mm la).perm.cow = true) (memory : s.ref (s.pte mm la).page > 1 → s.offered ≠ none)
    (user : perm.u = (s.pte mm la).perm.u) (write : perm.w = true)
    (rest : code ≠ .store → perm.allows code = (s.pte mm la).perm.allows code) :
    t.Permits mm true code la ↔ s.Permits mm true code la ∨ s.Mends mm code la := by
  have after : t.Permits mm true code la ↔ perm.u = true ∧ perm.allows code = true := by
    unfold CowState.Permits
    rw [entry]
    simp
  rw [after, regained user write rest, present_mends valid]
  constructor
  · exact fun ⟨u, allowed⟩ => .inr ⟨vma, cow, memory, u, allowed⟩
  · rintro (⟨_, u, allowed⟩ | ⟨_, _, _, u, allowed⟩)
    · exact ⟨u rfl, fun _ => allowed⟩
    · exact ⟨u, allowed⟩

/- A fault of a user is mended exactly in these cases. -/
theorem faulted_permits (faulted : Faulted s mm code la ret t) :
    t.Permits mm true code la ↔ s.Permits mm true code la ∨ s.Mends mm code la := by
  cases faulted with
  | outside vma =>
    exact (or_iff_left fun mends => mends.1 vma).symm
  | noTable vma absent table =>
    rw [absent_mends absent, table]
    exact iff_of_false (absent_denies (s := { s with tables := s.tables.tail }) absent)
      (not_or.mpr ⟨absent_denies absent, fun mends => Bool.false_ne_true mends.2.2.1⟩)
  | noPage vma absent table offered =>
    rw [absent_mends absent]
    exact iff_of_false (absent_denies (s := { s with tables := s.tables.tail, pages := s.pages.tail }) absent)
      (not_or.mpr ⟨absent_denies absent, fun mends => mends.2.2.2 offered⟩)
  | fresh vma absent table offered entered =>
    obtain ⟨page, entry⟩ : ∃ page, t.pte mm la = pteCreate page userReadWrite := by
      rw [entered.pte]
      exact ⟨_, set_self⟩
    have allows : userReadWrite.allows code = true ↔ code ≠ .fetch := by
      cases code with
      | fetch | load | store => decide
    have after : t.Permits mm true code la ↔ code ≠ .fetch := by
      unfold CowState.Permits
      rw [entry]
      exact ⟨fun permitted => allows.mp permitted.2.2, fun data => ⟨rfl, fun _ => rfl, allows.mpr data⟩⟩
    rw [after, absent_mends absent, or_iff_right (absent_denies absent)]
    exact ⟨fun data => ⟨vma, data, table, by rw [offered]; exact Option.some_ne_none _⟩, fun mends => mends.2.1⟩
  | full vma valid cow shared offered =>
    rw [permits_of_pte (s := s) rfl, present_mends valid]
    exact (or_iff_left fun mends => mends.2.2.1 shared offered).symm
  | copied vma valid cow shared offered pte data vmas =>
    obtain ⟨page, entry⟩ : ∃ page, t.pte mm la =
        pteCreate page { (s.pte mm la).perm.user with w := true } := by
      rw [pte]
      exact ⟨_, set_self⟩
    apply regained_permits entry valid vma cow _ rfl rfl
    · intro other
      cases code with
      | fetch | load => rfl
      | store => exact absurd rfl other
    · intro _
      rw [offered]
      exact Option.some_ne_none _
  | upgraded vma valid cow alone =>
    have entry : (s.setPte mm la
        { s.pte mm la with perm := { (s.pte mm la).perm with cow := false, w := true } }).pte mm la =
        ⟨true, (s.pte mm la).page, { (s.pte mm la).perm with cow := false, w := true }⟩ := by
      rw [set_self]
      simp [valid]
    apply regained_permits entry valid vma cow _ rfl rfl
    · intro other
      cases code with
      | fetch | load => rfl
      | store => exact absurd rfl other
    · intro shared
      omega
  | refused vma valid cow store reader =>
    rw [present_mends valid, cow]
    exact (or_iff_left fun mends => Bool.false_ne_true mends.2.1).symm
  | nothing vma valid cow allowed =>
    rw [present_mends valid, cow]
    exact (or_iff_left fun mends => Bool.false_ne_true mends.2.1).symm

end

/-- A trap is settled exactly if the access was already permitted, or it came from user mode and either
the process was to be killed anyway or `do_pgfault` can mend it. -/
theorem fault_settled_exactly_when {s₀ s : CowState} {cs : List CowCall} (fresh : Fresh s₀)
    (run : Run CowStep s₀ cs s) (pages : List (Option Nat)) (tables : List Bool) (mm la : Nat)
    (exiting user : Bool) (code : Fault) :
    Settled { s with pages, tables } mm exiting user code la ↔
      s.Permits mm user code la ∨
        (user = true ∧ (exiting = true ∨ CowState.Mends { s with pages, tables } mm code la)) := by
  obtain ⟨excess, accounted⟩ := run_accounted fresh run
  have start : Accounted s₀.free excess { s with pages, tables } := answers_accounted accounted
  cases user with
  | false =>
    constructor
    · rintro ⟨back, t, ran, settled⟩
      rw [kernel_trap_run] at ran
      cases ran
      exact .inl (settled.resolve_left (by decide))
    · rintro (permitted | ⟨no, _⟩)
      · exact ⟨.again, _, kernel_trap_run, .inr permitted⟩
      · cases no
  | true =>
    obtain ⟨ret, t, ran, _, faulted⟩ := pgfault_cases mm la start code
    have permits := faulted_permits faulted
    have trapped := user_trap_run exiting ran
    constructor
    · rintro ⟨back, u, again, settled⟩
      rw [trapped] at again
      cases again
      cases exiting with
      | true => exact .inr ⟨rfl, .inl rfl⟩
      | false =>
        rcases permits.mp (settled.resolve_left (by decide)) with before | mends
        · exact .inl before
        · exact .inr ⟨rfl, .inr mends⟩
    · intro condition
      refine ⟨_, t, trapped, ?_⟩
      rcases condition with before | ⟨_, gone | mends⟩
      · exact .inr (permits.mpr (.inl before))
      · rw [gone]
        exact .inl rfl
      · exact .inr (permits.mpr (.inr mends))

/- A parent and its child share a page. -/
def childShares : List CowCall := childWrites.take 3

theorem child_shares_run : Run CowStep freshCow childShares (childShares.foldl CowState.after freshCow) := by
  refine .call (step_after ?_ ?_) (.call (step_after ?_ ?_) (.call (step_after ?_ ?_) (.stop _)))
  · exact trivial
  · decide +kernel
  · exact trivial
  · decide +kernel
  · exact ⟨by decide, fun _ => rfl, rfl⟩
  · decide +kernel

/- A store of the child is mended. -/
theorem child_store_settled : ∃ t, Run CowStep freshCow childShares t ∧
    Settled { t with pages := [some 6], tables := [] } 2 false true .store 8 := by
  have fresh : Fresh freshCow := ⟨fun _ _ => rfl, fun _ => rfl⟩
  refine ⟨_, child_shares_run, ?_⟩
  apply (fault_settled_exactly_when fresh child_shares_run [some 6] [] 2 8 false true .store).mpr
  refine .inr ⟨rfl, .inr ⟨by decide +kernel, ?_⟩⟩
  have valid : ((childShares.foldl CowState.after freshCow).pte 2 8).v = true := by decide +kernel
  rw [if_pos valid]
  exact ⟨by decide +kernel, fun _ => by decide +kernel, by decide +kernel, fun other => absurd rfl other⟩

/- A load of address zero by the parent is made again and again, and so is a store of the kernel to the
shared page. -/
theorem faults_for_ever : ∃ t, Run CowStep freshCow childShares t ∧
    ¬ Settled t 1 false true .load 0 ∧ ¬ Settled t 1 false false .store 8 := by
  let s := childShares.foldl CowState.after freshCow
  refine ⟨s, child_shares_run, ?_, ?_⟩
  · have outside : s.findVma 1 0 = none := by decide +kernel
    have ran : doPgfault 1 .load 0 s = .ok (-E_INVAL, s) := by
      unfold doPgfault
      rw [run_get_bind, outside]
      rfl
    rintro ⟨back, t, trapped, settled⟩
    rw [user_trap_run false ran] at trapped
    cases trapped
    have absent : (s.pte 1 0).v = false := by decide +kernel
    exact absent_denies absent (settled.resolve_left (by decide))
  · rintro ⟨back, t, trapped, settled⟩
    rw [kernel_trap_run] at trapped
    cases trapped
    have reader : ¬ (s.pte 1 8).perm.allows .store = true := by decide +kernel
    exact reader (settled.resolve_left (by decide)).2.2

end Ucore.CowFork
