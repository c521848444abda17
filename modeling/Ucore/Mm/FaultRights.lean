import Ucore.Mm.FaultTrap

/- What `do_pgfault` of lab5 grants, against the flags of the VMA, which it does not read. -/
namespace Ucore.CowFork
open Programs Transitions

/-- `VM_READ` and `VM_EXEC`; a `Vma` has `VM_WRITE` itself. -/
structure VmRights where
  read : Bool
  exec : Bool

def VmRights.allow (rights : VmRights) (vma : Vma) : Fault → Bool
  | .fetch => rights.exec
  | .load => rights.read
  | .store => vma.write

/- No bit of an entry that the VMA has no flag for. -/
def Perm.Within (perm : Perm) (vma : Vma) (rights : VmRights) : Prop :=
  ∀ access, perm.allows access = true → rights.allow vma access = true

/-- The fault ends, the entry is within the flags of its VMA if the answer is 0, and an access that they
do not allow is answered with an error that changes no entry. -/
def KeepsToVma (rights : Vma → VmRights) (s : CowState) (mm : Nat) (code : Fault) (la : Nat) : Prop :=
  ∃ ret t, doPgfault mm code la s = .ok (ret, t) ∧ ∀ vma, s.findVma mm la = some vma →
    (ret = 0 → (t.pte mm la).perm.Within vma (rights vma)) ∧
      ((rights vma).allow vma code = false → ret ≠ 0 ∧ t.pte = s.pte)

/-- The fault is an error for another reason, or the VMA has the flags for the access and for what the
branch taken gives: reading and writing for a new page, writing for a shared one besides what it has. -/
def FlagsSuffice (rights : Vma → VmRights) (s : CowState) (mm : Nat) (code : Fault) (la : Nat) : Prop :=
  ∀ vma, s.findVma mm la = some vma →
    let pte := s.pte mm la
    let allowed := (rights vma).allow vma
    if pte.v = false then
      s.tables.head?.getD false = false ∨ s.offered = none ∨
        (allowed code = true ∧ allowed .load = true ∧ allowed .store = true)
    else if pte.perm.cow = true then
      (s.ref pte.page > 1 ∧ s.offered = none) ∨
        (allowed code = true ∧ allowed .store = true ∧ pte.perm.Within vma (rights vma))
    else
      (code = .store ∧ pte.perm.w = false) ∨ (allowed code = true ∧ pte.perm.Within vma (rights vma))

section
variable {s t : CowState} {mm la : Nat} {code : Fault} {ret : Int} {rights : Vma → VmRights} {vma : Vma}
  {pool : Finset Nat} {excess : Nat → Nat}

theorem read_write_within {r : VmRights} :
    userReadWrite.Within vma r ↔ r.allow vma .load = true ∧ r.allow vma .store = true := by
  constructor
  · exact fun within => ⟨within .load rfl, within .store rfl⟩
  · rintro ⟨load, store⟩ access bit
    cases access with
    | fetch => cases bit
    | load => exact load
    | store => exact store

/- An entry that gets the write bit. -/
theorem upgraded_within {r : VmRights} (perm : Perm) {perm' : Perm} (write : perm'.w = true) (read : perm'.r = perm.r)
    (exec : perm'.x = perm.x) :
    perm'.Within vma r ↔ r.allow vma .store = true ∧ perm.Within vma r := by
  constructor
  · intro within
    refine ⟨within .store write, fun access bit => ?_⟩
    cases access with
    | fetch => exact within .fetch (exec.trans bit)
    | load => exact within .load (read.trans bit)
    | store => exact within .store write
  · rintro ⟨store, within⟩ access bit
    cases access with
    | fetch => exact within .fetch (exec.symm.trans bit)
    | load => exact within .load (read.symm.trans bit)
    | store => exact store

/- A fault that is an error. -/
theorem error_keeps (error : ret ≠ 0) (same : t.pte = s.pte) :
    (ret = 0 → (t.pte mm la).perm.Within vma (rights vma)) ∧
      ((rights vma).allow vma code = false → ret ≠ 0 ∧ t.pte = s.pte) :=
  ⟨fun zero => absurd zero error, fun _ => ⟨error, same⟩⟩

/- A fault that is answered with 0. -/
theorem zero_keeps (perm : Perm) (entry : (t.pte mm la).perm = perm) :
    (((0 : Int) = 0 → (t.pte mm la).perm.Within vma (rights vma)) ∧
      ((rights vma).allow vma code = false → (0 : Int) ≠ 0 ∧ t.pte = s.pte)) ↔
        (rights vma).allow vma code = true ∧ perm.Within vma (rights vma) := by
  rw [entry]
  constructor
  · rintro ⟨within, denied⟩
    exact ⟨Bool.of_not_eq_false fun no => (denied no).1 rfl, within rfl⟩
  · rintro ⟨allowed, within⟩
    exact ⟨fun _ => within, fun no => absurd (allowed.symm.trans no) (by decide)⟩

theorem faulted_keeps (faulted : Faulted s mm code la ret t) :
    (∀ vma, s.findVma mm la = some vma → (ret = 0 → (t.pte mm la).perm.Within vma (rights vma)) ∧
      ((rights vma).allow vma code = false → ret ≠ 0 ∧ t.pte = s.pte)) ↔ FlagsSuffice rights s mm code la := by
  refine forall₂_congr fun vma found => ?_
  dsimp only
  cases faulted with
  | outside none =>
    rw [none] at found
    cases found
  | noTable inside absent table =>
    rw [if_pos absent]
    exact iff_of_true (error_keeps (by decide) rfl) (.inl table)
  | noPage inside absent table offered =>
    rw [if_pos absent]
    exact iff_of_true (error_keeps (by decide) rfl) (.inr (.inl offered))
  | fresh inside absent table offered entered =>
    have entry : (t.pte mm la).perm = userReadWrite := by rw [entered.pte, set_self]; rfl
    rw [if_pos absent, zero_keeps userReadWrite entry, read_write_within, table, offered]
    simp
  | full inside valid cow shared offered =>
    rw [if_neg (by rw [valid]; decide), if_pos cow]
    exact iff_of_true (error_keeps (by decide) rfl) (.inl ⟨shared, offered⟩)
  | copied inside valid cow shared offered pte data vmas =>
    have entry : (t.pte mm la).perm = { (s.pte mm la).perm.user with w := true } := by rw [pte, set_self]; rfl
    have after : Perm.Within { (s.pte mm la).perm.user with w := true } vma (rights vma) ↔ _ :=
      upgraded_within (s.pte mm la).perm rfl rfl rfl
    rw [if_neg (by rw [valid]; decide), if_pos cow, zero_keeps _ entry, after, offered]
    exact (or_iff_right fun full => nomatch full.2).symm
  | upgraded inside valid cow alone =>
    have entry : ((s.setPte mm la { s.pte mm la with perm := { (s.pte mm la).perm with cow := false, w := true } }).pte
        mm la).perm = { (s.pte mm la).perm with cow := false, w := true } := by rw [set_self]
    have after : Perm.Within { (s.pte mm la).perm with cow := false, w := true } vma (rights vma) ↔ _ :=
      upgraded_within (s.pte mm la).perm rfl rfl rfl
    rw [if_neg (by rw [valid]; decide), if_pos cow, zero_keeps _ entry, after]
    exact (or_iff_right fun full => absurd full.1 (not_lt.mpr alone)).symm
  | refused inside valid cow store reader =>
    rw [if_neg (by rw [valid]; decide), if_neg (by rw [cow]; decide)]
    exact iff_of_true (error_keeps (by decide) rfl) (.inl ⟨store, reader⟩)
  | nothing inside valid cow allowed =>
    rw [if_neg (by rw [valid]; decide), if_neg (by rw [cow]; decide), zero_keeps _ rfl]
    exact (or_iff_right allowed).symm

theorem keeps_to_vma_iff (accounted : Accounted pool excess s) :
    KeepsToVma rights s mm code la ↔ FlagsSuffice rights s mm code la := by
  obtain ⟨ret, t, ran, -, faulted⟩ := pgfault_cases mm la accounted code
  rw [← faulted_keeps faulted]
  constructor
  · rintro ⟨ret', t', ran', keeps⟩
    rw [ran] at ran'
    cases ran'
    exact keeps
  · exact fun keeps => ⟨ret, t, ran, keeps⟩

end

/-- `do_pgfault` keeps to the flags of the VMA exactly if they are enough for what its branch gives. -/
theorem pgfault_keeps_to_vma_exactly_when {s₀ s : CowState} {cs : List CowCall} (fresh : Fresh s₀)
    (run : Run CowStep s₀ cs s) (pages : List (Option Nat)) (tables : List Bool) (rights : Vma → VmRights)
    (mm la : Nat) (code : Fault) :
    KeepsToVma rights { s with pages, tables } mm code la ↔ FlagsSuffice rights { s with pages, tables } mm code la := by
  obtain ⟨excess, accounted⟩ := run_accounted fresh run
  exact keeps_to_vma_iff (answers_accounted accounted)

/- The child's store to the page that it shares. -/
theorem child_store_keeps_to_vma : ∃ t, Run CowStep freshCow childShares t ∧
    KeepsToVma (fun _ => ⟨true, false⟩) { t with pages := [some 6], tables := [] } 2 .store 8 := by
  have fresh : Fresh freshCow := ⟨fun _ _ => rfl, fun _ => rfl⟩
  refine ⟨_, child_shares_run, ?_⟩
  apply (pgfault_keeps_to_vma_exactly_when fresh child_shares_run [some 6] [] (fun _ => ⟨true, false⟩) 2 8 .store).mpr
  intro vma found
  have known : (childShares.foldl CowState.after freshCow).findVma 2 8 = some ⟨8, 9, true⟩ := by decide +kernel
  obtain rfl : ⟨8, 9, true⟩ = vma := Option.some.inj (known.symm.trans found)
  have shared : (childShares.foldl CowState.after freshCow).pte 2 8 = ⟨true, 5, ⟨true, false, false, true, true⟩⟩ := by
    decide +kernel
  dsimp only
  rw [shared]
  refine .inr ⟨rfl, rfl, fun access bit => ?_⟩
  cases access with
  | fetch => cases bit
  | load | store => rfl

/- The VMA of a stack, which a process has no more than four pages of. -/
def stackOnly : List CowCall := [⟨.addVma 1 ⟨524032, 524288, true⟩, [], []⟩]

/-- A jump to the stack is given a page: the fault is answered with 0. -/
theorem stack_fetch_mapped : ∃ t, Run CowStep freshCow stackOnly t ∧
    t.findVma 1 524100 = some ⟨524032, 524288, true⟩ ∧
      ¬ KeepsToVma (fun _ => ⟨true, false⟩) { t with pages := [some 5], tables := [true] } 1 .fetch 524100 := by
  have fresh : Fresh freshCow := ⟨fun _ _ => rfl, fun _ => rfl⟩
  have run : Run CowStep freshCow stackOnly (stackOnly.foldl CowState.after freshCow) := by
    refine .call (step_after trivial ?_) (.stop _)
    decide +kernel
  obtain ⟨excess, accounted⟩ := run_accounted fresh run
  have found : (stackOnly.foldl CowState.after freshCow).findVma 1 524100 = some ⟨524032, 524288, true⟩ := by
    decide +kernel
  refine ⟨_, run, found, fun keeps => ?_⟩
  have suffice := (keeps_to_vma_iff (answers_accounted accounted)).mp keeps _ found
  have absent : (stackOnly.foldl CowState.after freshCow).pte 1 524100 = noPte := by decide +kernel
  have offered : CowState.offered { stackOnly.foldl CowState.after freshCow with pages := [some 5], tables := [true] } =
      some 5 := by decide +kernel
  dsimp only at suffice
  rw [absent, offered] at suffice
  rcases suffice with no_table | no_page | granted
  · cases no_table
  · cases no_page
  · cases granted.1

end Ucore.CowFork
