import Ucore.Mm.CowIsolation

/- `copy_range` counts a page that it shares, and `page_insert` counts it again: what a fork shares
   stays counted once more than it is mapped. -/
namespace Ucore.CowFork
open Programs Transitions

/-- Every frame is counted as often as it is mapped. -/
def Law (s : CowState) : Prop :=
  ∀ f, ∃ S : Finset (Nat × Nat), (∀ x, x ∈ S ↔ s.Maps x f) ∧ s.ref f = S.card

/- Whether the VMA has a mapped page. -/
def Vma.Mapped (vma : Vma) (pte : Nat → Pte) : Prop :=
  ∃ la ∈ List.range' vma.vmStart (vma.vmEnd - vma.vmStart), (pte la).v = true

instance (vma : Vma) (pte : Nat → Pte) : Decidable (vma.Mapped pte) :=
  inferInstanceAs (Decidable (∃ la ∈ _, _))

/- Whether the walk over the VMAs gets to a mapped page before a `vma_struct` or a table is refused. -/
def SharesIn (pte : Nat → Pte) : List Vma → List Bool → Prop
  | [], _ => False
  | vma :: list, answers => answers.head?.getD false = true ∧
      if vma.Mapped pte then answers.tail.head?.getD false = true else SharesIn pte list answers.tail

/-- The call is a fork that shares a page. -/
def CowCall.Shares (s : CowState) (c : CowCall) : Prop :=
  match c.op with
  | .fork _ src => SharesIn (s.pte src) (s.vmas src).reverse c.tables
  | _ => False

/- The state but for VMAs and bytes. -/
def Quiet (s t : CowState) : Prop := s.Same t ∧ t.tables = s.tables

instance : IsPreorder CowState Quiet where
  refl _ := ⟨⟨rfl, rfl, rfl⟩, rfl⟩
  trans _ _ _ first second := ⟨⟨second.1.1.trans first.1.1, second.1.2.1.trans first.1.2.1,
    second.1.2.2.trans first.1.2.2⟩, second.2.trans first.2⟩

/-- Some frame is counted once more than before. -/
def Exceeds (s t : CowState) : Prop :=
  ∀ pool excess, Accounted pool excess s → ∃ larger, excess < larger ∧ Accounted pool larger t

section
variable {pool : Finset Nat} {excess : Nat → Nat} {s t u : CowState} {dst src start count f : Nat}
  {list : List Vma} {vma : Vma}

theorem exceeds_meets {α : Type} {m : CowM α} (each : ∀ pool excess, Accounted pool excess s →
    Meets m s (fun _ t => ∃ larger, excess < larger ∧ Accounted pool larger t) fun _ => True) :
    Meets m s (fun _ t => Exceeds s t) fun _ => True := meets_each each

theorem exceeds_grows (more : Exceeds s t) (rest : Grows t u) : Exceeds s u := by
  intro pool excess accounted
  obtain ⟨middle, strict, between⟩ := more pool excess accounted
  obtain ⟨larger, grown, after⟩ := rest pool middle between
  exact ⟨larger, strict.trans_le grown, after⟩

theorem same_exceeds (same : s.Same t) (more : Exceeds t u) : Exceeds s u :=
  fun pool excess accounted => more pool excess (same_accounted same accounted)

theorem lt_more : excess < more excess f := by
  apply lt_of_le_of_ne le_more
  intro same
  have here := congrFun same f
  unfold more at here
  rw [Function.update_self] at here
  omega

theorem share_exceeds (valid : (s.pte src start).v = true) (table : s.tables.head?.getD false = true) :
    Meets (sharePage dst src start) s (fun _ t => Exceeds s t) fun _ => True := by
  apply exceeds_meets
  intro pool excess accounted
  obtain ⟨u, run, after, _⟩ := share_run dst accounted valid table
  exact meets_of_run run ⟨_, lt_more, after⟩

/- The pages before the first that is mapped are passed over. -/
theorem copy_range_step (absent : (s.pte src start).v = false) :
    copyRange dst src start (count + 1) s = copyRange dst src (start + 1) count s :=
  run_bind (share_none_run absent)

theorem copy_range_none (absent : ∀ la ∈ List.range' start count, (s.pte src la).v = false) :
    copyRange dst src start count s = .ok (0, s) := by
  induction count generalizing start with
  | zero => rfl
  | succ count ih =>
    rw [List.range'_succ] at absent
    rw [copy_range_step (absent start (List.mem_cons_self ..))]
    exact ih fun la mem => absent la (List.mem_cons_of_mem _ mem)

theorem copy_range_fail (table : s.tables.head?.getD false = false)
    (mapped : ∃ la ∈ List.range' start count, (s.pte src la).v = true) :
    copyRange dst src start count s = .ok (-E_NO_MEM, { s with tables := s.tables.tail }) := by
  induction count generalizing start with
  | zero =>
    obtain ⟨la, mem, _⟩ := mapped
    cases mem
  | succ count ih =>
    by_cases valid : (s.pte src start).v = true
    · exact run_bind (share_fail_run valid table)
    · have absent : (s.pte src start).v = false := Bool.eq_false_of_not_eq_true valid
      rw [copy_range_step absent]
      apply ih
      obtain ⟨la, mem, here⟩ := mapped
      rw [List.range'_succ, List.mem_cons] at mem
      rcases mem with rfl | later
      · exact absurd here valid
      · exact ⟨la, later, here⟩

theorem copy_range_exceeds (table : s.tables.head?.getD false = true)
    (mapped : ∃ la ∈ List.range' start count, (s.pte src la).v = true) :
    Meets (copyRange dst src start count) s (fun _ t => Exceeds s t) fun _ => True := by
  induction count generalizing start with
  | zero =>
    obtain ⟨la, mem, _⟩ := mapped
    cases mem
  | succ count ih =>
    by_cases valid : (s.pte src start).v = true
    · apply meets_step (share_exceeds valid table)
      intro ret t exceeds
      split_ifs
      · exact exceeds
      · exact meets_mono (copy_range_grows t) (fun _ _ => exceeds_grows exceeds) fun _ _ => trivial
    · have absent : (s.pte src start).v = false := Bool.eq_false_of_not_eq_true valid
      unfold Meets
      rw [copy_range_step absent]
      apply ih
      obtain ⟨la, mem, here⟩ := mapped
      rw [List.range'_succ, List.mem_cons] at mem
      rcases mem with rfl | later
      · exact absurd here valid
      · exact ⟨la, later, here⟩

/- A walk that shares nothing leaves the entries and the counts. -/
theorem dup_mmap_same (quiet : ¬ SharesIn (s.pte src) list s.tables) :
    Meets (dupMmap dst src list) s (fun _ t => s.Same t) fun _ => True := by
  induction list generalizing s with
  | nil => exact ⟨rfl, rfl, rfl⟩
  | cons vma list ih =>
    unfold dupMmap
    rw [meets_bind, meets_kmalloc]
    by_cases enough : s.tables.head?.getD false = true
    · have goes : ¬ (!(s.tables.head?.getD false)) = true := by
        rw [enough]
        decide
      rw [if_neg goes]
      have inserted : Keeps Quiet (insertVmaStruct dst vma) :=
        insert_vma_keeps fun _ _ => ⟨⟨rfl, rfl, rfl⟩, rfl⟩
      apply meets_step (inserted _)
      rintro _ t ⟨same, tables⟩
      have pte : t.pte src = s.pte src := congrFun same.1 src
      by_cases mapped : vma.Mapped (s.pte src)
      · have table : t.tables.head?.getD false = false := by
          rw [tables]
          by_contra some_table
          refine quiet ⟨enough, ?_⟩
          rw [if_pos mapped]
          exact (Bool.not_eq_false _).mp some_table
        have mapped' : ∃ la ∈ List.range' vma.vmStart (vma.vmEnd - vma.vmStart), (t.pte src la).v = true := by
          rw [pte]
          exact mapped
        rw [meets_bind]
        apply meets_of_run (copy_range_fail table mapped')
        exact same
      · have none_mapped : ∀ la ∈ List.range' vma.vmStart (vma.vmEnd - vma.vmStart),
            (t.pte src la).v = false := by
          intro la mem
          rw [pte]
          exact Bool.eq_false_of_not_eq_true fun here => mapped ⟨la, mem, here⟩
        rw [meets_bind]
        apply meets_of_run (copy_range_none none_mapped)
        have rest : ¬ SharesIn (t.pte src) list t.tables := by
          rw [pte, tables]
          intro later
          refine quiet ⟨enough, ?_⟩
          rw [if_neg mapped]
          exact later
        refine meets_mono (ih rest) ?_ fun _ _ => trivial
        intro _ u after
        exact ⟨after.1.trans same.1, after.2.1.trans same.2.1, after.2.2.trans same.2.2⟩
    · have stops : (!(s.tables.head?.getD false)) = true := by
        rw [Bool.eq_false_of_not_eq_true enough]
        rfl
      rw [if_pos stops]
      exact ⟨rfl, rfl, rfl⟩

theorem dup_mmap_exceeds (shares : SharesIn (s.pte src) list s.tables) :
    Meets (dupMmap dst src list) s (fun _ t => Exceeds s t) fun _ => True := by
  induction list generalizing s with
  | nil => exact shares.elim
  | cons vma list ih =>
    obtain ⟨enough, shares⟩ := shares
    unfold dupMmap
    rw [meets_bind, meets_kmalloc]
    have goes : ¬ (!(s.tables.head?.getD false)) = true := by
      rw [enough]
      decide
    rw [if_neg goes]
    have inserted : Keeps Quiet (insertVmaStruct dst vma) :=
      insert_vma_keeps fun _ _ => ⟨⟨rfl, rfl, rfl⟩, rfl⟩
    apply meets_step (inserted _)
    rintro _ t ⟨same, tables⟩
    have pte : t.pte src = s.pte src := congrFun same.1 src
    by_cases mapped : vma.Mapped (s.pte src)
    · rw [if_pos mapped] at shares
      have table : t.tables.head?.getD false = true := by
        rw [tables]
        exact shares
      have mapped' : ∃ la ∈ List.range' vma.vmStart (vma.vmEnd - vma.vmStart), (t.pte src la).v = true := by
        rw [pte]
        exact mapped
      apply meets_step (copy_range_exceeds table mapped')
      intro ret u exceeds
      have more : Exceeds s u := same_exceeds same exceeds
      split_ifs
      · exact more
      · exact meets_mono (dup_mmap_grows u) (fun _ _ => exceeds_grows more) fun _ _ => trivial
    · rw [if_neg mapped] at shares
      have none_mapped : ∀ la ∈ List.range' vma.vmStart (vma.vmEnd - vma.vmStart),
          (t.pte src la).v = false := by
        intro la mem
        rw [pte]
        exact Bool.eq_false_of_not_eq_true fun here => mapped ⟨la, mem, here⟩
      rw [meets_bind]
      apply meets_of_run (copy_range_none none_mapped)
      have rest : SharesIn (t.pte src) list t.tables := by
        rw [pte, tables]
        exact shares
      exact meets_mono (ih rest) (fun _ _ => same_exceeds same) fun _ _ => trivial

theorem copy_mm_exact (quiet : ¬ SharesIn (s.pte src) (s.vmas src).reverse s.tables) :
    Meets (copyMm dst src) s (fun _ t => Exact s t) fun _ => True := by
  unfold copyMm
  rw [meets_bind, meets_get]
  apply meets_step (dup_mmap_same quiet)
  intro ret t same
  have kept : Exact s t := same_exact same
  split_ifs
  · rw [meets_bind]
    exact meets_mono (exit_mmap_exact t) (fun _ _ => trans_of Exact kept) fun _ _ => trivial
  · exact kept

theorem copy_mm_exceeds (shares : SharesIn (s.pte src) (s.vmas src).reverse s.tables) :
    Meets (copyMm dst src) s (fun _ t => Exceeds s t) fun _ => True := by
  unfold copyMm
  rw [meets_bind, meets_get]
  apply meets_step (dup_mmap_exceeds shares)
  intro ret t more
  split_ifs
  · rw [meets_bind]
    refine meets_mono (exit_mmap_exact t) ?_ fun _ _ => trivial
    exact fun _ _ kept => exceeds_grows more (exact_grows kept)
  · exact more

theorem step_exact {c : CowCall} (step : CowStep s c t) (quiet : ¬ c.Shares s) : Exact s t := by
  obtain ⟨op, pages, tables⟩ := c
  have start : s.Same { s with pages, tables } := ⟨rfl, rfl, rfl⟩
  have after : Meets op.run { s with pages, tables } (fun _ t => Exact { s with pages, tables } t)
      fun _ => True := by
    by_cases fork : ∃ dst src, op = .fork dst src
    · obtain ⟨dst, src, rfl⟩ := fork
      exact meets_bind.mpr (meets_mono (copy_mm_exact quiet) (fun _ _ kept => kept) fun _ _ => trivial)
    · exact op_exact (fun dst src same => fork ⟨dst, src, same⟩) _
  unfold Meets at after
  rw [step.2] at after
  exact trans_of Exact (same_exact start) after

theorem step_exceeds {c : CowCall} (step : CowStep s c t) (shares : c.Shares s) : Exceeds s t := by
  obtain ⟨op, pages, tables⟩ := c
  have start : s.Same { s with pages, tables } := ⟨rfl, rfl, rfl⟩
  cases op with
  | fork dst src =>
    have after : Meets (CowOp.fork dst src).run { s with pages, tables }
        (fun _ t => Exceeds { s with pages, tables } t) fun _ => True :=
      meets_bind.mpr (meets_mono (copy_mm_exceeds shares) (fun _ _ more => more) fun _ _ => trivial)
    unfold Meets at after
    rw [step.2] at after
    exact same_exceeds start after
  | addVma | map | fault | write | unmap | exit => exact shares.elim

theorem run_grows {cs : List CowCall} (run : Run CowStep s cs t) : Grows s t := by
  induction run with
  | stop s => exact refl_of Grows s
  | call first rest ih => exact trans_of Grows (step_grows first) ih

theorem law_of_exact (accounted : Accounted pool 0 s) : Law s := fun f => by
  obtain ⟨S, mem, ref⟩ := accounted.counted f
  exact ⟨S, mem, by simpa using ref⟩

theorem no_excess (law : Law s) (accounted : Accounted pool excess s) : excess = 0 := by
  funext f
  obtain ⟨S, mem, ref⟩ := law f
  obtain ⟨S', mem', ref'⟩ := accounted.counted f
  have same : S = S' := by
    ext x
    rw [mem, mem']
  rw [same] at ref
  change excess f = 0
  omega

/- Sharing is never made up for. -/
theorem shared_breaks {c : CowCall} {cs : List CowCall} (accounted : Accounted pool excess s)
    (step : CowStep s c t) (shares : c.Shares s) (run : Run CowStep t cs u) : ¬ Law u := by
  intro law
  obtain ⟨larger, more, after⟩ := exceeds_grows (step_exceeds step shares) (run_grows run) pool excess accounted
  have none_left := no_excess law after
  rw [none_left] at more
  exact absurd more (not_lt_of_ge fun f => Nat.zero_le _)

theorem unshared_of_law {cs : List CowCall} (run : Run CowStep s cs t) (law : Law t)
    (accounted : Accounted pool excess s) :
    Run (fun s c t => CowStep s c t ∧ ¬ c.Shares s) s cs t := by
  induction run generalizing excess with
  | stop s => exact .stop s
  | call first rest ih =>
    have quiet := fun shares => shared_breaks accounted first shares rest law
    exact .call ⟨first, quiet⟩ (ih law (step_exact first quiet pool excess accounted))

end

/-- The law holds after a run exactly if no fork of the run shared a page; and then a frame is with
the allocator exactly while nothing maps it. -/
theorem refs_count_mappings_exactly_when {s₀ s : CowState} {cs : List CowCall} (fresh : Fresh s₀)
    (run : Run CowStep s₀ cs s) :
    (Law s ↔ Run (fun s c t => CowStep s c t ∧ ¬ c.Shares s) s₀ cs s) ∧
    (Law s → ∀ f ∈ s₀.free, f ∈ s.free ↔ s.Unmapped f) := by
  have exact_run : ∀ {s}, Run (fun s c t => CowStep s c t ∧ ¬ c.Shares s) s₀ cs s →
      Accounted s₀.free 0 s := by
    intro s quiet
    have keep : ∀ s c t, Accounted s₀.free 0 s → CowStep s c t ∧ ¬ c.Shares s → Accounted s₀.free 0 t :=
      fun s c t accounted step => step_exact step.1 step.2 _ _ accounted
    exact run_invariant keep quiet (fresh_accounted fresh)
  refine ⟨⟨fun law => unshared_of_law run law (fresh_accounted fresh), fun quiet => ?_⟩, ?_⟩
  · exact law_of_exact (exact_run quiet)
  · intro law f mem
    have accounted := exact_run (unshared_of_law run law (fresh_accounted fresh))
    constructor
    · exact fun free => unmapped_of_zero accounted (accounted.free f free)
    · intro unmapped
      obtain ⟨S, maps, ref⟩ := law f
      have none_left : S = ∅ := Finset.eq_empty_of_forall_notMem fun x inside => unmapped x ((maps x).mp inside)
      rw [none_left] at ref
      exact accounted.back f mem ref

def onePage : List CowCall :=
  [⟨.addVma 1 ⟨8, 9, true⟩, [], []⟩, ⟨.map 1 8 noPerm (fun _ => 7), [some 5], [true]⟩]

theorem one_page_run : Run CowStep freshCow onePage (onePage.foldl CowState.after freshCow) := by
  refine .call (step_after ?_ ?_) (.call (step_after ?_ ?_) (.stop _))
  · exact trivial
  · decide +kernel
  · exact trivial
  · decide +kernel

/- A process maps a page of its own and exits. -/
theorem unshared_run : ∃ t, Run CowStep freshCow (onePage ++ [⟨.exit 1, [], []⟩]) t ∧
    (Law t → ∀ f ∈ freshCow.free, f ∈ t.free ↔ t.Unmapped f) := by
  have fresh : Fresh freshCow := ⟨fun _ _ => rfl, fun _ => rfl⟩
  let s := onePage.foldl CowState.after freshCow
  have exits : CowStep s ⟨.exit 1, [], []⟩ (s.after ⟨.exit 1, [], []⟩) := by
    apply step_after
    · exact trivial
    · decide +kernel
  have run := run_append one_page_run (.call exits (.stop _))
  exact ⟨_, run, (refs_count_mappings_exactly_when fresh run).2⟩

/- The first fork: the frame is mapped twice and counted three times. -/
theorem first_fork_overcounts : ∃ t, Run CowStep freshCow
    (onePage ++ [⟨.fork 2 1, [], [true, true]⟩]) t ∧ t.ref 5 = 3 ∧ ¬ Law t := by
  have fresh : Fresh freshCow := ⟨fun _ _ => rfl, fun _ => rfl⟩
  let s := onePage.foldl CowState.after freshCow
  have fork : CowStep s ⟨.fork 2 1, [], [true, true]⟩ (s.after ⟨.fork 2 1, [], [true, true]⟩) := by
    apply step_after
    · exact ⟨by decide, fun _ => rfl, rfl⟩
    · decide +kernel
  have shares : (⟨.fork 2 1, [], [true, true]⟩ : CowCall).Shares s := by
    have vmas : (s.vmas 1).reverse = [⟨8, 9, true⟩] := by decide +kernel
    have mapped : Vma.Mapped ⟨8, 9, true⟩ (s.pte 1) := by decide +kernel
    change SharesIn (s.pte 1) (s.vmas 1).reverse [true, true]
    rw [vmas]
    refine ⟨rfl, ?_⟩
    rw [if_pos mapped]
    rfl
  obtain ⟨excess, accounted⟩ := run_accounted fresh one_page_run
  refine ⟨s.after ⟨.fork 2 1, [], [true, true]⟩, run_append one_page_run (.call fork (.stop _)), ?_, ?_⟩
  · decide +kernel
  · exact shared_breaks accounted fork shares (.stop _)

end Ucore.CowFork
