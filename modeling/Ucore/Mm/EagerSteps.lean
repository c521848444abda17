import Ucore.Mm.EagerFork

/- A fork of lab5 shows each process what a fork that copies shows it. -/
namespace Ucore.CowFork
open Programs Transitions

section
variable {pool : Finset Nat} {excess : Nat → Nat} {s t u : CowState} {mm la dst src start : Nat} {done : Nat → Prop}
  {ret : Int}

theorem shared_congr {done' : Nat → Prop} (same : ∀ la, done la ↔ done' la) (shared : Shared s t dst src done) :
    Shared s t dst src done' := by
  obtain rfl : done = done' := funext fun la => propext (same la)
  exact shared

/- The loop over the pages of a VMA. -/
theorem share_range {count : Nat} (shared : Shared s t dst src done) (apart : dst ≠ src)
    (new : ∀ la, done la → start + count ≤ la ∨ la < start) (accounted : Accounted pool excess t)
    (ran : copyRange dst src start count t = .ok (ret, u)) :
    (∃ larger, Accounted pool larger u) ∧ u.vmas = t.vmas ∧ ∃ stop ≤ start + count,
      Shared s u dst src (fun la => done la ∨ (start ≤ la ∧ la < stop)) ∧ (ret = 0 → stop = start + count) := by
  induction count generalizing start t done excess with
  | zero =>
    cases ran
    refine ⟨⟨excess, accounted⟩, rfl, start, le_refl _, shared_congr (fun la => ?_) shared, fun _ => rfl⟩
    exact ⟨Or.inl, fun either => either.resolve_right (by omega)⟩
  | succ count ih =>
    obtain ⟨one, w, page, ran⟩ := bind_ran ran
    have fresh : ¬ done start := by
      intro before
      have far := new start before
      omega
    obtain ⟨⟨larger, counted⟩, vmas, ⟨rfl, next⟩ | ⟨failed, still⟩⟩ := share_next shared apart fresh accounted page
    · rw [if_neg (not_not_intro rfl)] at ran
      have later : ∀ la, (done la ∨ la = start) → start + 1 + count ≤ la ∨ la < start + 1 := by
        rintro la (before | rfl)
        · have far := new la before
          omega
        · omega
      obtain ⟨last, vmas', stop, bounded, sharedU, whole⟩ := ih next later counted ran
      refine ⟨last, vmas'.trans vmas, max stop (start + 1), by omega, shared_congr (fun la => ?_) sharedU, fun zero => ?_⟩
      · constructor
        · rintro ((before | rfl) | ⟨after, low⟩)
          · exact .inl before
          · exact .inr ⟨le_refl _, by omega⟩
          · exact .inr ⟨by omega, by omega⟩
        · rintro (before | ⟨after, low⟩)
          · exact .inl (.inl before)
          · by_cases here : la = start
            · exact .inl (.inr here)
            · exact .inr ⟨by omega, by omega⟩
      · have reached := whole zero
        omega
    · rw [if_pos failed] at ran
      cases ran
      refine ⟨⟨larger, counted⟩, vmas, start, by omega, shared_congr (fun la => ?_) still, fun zero => absurd zero failed⟩
      exact ⟨Or.inl, fun either => either.resolve_right (by omega)⟩

/- A VMA below the others goes to the front. -/
theorem insert_vma_front {vma : Vma} (lower : ∀ old ∈ t.vmas mm, vma.vmEnd ≤ old.vmStart)
    (proper : ∀ old ∈ t.vmas mm, old.vmStart < old.vmEnd) (ran : insertVmaStruct mm vma t = .ok ((), u)) :
    u = { t with vmas := Function.update t.vmas mm (vma :: t.vmas mm) } ∧ vma.vmStart < vma.vmEnd := by
  obtain ⟨before, after, parts, rfl, some_pages, last, _⟩ := insert_vma_ran ran
  cases final : before.getLast? with
  | none =>
    rw [List.getLast?_eq_none_iff.mp final] at parts ⊢
    rw [parts]
    exact ⟨rfl, some_pages⟩
  | some old =>
    have mem : old ∈ t.vmas mm := by
      rw [parts]
      exact List.mem_append_left _ (List.mem_of_getLast? final)
    have high := lower old mem
    have low := last old final
    have other := proper old mem
    omega

/-- How far a fork has come: the VMAs that the child has are the last ones of its parent, and their pages
are shared. -/
structure Forking (s t : CowState) (dst src : Nat) (done : Nat → Prop) : Prop where
  shared : Shared s t dst src done
  others : ∀ mm, mm ≠ dst → t.vmas mm = s.vmas mm
  inside : ∀ la, done la → ∃ vma ∈ t.vmas dst, vma.vmStart ≤ la ∧ la < vma.vmEnd

theorem dup_mmap_forks {list : List Vma} (forking : Forking s t dst src done) (apart : dst ≠ src)
    (lower : ∀ vma ∈ list, ∀ old ∈ t.vmas dst, vma.vmEnd ≤ old.vmStart)
    (proper : ∀ vma ∈ t.vmas dst, vma.vmStart < vma.vmEnd)
    (sorted : list.Pairwise fun high low => low.vmEnd ≤ high.vmStart) (accounted : Accounted pool excess t)
    (ran : dupMmap dst src list t = .ok (ret, u)) :
    ∃ done', Forking s u dst src done' ∧ (ret = 0 → u.vmas dst = list.reverse ++ t.vmas dst ∧
      (∀ la, done la → done' la) ∧ ∀ vma ∈ list, ∀ la, vma.vmStart ≤ la → la < vma.vmEnd → done' la) := by
  induction list generalizing t done excess with
  | nil =>
    cases ran
    exact ⟨done, forking, fun _ => ⟨rfl, fun _ before => before, fun _ mem => absurd mem List.not_mem_nil⟩⟩
  | cons vma rest ih =>
    obtain ⟨memory, v, asked, ran⟩ := bind_ran ran
    cases asked
    by_cases refused : (!(t.tables.head?.getD false)) = true
    · rw [if_pos refused] at ran
      cases ran
      refine ⟨done, ?_, fun zero => absurd zero (by decide)⟩
      obtain ⟨⟨data, other, parent, child, still⟩, others, inside⟩ := forking
      exact ⟨⟨data, other, parent, child, still⟩, others, inside⟩
    · rw [if_neg refused] at ran
      obtain ⟨⟨⟩, w, inserted, ran⟩ := bind_ran ran
      obtain ⟨rfl, some_pages⟩ := insert_vma_front (t := { t with tables := t.tables.tail })
        (fun old mem => lower vma (.head _) old mem) proper inserted
      obtain ⟨one, x, range, ran⟩ := bind_ran ran
      obtain ⟨⟨data, other, parent, child, still⟩, others, inside⟩ := forking
      have list : Function.update t.vmas dst (vma :: t.vmas dst) dst = vma :: t.vmas dst := Function.update_self ..
      obtain ⟨⟨larger, counted⟩, vmas, stop, bounded, sharedX, whole⟩ := share_range
        (t := { t with tables := t.tables.tail, vmas := Function.update t.vmas dst (vma :: t.vmas dst) })
        ⟨data, other, parent, child, still⟩ apart (fun la before => by
          obtain ⟨old, mem, low, _⟩ := inside la before
          have beyond := lower vma (.head _) old mem
          omega) (same_accounted (s := t) ⟨rfl, rfl, rfl⟩ accounted) range
      have listX : x.vmas dst = vma :: t.vmas dst := by
        rw [vmas]
        exact list
      have forkingX : Forking s x dst src fun la => done la ∨ (vma.vmStart ≤ la ∧ la < stop) := by
        refine ⟨sharedX, fun mm notDst => ?_, fun la now => ?_⟩
        · rw [vmas]
          exact (Function.update_of_ne notDst ..).trans (others mm notDst)
        · rw [listX]
          rcases now with before | ⟨after, low⟩
          · obtain ⟨old, mem, bounds⟩ := inside la before
            exact ⟨old, .tail _ mem, bounds⟩
          · exact ⟨vma, .head _, after, by omega⟩
      by_cases failed : one ≠ 0
      · rw [if_pos failed] at ran
        cases ran
        exact ⟨_, forkingX, fun zero => absurd zero (by decide)⟩
      · rw [if_neg failed] at ran
        obtain ⟨below, rest'⟩ := List.pairwise_cons.mp sorted
        have lowerX : ∀ low ∈ rest, ∀ old ∈ x.vmas dst, low.vmEnd ≤ old.vmStart := by
          intro low mem old within
          rw [listX] at within
          rcases List.mem_cons.mp within with rfl | later
          · exact below low mem
          · exact lower low (.tail _ mem) old later
        have properX : ∀ one ∈ x.vmas dst, one.vmStart < one.vmEnd := by
          intro one within
          rw [listX] at within
          rcases List.mem_cons.mp within with rfl | later
          · exact some_pages
          · exact proper one later
        obtain ⟨done', forkingU, covers⟩ := ih forkingX lowerX properX rest' counted ran
        refine ⟨done', forkingU, fun zero => ?_⟩
        obtain ⟨all, stays, each⟩ := covers zero
        have reached := whole (not_not.mp failed)
        refine ⟨?_, fun la before => stays la (.inl before), fun one mem la after before => ?_⟩
        · rw [all, listX, List.reverse_cons, List.append_assoc, List.singleton_append]
        · rcases List.mem_cons.mp mem with rfl | later
          · exact stays la (.inr ⟨after, by omega⟩)
          · exact each one later la after before

/-- The pages that are `gone` have been unmapped from `mm`, and nothing else has changed. -/
structure Emptied (s t : CowState) (mm : Nat) (gone : Nat → Prop) : Prop where
  data : t.data = s.data
  vmas : t.vmas = s.vmas
  others : ∀ mm', mm' ≠ mm → t.pte mm' = s.pte mm'
  cleared : ∀ la, gone la → (t.pte mm la).v = false
  rest : ∀ la, ¬ gone la → t.pte mm la = s.pte mm la

theorem remove_next {gone : Nat → Prop} (emptied : Emptied s t mm gone) (ran : pageRemovePte mm la t = .ok ((), u)) :
    Emptied s u mm fun i => gone i ∨ i = la := by
  by_cases valid : (t.pte mm la).v = true
  · cases (remove_run valid).symm.trans ran
    have here : (t.drop mm la).pte mm la = noPte := set_self
    have elsewhere : ∀ mm' i, (mm', i) ≠ (mm, la) → (t.drop mm la).pte mm' i = t.pte mm' i :=
      fun mm' i other => set_other (x := (mm', i)) other
    refine ⟨emptied.data, emptied.vmas, fun mm' other => ?_, fun i now => ?_, fun i still => ?_⟩
    · funext i
      rw [elsewhere mm' i fun eq => other (congrArg Prod.fst eq)]
      exact congrFun (emptied.others mm' other) i
    · by_cases same : i = la
      · rw [same, here]
        rfl
      · rw [elsewhere mm i fun eq => same (congrArg Prod.snd eq)]
        exact emptied.cleared i (now.resolve_right same)
    · rw [elsewhere mm i fun eq => still (.inr (congrArg Prod.snd eq))]
      exact emptied.rest i fun before => still (.inl before)
  · have invalid : (t.pte mm la).v = false := Bool.eq_false_of_not_eq_true valid
    cases (remove_none_run invalid).symm.trans ran
    refine ⟨emptied.data, emptied.vmas, emptied.others, fun i now => ?_, fun i still => ?_⟩
    · rcases now with before | rfl
      · exact emptied.cleared i before
      · exact invalid
    · exact emptied.rest i fun before => still (.inl before)

theorem unmap_range_empties {count : Nat} {gone : Nat → Prop} (emptied : Emptied s t mm gone)
    (ran : unmapRange mm start count t = .ok ((), u)) :
    Emptied s u mm fun i => gone i ∨ (start ≤ i ∧ i < start + count) := by
  induction count generalizing start t gone with
  | zero =>
    cases ran
    have same : (fun i => gone i ∨ (start ≤ i ∧ i < start + 0)) = gone := by
      funext i
      exact propext ⟨fun either => either.resolve_right (by omega), Or.inl⟩
    rw [same]
    exact emptied
  | succ count ih =>
    obtain ⟨⟨⟩, w, first, ran⟩ := bind_ran ran
    have next := ih (remove_next emptied first) ran
    have same : (fun i => (gone i ∨ i = start) ∨ (start + 1 ≤ i ∧ i < start + 1 + count)) =
        fun i => gone i ∨ (start ≤ i ∧ i < start + (count + 1)) := by
      funext i
      apply propext
      constructor
      · rintro ((before | rfl) | inside)
        · exact .inl before
        · exact .inr ⟨le_refl _, by omega⟩
        · exact .inr ⟨by omega, by omega⟩
      · rintro (before | inside)
        · exact .inl (.inl before)
        · by_cases here : i = start
          · exact .inl (.inr here)
          · exact .inr ⟨by omega, by omega⟩
    rw [← same]
    exact next

theorem unmap_all_empties {list : List Vma} {gone : Nat → Prop} (emptied : Emptied s t mm gone)
    (ran : unmapAll mm list t = .ok ((), u)) :
    Emptied s u mm fun i => gone i ∨ ∃ vma ∈ list, vma.vmStart ≤ i ∧ i < vma.vmEnd := by
  induction list generalizing t gone with
  | nil =>
    cases ran
    have same : (fun i => gone i ∨ ∃ vma ∈ ([] : List Vma), vma.vmStart ≤ i ∧ i < vma.vmEnd) = gone := by
      funext i
      simp
    rw [same]
    exact emptied
  | cons vma list ih =>
    obtain ⟨⟨⟩, w, first, ran⟩ := bind_ran ran
    have next := ih (unmap_range_empties emptied first) ran
    have same : (fun i => (gone i ∨ (vma.vmStart ≤ i ∧ i < vma.vmStart + (vma.vmEnd - vma.vmStart))) ∨
          ∃ one ∈ list, one.vmStart ≤ i ∧ i < one.vmEnd) =
        fun i => gone i ∨ ∃ one ∈ vma :: list, one.vmStart ≤ i ∧ i < one.vmEnd := by
      funext i
      have here : (vma.vmStart ≤ i ∧ i < vma.vmStart + (vma.vmEnd - vma.vmStart)) ↔ (vma.vmStart ≤ i ∧ i < vma.vmEnd) := by
        omega
      rw [here]
      simp only [List.mem_cons, exists_eq_or_imp, or_assoc]
    rw [← same]
    exact next

/- `exit_mmap` of an address space whose pages are in its VMAs. -/
theorem exit_mmap_empties (held : ∀ i, (s.pte mm i).v = true → ∃ vma ∈ s.vmas mm, vma.vmStart ≤ i ∧ i < vma.vmEnd)
    (ran : exitMmap mm s = .ok ((), t)) : t.data = s.data ∧ t.vmas = Function.update s.vmas mm [] ∧
      (∀ mm', mm' ≠ mm → t.pte mm' = s.pte mm') ∧ ∀ la, (t.pte mm la).v = false := by
  unfold exitMmap at ran
  rw [run_get_bind] at ran
  obtain ⟨⟨⟩, w, unmapped, ran⟩ := bind_ran ran
  cases ran
  have none_gone : Emptied s s mm fun _ => False :=
    ⟨rfl, rfl, fun _ _ => rfl, fun _ never => never.elim, fun _ _ => rfl⟩
  have emptied := unmap_all_empties none_gone unmapped
  refine ⟨emptied.data, congrArg (fun vmas => Function.update vmas mm []) emptied.vmas, emptied.others, fun la => ?_⟩
  by_cases inside : ∃ vma ∈ s.vmas mm, vma.vmStart ≤ la ∧ la < vma.vmEnd
  · exact emptied.cleared la (.inr inside)
  · have same : w.pte mm la = s.pte mm la := emptied.rest la fun either => inside (either.resolve_left id)
    change (w.pte mm la).v = false
    rw [same, ← Bool.not_eq_true]
    exact fun valid => inside (held la valid)

end

end Ucore.CowFork
