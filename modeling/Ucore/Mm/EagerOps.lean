import Ucore.Mm.EagerSteps

/- What each operation of lab5 does to what the processes see, to the places of the pages and to the marks. -/
namespace Ucore.CowFork
open Programs Transitions

/-- What a fork leaves: a child with the VMAs and the pages of its parent, or none where it fails. -/
structure Forked (s t : CowState) (dst src : Nat) (ret : Int) : Prop where
  data : t.data = s.data
  others : ∀ mm la, mm ≠ dst → mm ≠ src → t.pte mm la = s.pte mm la
  parent : ∀ la, t.pte src la = s.pte src la ∨
    ((s.pte src la).v = true ∧ t.pte src la = { s.pte src la with perm := (s.pte src la).perm.shared })
  child : (ret = 0 ∧ t.vmas = Function.update s.vmas dst (s.vmas src) ∧ ∀ la,
      ((s.pte src la).v = true → t.pte dst la = pteCreate (s.pte src la).page (s.pte src la).perm.inherited) ∧
      ((s.pte src la).v = false → (t.pte dst la).v = false)) ∨
    (ret ≠ 0 ∧ t.vmas = s.vmas ∧ ∀ la, (t.pte dst la).v = false)

section
variable {pool : Finset Nat} {excess : Nat → Nat} {s t u : CowState} {mm la dst src start : Nat} {done : Nat → Prop}
  {ret : Int}

theorem shared_parent (shared : Shared s t dst src done) (la : Nat) : t.pte src la = s.pte src la ∨
    ((s.pte src la).v = true ∧ t.pte src la = { s.pte src la with perm := (s.pte src la).perm.shared }) := by
  by_cases both : done la ∧ (s.pte src la).v = true
  · exact .inr ⟨both.2, shared.parent la both.1 both.2⟩
  · exact .inl (shared.rest la both).1

theorem copy_mm_forks (apart : dst ≠ src) (held : Held s src) (empty : ∀ la, (s.pte dst la).v = false)
    (bare : s.vmas dst = []) (accounted : Accounted pool excess s) (ran : copyMm dst src s = .ok (ret, t)) :
    Forked s t dst src ret := by
  unfold copyMm at ran
  rw [run_get_bind] at ran
  obtain ⟨one, w, dup, ran⟩ := bind_ran ran
  have start : Forking s s dst src fun _ => False := ⟨shared_refl, fun _ _ => rfl, fun _ never => never.elim⟩
  have none_there : ∀ {P : Vma → Prop}, ∀ vma ∈ s.vmas dst, P vma := by
    intro P vma mem
    rw [bare] at mem
    cases mem
  obtain ⟨done, ⟨shared, others, inside⟩, whole⟩ := dup_mmap_forks start apart (fun _ _ => none_there) none_there
    (List.pairwise_reverse.mpr held.sorted) accounted dup
  have childless : ∀ la, ¬ (done la ∧ (s.pte src la).v = true) → (w.pte dst la).v = false := by
    intro la not_both
    rw [(shared.rest la not_both).2]
    exact empty la
  by_cases failed : one ≠ 0
  · rw [if_pos failed] at ran
    obtain ⟨⟨⟩, x, exited, ran⟩ := bind_ran ran
    cases ran
    have heldChild : ∀ i, (w.pte dst i).v = true → ∃ vma ∈ w.vmas dst, vma.vmStart ≤ i ∧ i < vma.vmEnd := by
      intro i valid
      apply inside
      by_contra not_done
      rw [childless i fun both => not_done both.1] at valid
      cases valid
    obtain ⟨data, vmas, elsewhere, invalid⟩ := exit_mmap_empties heldChild exited
    refine ⟨data.trans shared.data, fun mm la notDst notSrc => ?_, fun la => ?_, .inr ⟨failed, ?_, invalid⟩⟩
    · rw [elsewhere mm notDst]
      exact shared.others mm la notDst notSrc
    · rw [elsewhere src apart.symm]
      exact shared_parent shared la
    · rw [vmas]
      funext mm
      by_cases here : mm = dst
      · rw [here, Function.update_self, bare]
      · rw [Function.update_of_ne here, others mm here]
  · rw [if_neg failed] at ran
    cases ran
    obtain ⟨all, _, each⟩ := whole (not_not.mp failed)
    rw [bare, List.reverse_reverse, List.append_nil] at all
    refine ⟨shared.data, shared.others, shared_parent shared, .inl ⟨not_not.mp failed, ?_, fun la => ⟨fun valid => ?_, fun invalid => ?_⟩⟩⟩
    · funext mm
      by_cases here : mm = dst
      · rw [here, Function.update_self, all]
      · rw [Function.update_of_ne here, others mm here]
    · obtain ⟨vma, mem, low, high⟩ := held.held la valid
      exact shared.child la (each vma (List.mem_reverse.mpr mem) la low high) valid
    · apply childless
      rintro ⟨_, valid⟩
      rw [invalid] at valid
      cases valid

theorem forked_same (forked : Forked s t dst src ret) (apart : dst ≠ src) (notDst : mm ≠ dst) (la : Nat) :
    (t.pte mm la).v = (s.pte mm la).v ∧ (t.pte mm la).page = (s.pte mm la).page := by
  by_cases here : mm = src
  · subst here
    rcases forked.parent la with same | ⟨_, same⟩
    · rw [same]
      exact ⟨rfl, rfl⟩
    · rw [same]
      exact ⟨rfl, rfl⟩
  · rw [forked.others mm la notDst here]
    exact ⟨rfl, rfl⟩

theorem view_same (data : t.data = s.data) (valid : (t.pte mm la).v = (s.pte mm la).v)
    (page : (t.pte mm la).page = (s.pte mm la).page) : t.view.mem mm la = s.view.mem mm la := by
  change (if (t.pte mm la).v = true then some (t.data (t.pte mm la).page) else none) = _
  rw [valid, page, data]
  rfl

theorem view_none (invalid : (s.pte mm la).v = false) : s.view.mem mm la = none := by
  change (if (s.pte mm la).v = true then some (s.data (s.pte mm la).page) else none) = _
  rw [invalid]
  rfl

/- A fork, as the processes see it. -/
theorem forked_eager (forked : Forked s t dst src ret) (apart : dst ≠ src) (empty : ∀ la, (s.pte dst la).v = false) :
    EagerStep s.view (.fork dst src, ret) t.view := by
  have others : ∀ mm, mm ≠ dst → t.view.mem mm = s.view.mem mm := by
    intro mm notDst
    funext la
    obtain ⟨valid, page⟩ := forked_same forked apart notDst la
    exact view_same forked.data valid page
  rcases forked.child with ⟨rfl, vmas, pages⟩ | ⟨failed, vmas, invalid⟩
  · have whole : t.view = ⟨Function.update s.view.mem dst (s.view.mem src),
        Function.update s.view.vmas dst (s.view.vmas src)⟩ := by
      have mem : t.view.mem = Function.update s.view.mem dst (s.view.mem src) := by
        funext mm la
        by_cases here : mm = dst
        · rw [here, Function.update_self]
          cases valid : (s.pte src la).v with
          | true =>
            change (if (t.pte dst la).v = true then some (t.data (t.pte dst la).page) else none) =
              if (s.pte src la).v = true then some (s.data (s.pte src la).page) else none
            rw [(pages la).1 valid, valid, forked.data]
            rfl
          | false => rw [view_none ((pages la).2 valid), view_none valid]
        · rw [Function.update_of_ne here, others mm here]
      change (⟨t.view.mem, t.vmas⟩ : Eager) = _
      rw [mem, vmas]
      rfl
    rw [whole]
    exact .fork dst src
  · have whole : t.view = s.view := by
      have mem : t.view.mem = s.view.mem := by
        funext mm la
        by_cases here : mm = dst
        · rw [here, view_none (invalid la), view_none (empty la)]
        · rw [others mm here]
      change (⟨t.view.mem, t.vmas⟩ : Eager) = ⟨s.view.mem, s.vmas⟩
      rw [mem, vmas]
    rw [whole]
    exact .noFork dst src failed

/-- What every run keeps: the accounts of the frames, and that pages lie in VMAs. -/
structure ForkInv (pool : Finset Nat) (s : CowState) : Prop where
  accounted : ∃ excess, Accounted pool excess s
  held : ∀ mm, Held s mm

/-- What an operation does: to what the processes see, to the places of the pages, and to the marks. -/
structure Simulates (s t : CowState) (op : CowOp × Int) (owned : Prop) : Prop where
  step : EagerStep s.view op t.view
  held : ∀ mm, Held t mm
  marked : owned → Marked s → Marked t

theorem held_of_valid (held : Held s mm) (vmas : t.vmas mm = s.vmas mm)
    (valid : ∀ i, (t.pte mm i).v = true → (s.pte mm i).v = true) : Held t mm := by
  refine ⟨?_, ?_, fun i there => ?_⟩
  · rw [vmas]
    exact held.sorted
  · rw [vmas]
    exact held.proper
  · rw [vmas]
    exact held.held i (valid i there)

theorem held_unique (held : Held s mm) {one two : Vma} (first : one ∈ s.vmas mm) (second : two ∈ s.vmas mm)
    (inOne : one.vmStart ≤ la ∧ la < one.vmEnd) (inTwo : two.vmStart ≤ la ∧ la < two.vmEnd) : one = two := by
  by_contra other
  have symmetric : Std.Symm fun a b : Vma => a.vmEnd ≤ b.vmStart ∨ b.vmEnd ≤ a.vmStart := ⟨fun _ _ => Or.symm⟩
  have either : (s.vmas mm).Pairwise fun a b : Vma => a.vmEnd ≤ b.vmStart ∨ b.vmEnd ≤ a.vmStart :=
    held.sorted.imp Or.inl
  have apart := either.forall first second other
  omega

/- Another entry at one place, with a frame that no other place has. -/
theorem set_view {pte : Pte} {page : Nat} {bytes : Nat → Nat} (unmapped : ∀ mm' i, (mm', i) ≠ (mm, la) → ¬ s.Maps (mm', i) page)
    (entry : t.pte = (s.setPte mm la pte).pte) (valid : pte.v = true) (frame : pte.page = page)
    (data : t.data = Function.update s.data page bytes) (vmas : t.vmas = s.vmas) :
    t.view = s.view.setPage mm la (some bytes) := by
  have mem : t.view.mem = (s.view.setPage mm la (some bytes)).mem := by
    funext mm' i
    change (if (t.pte mm' i).v = true then some (t.data (t.pte mm' i).page) else none) =
      Function.update s.view.mem mm (Function.update (s.view.mem mm) la (some bytes)) mm' i
    rw [entry, data]
    by_cases here : (mm', i) = (mm, la)
    · cases here
      rw [set_self, valid, frame, Function.update_self, Function.update_self, Function.update_self]
      rfl
    · rw [set_other (x := (mm', i)) here]
      have old : Function.update s.view.mem mm (Function.update (s.view.mem mm) la (some bytes)) mm' i =
          s.view.mem mm' i := by
        by_cases same : mm' = mm
        · subst same
          rw [Function.update_self, Function.update_of_ne fun eq => here (congrArg (Prod.mk mm') eq)]
        · rw [Function.update_of_ne same]
      rw [old]
      change _ = if (s.pte mm' i).v = true then some (s.data (s.pte mm' i).page) else none
      by_cases there : (s.pte mm' i).v = true
      · rw [if_pos there, if_pos there, Function.update_of_ne fun eq => unmapped mm' i here ⟨there, eq⟩]
      · rw [if_neg there, if_neg there]
  change (⟨t.view.mem, t.vmas⟩ : Eager) = ⟨_, s.vmas⟩
  rw [mem, vmas]
  rfl

theorem permitted_same (vmas : t.vmas = s.vmas) : t.Permitted mm la ↔ s.Permitted mm la := by
  unfold CowState.Permitted
  rw [vmas]

/- A new entry that is writable, or as the VMA asks, keeps the marks. -/
theorem set_marked {pte : Pte} (entry : t.pte = (s.setPte mm la pte).pte) (vmas : t.vmas = s.vmas)
    (new : s.Permitted mm la → pte.perm.w = true ∨ pte.perm.cow = true) (marked : Marked s) : Marked t := by
  intro mm' i permitted valid
  rw [permitted_same vmas] at permitted
  rw [entry] at valid ⊢
  by_cases here : (mm', i) = (mm, la)
  · cases here
    rw [set_self]
    exact new permitted
  · rw [set_other (x := (mm', i)) here] at valid ⊢
    exact marked mm' i permitted valid

theorem set_held {pte : Pte} (held : ∀ mm, Held s mm) (entry : t.pte = (s.setPte mm la pte).pte) (vmas : t.vmas = s.vmas)
    (covered : ∃ vma ∈ s.vmas mm, vma.vmStart ≤ la ∧ la < vma.vmEnd) (mm' : Nat) : Held t mm' := by
  refine ⟨?_, ?_, fun i valid => ?_⟩
  · rw [vmas]
    exact (held mm').sorted
  · rw [vmas]
    exact (held mm').proper
  · rw [vmas]
    rw [entry] at valid
    by_cases here : (mm', i) = (mm, la)
    · cases here
      exact covered
    · rw [set_other (x := (mm', i)) here] at valid
      exact (held mm').held i valid

theorem add_vma_simulates {vma : Vma} (inv : ForkInv pool s) (ran : insertVmaStruct mm vma s = .ok ((), t)) :
    Simulates s t (.addVma mm vma, 0) True := by
  obtain ⟨before, after, parts, same, _⟩ := insert_vma_ran ran
  obtain ⟨list, whole, inside, old, sorted, proper, apart⟩ := insert_vma_apart (inv.held mm) ran
  have lists : list = before ++ vma :: after := by
    have both := congrArg (fun u : CowState => u.vmas mm) (whole.symm.trans same)
    dsimp only at both
    rwa [Function.update_self, Function.update_self] at both
  have members : ∀ x ∈ list, x = vma ∨ x ∈ s.vmas mm := by
    intro x mem
    rw [lists] at mem
    rw [parts]
    rcases List.mem_append.mp mem with left | right
    · exact .inr (List.mem_append_left _ left)
    · rcases List.mem_cons.mp right with rfl | later
      · exact .inl rfl
      · exact .inr (List.mem_append_right _ later)
  have listed : ∀ mm', t.vmas mm' = if mm' = mm then list else s.vmas mm' := by
    intro mm'
    rw [whole]
    change Function.update s.vmas mm list mm' = _
    by_cases here : mm' = mm
    · rw [here, Function.update_self, if_pos rfl]
    · rw [Function.update_of_ne here, if_neg here]
  have pte : t.pte = s.pte := by rw [whole]
  refine ⟨?_, fun mm' => ?_, fun _ marked mm' i permitted valid => ?_⟩
  · rw [same]
    exact .addVma mm vma parts
  · by_cases here : mm' = mm
    · subst here
      refine ⟨?_, ?_, fun i valid => ?_⟩
      · rw [listed, if_pos rfl]
        exact sorted
      · rw [listed, if_pos rfl]
        exact proper
      · rw [listed, if_pos rfl]
        rw [pte] at valid
        obtain ⟨one, mem, bounds⟩ := (inv.held mm').held i valid
        exact ⟨one, old one mem, bounds⟩
    · refine held_of_valid (inv.held mm') ?_ fun i valid => ?_
      · rw [listed, if_neg here]
      · rwa [pte] at valid
  · rw [pte] at valid ⊢
    apply marked mm' i _ valid
    obtain ⟨one, mem, low, high, write⟩ := permitted
    rw [listed] at mem
    by_cases here : mm' = mm
    · subst here
      rw [if_pos rfl] at mem
      rcases members one mem with rfl | before
      · obtain ⟨other, there, low', high'⟩ := (inv.held mm').held i valid
        have beside := apart other there
        omega
      · exact ⟨one, before, low, high, write⟩
    · rw [if_neg here] at mem
      exact ⟨one, mem, low, high, write⟩

theorem view_of_fields (pte : t.pte = s.pte) (data : t.data = s.data) (vmas : t.vmas = s.vmas) : t.view = s.view := by
  unfold CowState.view
  rw [pte, data, vmas]

theorem map_simulates {perm : Perm} {bytes : Nat → Nat} (inv : ForkInv pool s)
    (loads : ∃ vma ∈ s.vmas mm, vma.vmStart ≤ la ∧ la < vma.vmEnd ∧ perm.w = vma.write)
    (loaded : Loaded s mm la perm.user bytes ret t) : Simulates s t (.map mm la perm bytes, ret) True := by
  obtain ⟨excess, accounted⟩ := inv.accounted
  obtain ⟨vma, mem, low, high, write⟩ := loads
  cases loaded with
  | none pte data vmas =>
    refine ⟨?_, fun mm' => ?_, fun _ marked mm' i permitted valid => ?_⟩
    · rw [view_of_fields pte data vmas]
      exact .noMap mm la perm bytes (by decide)
    · exact held_of_valid (inv.held mm') (by rw [vmas]) fun i valid => by rwa [pte] at valid
    · rw [permitted_same vmas] at permitted
      rw [pte] at valid ⊢
      exact marked mm' i permitted valid
  | @page page offered _ pte data vmas =>
    have free := offered_free offered
    have unmapped := unmapped_of_zero accounted (accounted.free page free)
    refine ⟨?_, set_held inv.held pte vmas ⟨vma, mem, low, high⟩, fun _ marked => set_marked pte vmas ?_ marked⟩
    · rw [set_view (fun mm' i _ => unmapped (mm', i)) pte rfl rfl data vmas]
      exact .map mm la perm bytes
    · rintro ⟨one, inside, low', high', writable⟩
      have same := held_unique (inv.held mm) mem inside ⟨low, high⟩ ⟨low', high'⟩
      left
      change perm.w = true
      rw [write, same, writable]

theorem set_same_view {pte : Pte} (entry : t.pte = (s.setPte mm la pte).pte) (valid : pte.v = (s.pte mm la).v)
    (frame : pte.page = (s.pte mm la).page) (data : t.data = s.data) (vmas : t.vmas = s.vmas) : t.view = s.view := by
  have mem : t.view.mem = s.view.mem := by
    funext mm' i
    apply view_same data
    · rw [entry]
      by_cases here : (mm', i) = (mm, la)
      · cases here
        rw [set_self, valid]
      · rw [set_other (x := (mm', i)) here]
    · rw [entry]
      by_cases here : (mm', i) = (mm, la)
      · cases here
        rw [set_self, frame]
      · rw [set_other (x := (mm', i)) here]
  change (⟨t.view.mem, t.vmas⟩ : Eager) = ⟨s.view.mem, s.vmas⟩
  rw [mem, vmas]

theorem found_covers (found : s.findVma mm la ≠ none) : ∃ vma ∈ s.vmas mm, vma.vmStart ≤ la ∧ la < vma.vmEnd := by
  obtain ⟨vma, here⟩ := Option.ne_none_iff_exists'.mp found
  have inside : decide (vma.vmStart ≤ la ∧ la < vma.vmEnd) = true :=
    @List.find?_some Vma (fun vma => decide (vma.vmStart ≤ la ∧ la < vma.vmEnd)) vma (s.vmas mm) here
  exact ⟨vma, List.mem_of_find?_eq_some here, of_decide_eq_true inside⟩

theorem quiet_simulates {op : CowOp × Int} {owned : Prop} (inv : ForkInv pool s) (step : EagerStep s.view op s.view)
    (pte : t.pte = s.pte) (data : t.data = s.data) (vmas : t.vmas = s.vmas) : Simulates s t op owned := by
  refine ⟨?_, fun mm' => ?_, fun _ marked mm' i permitted valid => ?_⟩
  · rw [view_of_fields pte data vmas]
    exact step
  · exact held_of_valid (inv.held mm') (by rw [vmas]) fun i valid => by rwa [pte] at valid
  · rw [permitted_same vmas] at permitted
    rw [pte] at valid ⊢
    exact marked mm' i permitted valid

theorem fault_simulates {code : Fault} (inv : ForkInv pool s) (faulted : Faulted s mm code la ret t) :
    Simulates s t (.fault mm code la, ret) True := by
  obtain ⟨excess, accounted⟩ := inv.accounted
  have there : (s.pte mm la).v = true → s.view.mem mm la = some (s.data (s.pte mm la).page) := fun valid => if_pos valid
  cases faulted with
  | outside | noTable | noPage | full | refused =>
    exact quiet_simulates inv (.noFault mm code la (by decide)) rfl rfl rfl
  | nothing _ valid => exact quiet_simulates inv (.fault mm code la (there valid)) rfl rfl rfl
  | @fresh found absent _ page offered _ entered =>
    have free := offered_free offered
    have unmapped := unmapped_of_zero accounted (accounted.free page free)
    refine ⟨?_, set_held inv.held entered.pte entered.vmas (found_covers found),
      fun _ => set_marked entered.pte entered.vmas fun _ => .inl rfl⟩
    have data : t.data = Function.update s.data page (s.data page) := by
      rw [entered.data, Function.update_eq_self]
    rw [set_view (fun mm' i _ => unmapped (mm', i)) entered.pte rfl rfl data entered.vmas]
    exact .newPage mm code la _ (view_none absent)
  | @copied found valid cow shared page offered _ pte data vmas =>
    have free := offered_free offered
    have unmapped := unmapped_of_zero accounted (accounted.free page free)
    refine ⟨?_, set_held inv.held pte vmas (found_covers found), fun _ => set_marked pte vmas fun _ => .inl rfl⟩
    have seen := set_view (fun mm' i _ => unmapped (mm', i)) pte rfl rfl data vmas
    have same : s.view.setPage mm la (some (s.data (s.pte mm la).page)) = s.view := by
      unfold Eager.setPage
      rw [← there valid, Function.update_eq_self, Function.update_eq_self]
    rw [seen, same]
    exact .fault mm code la (there valid)
  | upgraded found valid cow alone =>
    refine ⟨?_, set_held inv.held rfl rfl (found_covers found), fun _ => set_marked rfl rfl fun _ => .inl rfl⟩
    have seen := @set_same_view s (s.setPte mm la
      { s.pte mm la with perm := { (s.pte mm la).perm with cow := false, w := true } }) mm la _ rfl rfl rfl rfl rfl
    rw [seen]
    exact .fault mm code la (there valid)

theorem write_simulates {off byte : Nat} (inv : ForkInv pool s) (writable : s.Writable mm la) :
    Simulates s (s.write mm la off byte) (.write mm la off byte, 0) True := by
  obtain ⟨excess, accounted⟩ := inv.accounted
  have here : s.view.mem mm la = some (s.data (s.pte mm la).page) := if_pos writable.1
  refine ⟨?_, fun mm' => held_of_valid (inv.held mm') rfl fun _ valid => valid, fun _ marked => marked⟩
  have same : s.pte = (s.setPte mm la (s.pte mm la)).pte := by
    unfold CowState.setPte
    dsimp only
    rw [Function.update_eq_self, Function.update_eq_self]
  have alone : ∀ mm' i, (mm', i) ≠ (mm, la) → ¬ s.Maps (mm', i) (s.pte mm la).page :=
    fun mm' i other maps => other (accounted.sole (mm, la) (mm', i) _ ⟨writable.1, rfl⟩ writable.2 maps)
  have seen : (s.write mm la off byte).view = s.view.setPage mm la
      (some (Function.update (s.data (s.pte mm la).page) off byte)) :=
    set_view alone same writable.1 rfl rfl rfl
  rw [seen]
  exact .write mm la off byte here

theorem unmap_simulates {count : Nat} (inv : ForkInv pool s) (ran : unmapRange mm start count s = .ok ((), t)) :
    Simulates s t (.unmap mm start count, 0) True := by
  have none_gone : Emptied s s mm fun _ => False :=
    ⟨rfl, rfl, fun _ _ => rfl, fun _ never => never.elim, fun _ _ => rfl⟩
  obtain ⟨data, vmas, others, cleared, rest⟩ := unmap_range_empties none_gone ran
  have gone : ∀ i, (False ∨ (start ≤ i ∧ i < start + count)) ↔ (start ≤ i ∧ i < start + count) := fun i =>
    ⟨fun either => either.resolve_left id, Or.inr⟩
  have kept : ∀ mm' i, (t.pte mm' i).v = true → t.pte mm' i = s.pte mm' i := by
    intro mm' i valid
    by_cases here : mm' = mm
    · subst here
      apply rest
      intro inside
      rw [cleared i inside] at valid
      cases valid
    · rw [others mm' here]
  refine ⟨?_, fun mm' => ?_, fun _ marked mm' i permitted valid => ?_⟩
  · have whole : t.view = { s.view with mem := Function.update s.view.mem mm fun la =>
        if start ≤ la ∧ la < start + count then none else s.view.mem mm la } := by
      have mem : t.view.mem = Function.update s.view.mem mm fun la =>
          if start ≤ la ∧ la < start + count then none else s.view.mem mm la := by
        funext mm' i
        by_cases here : mm' = mm
        · subst here
          rw [Function.update_self]
          by_cases inside : start ≤ i ∧ i < start + count
          · rw [if_pos inside, view_none (cleared i (.inr inside))]
          · have same := rest i fun either => inside ((gone i).mp either)
            rw [if_neg inside]
            exact view_same data (by rw [same]) (by rw [same])
        · rw [Function.update_of_ne here]
          exact view_same data (by rw [others mm' here]) (by rw [others mm' here])
      change (⟨t.view.mem, t.vmas⟩ : Eager) = _
      rw [mem, vmas]
      rfl
    rw [whole]
    exact .unmap mm start count
  · exact held_of_valid (inv.held mm') (by rw [vmas]) fun i valid => by rwa [kept mm' i valid] at valid
  · rw [permitted_same vmas] at permitted
    have same := kept mm' i valid
    rw [same] at valid ⊢
    exact marked mm' i permitted valid

theorem exit_simulates (inv : ForkInv pool s) (ran : exitMmap mm s = .ok ((), t)) : Simulates s t (.exit mm, 0) True := by
  obtain ⟨data, vmas, others, invalid⟩ := exit_mmap_empties (inv.held mm).held ran
  have listed : ∀ mm', mm' ≠ mm → t.vmas mm' = s.vmas mm' := by
    intro mm' other
    rw [vmas, Function.update_of_ne other]
  refine ⟨?_, fun mm' => ?_, fun _ marked mm' i permitted valid => ?_⟩
  · have mem : t.view.mem = Function.update s.view.mem mm fun _ => none := by
      funext mm' i
      by_cases here : mm' = mm
      · rw [here, Function.update_self]
        exact view_none (invalid i)
      · rw [Function.update_of_ne here]
        exact view_same data (by rw [others mm' here]) (by rw [others mm' here])
    have whole : t.view = ⟨Function.update s.view.mem mm fun _ => none, Function.update s.view.vmas mm []⟩ := by
      change (⟨t.view.mem, t.vmas⟩ : Eager) = _
      rw [mem, vmas]
      rfl
    rw [whole]
    exact .exit mm
  · by_cases here : mm' = mm
    · subst here
      have bare : t.vmas mm' = [] := by rw [vmas, Function.update_self]
      refine ⟨?_, ?_, fun i valid => ?_⟩
      · rw [bare]
        exact List.Pairwise.nil
      · rw [bare]
        exact fun _ mem => absurd mem List.not_mem_nil
      · rw [invalid i] at valid
        cases valid
    · exact held_of_valid (inv.held mm') (listed mm' here) fun i valid => by rwa [others mm' here] at valid
  · by_cases here : mm' = mm
    · rw [here, invalid i] at valid
      cases valid
    · unfold CowState.Permitted at permitted
      rw [listed mm' here] at permitted
      rw [others mm' here] at valid ⊢
      exact marked mm' i permitted valid

end

end Ucore.CowFork
