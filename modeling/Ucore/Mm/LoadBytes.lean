import Ucore.Mm.LoadPaths

/- The bytes of the pages that `load_icode` and the page faults map: those of the file, zeros, and what the
   frames held before. -/
namespace Ucore.CowFork
open Programs Transitions

/-- From `s` to `u` the address space `mm` has been built of frames that were free. The bytes for which
there is some `content` have been written, and the others are as they were. -/
structure Loading (s u : CowState) (mm : Nat) (content : Nat → Option Nat) : Prop where
  origin : ∀ la, (u.pte mm la).v = true →
    (u.pte mm la).page ∈ s.free ∧ (u.pte mm la).page ∉ u.free ∧ (u.pte mm la).perm.cow = false
  apart : ∀ la la', (u.pte mm la).v = true → (u.pte mm la').v = true →
    (u.pte mm la).page = (u.pte mm la').page → la = la'
  bytes : ∀ la off, (u.pte mm la).v = true → off < PGSIZE → u.data (u.pte mm la).page off =
    (content (la * PGSIZE + off)).getD (s.data (u.pte mm la).page off)
  present : ∀ a, content a ≠ none → (u.pte mm (a / PGSIZE)).v = true
  rest : ∀ f ∈ u.free, f ∈ s.free ∧ u.data f = s.data f

/-- A page of `u` has been mapped in `v`. -/
structure PageMapped (u v : CowState) (mm la page : Nat) (perm : Perm) : Prop where
  free : page ∈ u.free
  pte : v.pte = (u.setPte mm la (pteCreate page perm)).pte
  data : v.data = u.data
  left : v.free = u.free.erase page
  vmas : v.vmas = u.vmas

section
variable {s u v : CowState} {mm la page off size : Nat} {perm : Perm} {content : Nat → Option Nat}

theorem set_pte_other {i : Nat} {pte : Pte} (other : i ≠ la) : (u.setPte mm la pte).pte mm i = u.pte mm i :=
  set_other (x := (mm, i)) fun same => other (congrArg Prod.snd same)

theorem mapped_here (mapped : PageMapped u v mm la page perm) : v.pte mm la = pteCreate page perm := by
  rw [mapped.pte, set_self]

theorem mapped_other {i : Nat} (mapped : PageMapped u v mm la page perm) (other : i ≠ la) :
    v.pte mm i = u.pte mm i := by
  rw [mapped.pte, set_pte_other other]

theorem insert_new (absent : (u.pte mm la).v = false) : pageInsert mm page la perm true u =
    .ok (0, (u.addRef page 1).setPte mm la (pteCreate page perm)) := by
  unfold pageInsert pageRefInc load
  change (ite ((u.pte mm la).v = true) _ _ : CowM Int) (u.addRef page 1) = _
  rw [if_neg (by rw [absent]; exact Bool.false_ne_true)]
  rfl

theorem pgdir_alloc_maps (absent : (u.pte mm la).v = false)
    (ran : pgdirAllocPage mm la perm u = .ok (some page, v)) : PageMapped u v mm la page perm := by
  unfold pgdirAllocPage at ran
  cases offered : u.offered with
  | none =>
    rw [run_bind (alloc_none offered)] at ran
    cases ran
  | some p =>
    rw [run_bind (alloc_some offered)] at ran
    have asked : kmalloc (u.take p) =
      .ok ((u.take p).tables.head?.getD false, { u.take p with tables := (u.take p).tables.tail }) := rfl
    dsimp only at ran
    rw [run_bind asked] at ran
    cases table : (u.take p).tables.head?.getD false with
    | false =>
      rw [table, run_bind insert_fail] at ran
      cases ran
    | true =>
      rw [table, run_bind (insert_new (u := { u.take p with tables := _ }) absent)] at ran
      rw [if_neg (not_not_intro rfl)] at ran
      change (check .assertion _ >>= fun _ => pure (some p) : CowM (Option Nat)) _ = _ at ran
      by_cases counted : ((({ u.take p with tables := (u.take p).tables.tail } : CowState).addRef p 1).setPte mm la
          (pteCreate p perm)).ref p = 1
      · rw [run_check_bind counted] at ran
        cases ran
        exact ⟨offered_free offered, rfl, rfl, rfl, rfl⟩
      · rw [run_check_stop counted] at ran
        cases ran

/- A new page has what its frame had. -/
theorem mapped_loading (loading : Loading s u mm content) (absent : (u.pte mm la).v = false)
    (plain : perm.cow = false) (mapped : PageMapped u v mm la page perm) : Loading s v mm content := by
  have entry := mapped_here mapped
  have others : ∀ i, i ≠ la → v.pte mm i = u.pte mm i := fun i other => mapped_other mapped other
  have outside : ∀ i, (u.pte mm i).v = true → (u.pte mm i).page ≠ page := by
    rintro i valid rfl
    exact (loading.origin i valid).2.1 mapped.free
  refine ⟨fun i valid => ?_, fun i i' valid valid' same => ?_, fun i off valid low => ?_, fun a some_byte => ?_,
    fun f free => ?_⟩
  · by_cases here : i = la
    · subst here
      rw [entry]
      refine ⟨(loading.rest page mapped.free).1, ?_, plain⟩
      rw [mapped.left]
      exact Finset.notMem_erase page _
    · rw [others i here] at valid ⊢
      obtain ⟨before, used, noCow⟩ := loading.origin i valid
      refine ⟨before, ?_, noCow⟩
      rw [mapped.left]
      exact fun mem => used (Finset.mem_of_mem_erase mem)
  · by_cases here : i = la
    · by_cases here' : i' = la
      · exact here.trans here'.symm
      · rw [others i' here'] at valid' same
        rw [here, entry] at same
        exact absurd same.symm (outside i' valid')
    · by_cases here' : i' = la
      · rw [others i here] at valid same
        rw [here', entry] at same
        exact absurd same (outside i valid)
      · rw [others i here, others i' here'] at same
        rw [others i here] at valid
        rw [others i' here'] at valid'
        exact loading.apart i i' valid valid' same
  · rw [mapped.data]
    by_cases here : i = la
    · subst here
      have none_there : content (i * PGSIZE + off) = none := by
        by_contra some_byte
        have there := loading.present _ some_byte
        rw [show (i * PGSIZE + off) / PGSIZE = i by unfold PGSIZE at *; omega, absent] at there
        cases there
      rw [none_there, entry]
      exact congrFun (loading.rest page mapped.free).2 off
    · rw [others i here] at valid ⊢
      exact loading.bytes i off valid low
  · have there := loading.present a some_byte
    have elsewhere : a / PGSIZE ≠ la := by
      intro here
      rw [here, absent] at there
      cases there
    rwa [others _ elsewhere]
  · rw [mapped.left] at free
    rw [mapped.data]
    exact loading.rest f (Finset.mem_of_mem_erase free)

/- Bytes of a page are written. -/
theorem written_loading {bytes : Nat → Nat} (loading : Loading s u mm content) (valid : (u.pte mm la).v = true)
    (fits : off + size ≤ PGSIZE) (ran : setBytes (u.pte mm la).page off size bytes u = .ok ((), v)) :
    (v.pte = u.pte ∧ v.vmas = u.vmas ∧ v.free = u.free) ∧ Loading s v mm fun a =>
      if la * PGSIZE + off ≤ a ∧ a < la * PGSIZE + off + size then some (bytes (a - (la * PGSIZE + off))) else content a := by
  cases ran
  refine ⟨⟨rfl, rfl, rfl⟩, loading.origin, loading.apart, fun i o valid' low => ?_, fun a some_byte => ?_, fun f free => ?_⟩
  · change Function.update u.data (u.pte mm la).page _ (u.pte mm i).page o = _
    have old := loading.bytes i o valid' low
    by_cases here : i = la
    · subst here
      rw [Function.update_self]
      by_cases inside : off ≤ o ∧ o < off + size
      · rw [if_pos inside, if_pos ⟨by omega, by omega⟩, Option.getD_some]
        congr 1
        omega
      · rw [if_neg inside, if_neg fun both => inside ⟨by omega, by omega⟩]
        exact old
    · rw [Function.update_of_ne fun same => here (loading.apart i la valid' valid same), old, if_neg]
      unfold PGSIZE at *
      omega
  · by_cases inside : la * PGSIZE + off ≤ a ∧ a < la * PGSIZE + off + size
    · rw [show a / PGSIZE = la by unfold PGSIZE at *; omega]
      exact valid
    · rw [if_neg inside] at some_byte
      exact loading.present a some_byte
  · obtain ⟨before, same⟩ := loading.rest f free
    refine ⟨before, ?_⟩
    rw [← same]
    apply Function.update_of_ne
    rintro rfl
    exact (loading.origin la valid).2.1 free

/-- What the loop of pages from `la` to `last` leaves. -/
structure Filled (s u v : CowState) (mm la start last page : Nat) (bytes : Nat → Nat) (content : Nat → Option Nat)
    (la' start' page' : Nat) : Prop where
  loading : Loading s v mm fun a => if start ≤ a ∧ a < last then some (bytes a) else content a
  vmas : v.vmas = u.vmas
  held : ∀ i, (v.pte mm i).v = true → (u.pte mm i).v = true ∨ (la / PGSIZE ≤ i ∧ i * PGSIZE < last)
  still : ¬ start < last → v = u ∧ la' = la ∧ start' = start ∧ page' = page
  moved : start < last → start' = last ∧ la' % PGSIZE = 0 ∧ la + PGSIZE ≤ la' ∧ last ≤ la' ∧ la' < last + PGSIZE ∧
    (v.pte mm (la' / PGSIZE - 1)).v = true ∧ (v.pte mm (la' / PGSIZE - 1)).page = page'

theorem fill_filled {bytes : Nat → Nat} {last fuel start la' start' page' : Nat} (loading : Loading s u mm content)
    (plain : perm.cow = false) (aligned : la % PGSIZE = 0) (inPage : start < last → la ≤ start ∧ start < la + PGSIZE)
    (absent : ∀ i, la / PGSIZE ≤ i → i * PGSIZE < last → (u.pte mm i).v = false)
    (ran : fillPages mm perm bytes last fuel la start page u = .ok (some (la', start', page'), v)) :
    Filled s u v mm la start last page bytes content la' start' page' := by
  induction fuel generalizing la start page u content with
  | zero => cases ran
  | succ fuel ih =>
    unfold fillPages at ran
    by_cases more : start < last
    · rw [if_pos more] at ran
      obtain ⟨after, before⟩ := inPage more
      obtain ⟨answer, w, alloc, ran⟩ := bind_ran ran
      cases answer with
      | none => cases ran
      | some p =>
        have new : (u.pte mm (la / PGSIZE)).v = false := absent _ (le_refl _) (by unfold PGSIZE at *; omega)
        have mapped := pgdir_alloc_maps new alloc
        have loadingW := mapped_loading loading new plain mapped
        have entry := mapped_here mapped
        dsimp only at ran
        obtain ⟨size, sized⟩ : ∃ size, size = PGSIZE - (start - la) - (if last < la + PGSIZE then la + PGSIZE - last else 0) :=
          ⟨_, rfl⟩
        rw [← sized] at ran
        have ends : start + size = min (la + PGSIZE) last := by
          rw [sized]
          split <;> omega
        obtain ⟨x, wrote⟩ : ∃ x, setBytes p (start - la) size (fun i => bytes (start + i)) w = .ok ((), x) := ⟨_, rfl⟩
        rw [run_bind wrote] at ran
        have valid : (w.pte mm (la / PGSIZE)).v = true := by
          rw [entry]
          rfl
        have here : (w.pte mm (la / PGSIZE)).page = p := by
          rw [entry]
          rfl
        rw [← here] at wrote
        obtain ⟨⟨pteX, vmasX, _⟩, loadingX⟩ := written_loading loadingW valid (by omega) wrote
        have base : la / PGSIZE * PGSIZE + (start - la) = start := by
          unfold PGSIZE at *
          omega
        rw [base] at loadingX
        have next : (la + PGSIZE) / PGSIZE = la / PGSIZE + 1 := Nat.add_div_right la (by decide)
        have absentX : ∀ i, (la + PGSIZE) / PGSIZE ≤ i → i * PGSIZE < last → (x.pte mm i).v = false := by
          intro i behind low
          rw [next] at behind
          rw [pteX, mapped_other mapped (by omega)]
          exact absent i (by omega) low
        have aligned' : (la + PGSIZE) % PGSIZE = 0 := by
          rw [Nat.add_mod_right]
          exact aligned
        have filled := ih loadingX aligned' (by omega) absentX ran
        obtain ⟨loadingV, vmasV, heldV, still, moved⟩ := filled
        refine ⟨?_, vmasV.trans (vmasX.trans mapped.vmas), fun i validV => ?_, fun less => absurd more less, fun _ => ?_⟩
        · have same : (fun a => if start + size ≤ a ∧ a < last then some (bytes a) else
              if start ≤ a ∧ a < start + size then some (bytes (start + (a - start))) else content a) =
              fun a => if start ≤ a ∧ a < last then some (bytes a) else content a := by
            funext a
            by_cases late : start + size ≤ a ∧ a < last
            · rw [if_pos late, if_pos ⟨by omega, late.2⟩]
            · rw [if_neg late]
              by_cases early : start ≤ a ∧ a < start + size
              · rw [if_pos early, if_pos ⟨early.1, by omega⟩, show start + (a - start) = a by omega]
              · rw [if_neg early, if_neg (by omega)]
          rw [← same]
          exact loadingV
        · rcases heldV i validV with old | ⟨behind, low⟩
          · by_cases now : i = la / PGSIZE
            · subst now
              exact .inr ⟨le_refl _, by unfold PGSIZE at *; omega⟩
            · rw [pteX, mapped_other mapped now] at old
              exact .inl old
          · exact .inr ⟨by omega, low⟩
        · by_cases again : start + size < last
          · obtain ⟨stop, alignedV, ahead, above, below, mappedV⟩ := moved again
            exact ⟨stop, alignedV, by omega, above, below, mappedV⟩
          · obtain ⟨rfl, rfl, rfl, rfl⟩ := still again
            refine ⟨by omega, aligned', le_refl _, by omega, by omega, ?_⟩
            rw [next, Nat.add_sub_cancel, pteX]
            exact ⟨valid, here⟩
    · rw [if_neg more] at ran
      cases ran
      refine ⟨?_, rfl, fun i valid => .inl valid, fun _ => ⟨rfl, rfl, rfl, rfl⟩, fun less => absurd less more⟩
      have same : (fun a => if start' ≤ a ∧ a < last then some (bytes a) else content a) = content := by
        funext a
        exact if_neg fun both => more (Nat.lt_of_le_of_lt both.1 both.2)
      rw [same]
      exact loading

end

end Ucore.CowFork
