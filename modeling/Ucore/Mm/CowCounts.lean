import Ucore.Mm.CowFork

/- What every operation keeps: a frame that can be written is mapped once, and a frame is counted as
   often as it is mapped but for the excess that sharing leaves. -/
namespace Ucore.CowFork
open Programs

/-- The page of an address space is mapped to a frame. -/
def CowState.Maps (s : CowState) (x : Nat × Nat) (f : Nat) : Prop :=
  (s.pte x.1 x.2).v = true ∧ (s.pte x.1 x.2).page = f

def CowState.Unmapped (s : CowState) (f : Nat) : Prop := ∀ x, ¬ s.Maps x f

/-- The frames of `pool` came from the allocator and go back to it when their count drops to zero. -/
structure Accounted (pool : Finset Nat) (excess : Nat → Nat) (s : CowState) : Prop where
  sole : ∀ x y f, s.Maps x f → (s.pte x.1 x.2).perm.w = true → s.Maps y f → y = x
  counted : ∀ f, ∃ S : Finset (Nat × Nat), (∀ x, x ∈ S ↔ s.Maps x f) ∧ s.ref f = S.card + excess f
  free : ∀ f ∈ s.free, s.ref f = 0
  back : ∀ f ∈ pool, s.ref f = 0 → f ∈ s.free

/- The state but for the answers of the allocators, the VMAs and the bytes. -/
def CowState.Same (s t : CowState) : Prop := t.pte = s.pte ∧ t.ref = s.ref ∧ t.free = s.free

/- One more of a frame is counted than is mapped. -/
def more (excess : Nat → Nat) (f : Nat) : Nat → Nat := Function.update excess f (excess f + 1)

section
variable {pool : Finset Nat} {excess : Nat → Nat} {s t : CowState} {mm la f page : Nat} {perm : Perm}
  {pte : Pte}

theorem same_accounted (same : s.Same t) (accounted : Accounted pool excess s) :
    Accounted pool excess t := by
  obtain ⟨pte, ref, free⟩ := same
  obtain ⟨sole, counted, freed, back⟩ := accounted
  unfold CowState.Maps at sole counted
  rw [← pte] at sole counted
  rw [← ref] at counted freed back
  rw [← free] at freed back
  exact ⟨sole, counted, freed, back⟩

theorem ref_nonneg (accounted : Accounted pool excess s) (f : Nat) : 0 ≤ s.ref f := by
  obtain ⟨S, _, ref⟩ := accounted.counted f
  omega

theorem unmapped_of_zero (accounted : Accounted pool excess s) (zero : s.ref f = 0) : s.Unmapped f := by
  intro x maps
  obtain ⟨S, mem, ref⟩ := accounted.counted f
  have some_mapped : 0 < S.card := Finset.card_pos.mpr ⟨x, (mem x).mpr maps⟩
  omega

theorem ref_pos (accounted : Accounted pool excess s) {x : Nat × Nat} (maps : s.Maps x f) :
    s.ref f ≠ 0 := fun zero => unmapped_of_zero accounted zero x maps

theorem mapped_not_free (accounted : Accounted pool excess s) {x : Nat × Nat} (maps : s.Maps x f) :
    f ∉ s.free := fun mem => ref_pos accounted maps (accounted.free f mem)

/- Two mappings of a frame are counted. -/
theorem sole_of_one (accounted : Accounted pool excess s) (one : s.ref f ≤ 1) {x y : Nat × Nat}
    (first : s.Maps x f) (second : s.Maps y f) : y = x := by
  obtain ⟨S, mem, ref⟩ := accounted.counted f
  have few : S.card ≤ 1 := by omega
  exact Finset.card_le_one.mp few y ((mem y).mpr second) x ((mem x).mpr first)

theorem set_self : (s.setPte mm la pte).pte mm la = pte := by
  change Function.update s.pte mm _ mm la = pte
  rw [Function.update_self, Function.update_self]

theorem set_other {x : Nat × Nat} (other : x ≠ (mm, la)) :
    (s.setPte mm la pte).pte x.1 x.2 = s.pte x.1 x.2 := by
  change Function.update s.pte mm _ x.1 x.2 = _
  by_cases same : x.1 = mm
  · rw [same, Function.update_self, Function.update_of_ne]
    intro equal
    exact other (Prod.ext same equal)
  · rw [Function.update_of_ne same]

theorem set_maps_other {x : Nat × Nat} (other : x ≠ (mm, la)) :
    (s.setPte mm la pte).Maps x f ↔ s.Maps x f := by
  unfold CowState.Maps
  rw [set_other other]

theorem set_perm_maps {x : Nat × Nat} :
    (s.setPte mm la { s.pte mm la with perm }).Maps x f ↔ s.Maps x f := by
  by_cases here : x = (mm, la)
  · subst x
    unfold CowState.Maps
    rw [set_self]
  · exact set_maps_other here

/- An entry gets other permissions: no frame gains a mapping. -/
theorem set_perm_accounted (mm la : Nat) (perm : Perm) (accounted : Accounted pool excess s)
    (alone : perm.w = true → ∀ y, s.Maps y (s.pte mm la).page → y = (mm, la)) :
    Accounted pool excess (s.setPte mm la { s.pte mm la with perm }) := by
  constructor
  · intro x y f first write second
    rw [set_perm_maps] at first second
    by_cases here : x = (mm, la)
    · subst x
      rw [set_self] at write
      apply alone write y
      rw [first.2]
      exact second
    · rw [set_other here] at write
      exact accounted.sole x y f first write second
  · intro f
    obtain ⟨S, mem, ref⟩ := accounted.counted f
    exact ⟨S, fun x => (mem x).trans set_perm_maps.symm, ref⟩
  · exact accounted.free
  · exact accounted.back

/- What `page_remove_pte` leaves. -/
def CowState.drop (s : CowState) (mm la : Nat) : CowState :=
  { (s.addRef (s.pte mm la).page (-1)).setPte mm la noPte with
    free := if s.ref (s.pte mm la).page - 1 = 0 then insert (s.pte mm la).page s.free else s.free }

theorem remove_none_run (invalid : (s.pte mm la).v = false) : pageRemovePte mm la s = .ok ((), s) := by
  unfold pageRemovePte load
  rw [run_bind (run_get_bind (f := fun s : CowState => pure (s.pte mm la))), invalid]
  rfl

theorem remove_run (valid : (s.pte mm la).v = true) : pageRemovePte mm la s = .ok ((), s.drop mm la) := by
  have ref : (s.addRef (s.pte mm la).page (-1)).ref (s.pte mm la).page = s.ref (s.pte mm la).page - 1 :=
    Function.update_self ..
  unfold pageRemovePte load
  rw [run_bind (run_get_bind (f := fun s : CowState => pure (s.pte mm la))), if_pos valid]
  unfold pageRefDec pageRef CowState.drop
  change (ite ((s.addRef (s.pte mm la).page (-1)).ref (s.pte mm la).page = 0) _ _ : CowM Unit) _ = _
  rw [ref]
  by_cases zero : s.ref (s.pte mm la).page - 1 = 0
  · rw [if_pos zero, if_pos zero]
    rfl
  · rw [if_neg zero, if_neg zero]
    rfl

theorem drop_maps {x : Nat × Nat} : (s.drop mm la).Maps x f ↔ x ≠ (mm, la) ∧ s.Maps x f := by
  change (s.setPte mm la noPte).Maps x f ↔ _
  by_cases same : x = (mm, la)
  · subst x
    unfold CowState.Maps
    rw [set_self]
    simp [noPte]
  · rw [set_maps_other same]
    simp [same]

theorem drop_ref_self : (s.drop mm la).ref (s.pte mm la).page = s.ref (s.pte mm la).page - 1 :=
  Function.update_self ..

theorem drop_ref_other (other : f ≠ (s.pte mm la).page) : (s.drop mm la).ref f = s.ref f :=
  Function.update_of_ne other ..

theorem drop_free : f ∈ (s.drop mm la).free ↔
    f ∈ s.free ∨ (f = (s.pte mm la).page ∧ s.ref (s.pte mm la).page = 1) := by
  change f ∈ (if s.ref (s.pte mm la).page - 1 = 0 then insert (s.pte mm la).page s.free else s.free) ↔ _
  split_ifs with zero
  · rw [Finset.mem_insert]
    constructor
    · rintro (here | old)
      · exact .inr ⟨here, by omega⟩
      · exact .inl old
    · rintro (old | ⟨here, _⟩)
      · exact .inr old
      · exact .inl here
  · constructor
    · exact .inl
    · rintro (old | ⟨_, one⟩)
      · exact old
      · omega

theorem drop_accounted (accounted : Accounted pool excess s) (valid : (s.pte mm la).v = true) :
    Accounted pool excess (s.drop mm la) := by
  have maps : s.Maps (mm, la) (s.pte mm la).page := ⟨valid, rfl⟩
  constructor
  · intro x y f first write second
    obtain ⟨other, first⟩ := drop_maps.mp first
    have entry : (s.drop mm la).pte x.1 x.2 = s.pte x.1 x.2 := set_other other
    rw [entry] at write
    exact accounted.sole x y f first write (drop_maps.mp second).2
  · intro f
    obtain ⟨S, mem, ref⟩ := accounted.counted f
    refine ⟨S.erase (mm, la), fun x => ?_, ?_⟩
    · rw [Finset.mem_erase, mem, drop_maps]
    · by_cases same : f = (s.pte mm la).page
      · subst f
        have inside : (mm, la) ∈ S := (mem (mm, la)).mpr maps
        have card := Finset.card_erase_add_one inside
        rw [drop_ref_self]
        omega
      · have outside : (mm, la) ∉ S := fun inside => same ((mem (mm, la)).mp inside).2.symm
        rw [drop_ref_other same, Finset.erase_eq_of_notMem outside]
        exact ref
  · intro f freed
    rcases drop_free.mp freed with old | ⟨rfl, one⟩
    · have other : f ≠ (s.pte mm la).page := by
        rintro rfl
        exact mapped_not_free accounted maps old
      rw [drop_ref_other other]
      exact accounted.free f old
    · rw [drop_ref_self, one]
      rfl
  · intro f mem zero
    apply drop_free.mpr
    by_cases same : f = (s.pte mm la).page
    · subst f
      rw [drop_ref_self] at zero
      exact .inr ⟨rfl, by omega⟩
    · rw [drop_ref_other same] at zero
      exact .inl (accounted.back f mem zero)

theorem inc_accounted (accounted : Accounted pool excess s) (used : page ∉ s.free) :
    Accounted pool (more excess page) (s.addRef page 1) := by
  have self : (s.addRef page 1).ref page = s.ref page + 1 := Function.update_self ..
  have others : ∀ f, f ≠ page → (s.addRef page 1).ref f = s.ref f :=
    fun f other => Function.update_of_ne other ..
  constructor
  · exact accounted.sole
  · intro f
    obtain ⟨S, mem, ref⟩ := accounted.counted f
    refine ⟨S, mem, ?_⟩
    unfold more
    by_cases same : f = page
    · subst f
      rw [self, Function.update_self, ref]
      push_cast
      omega
    · rw [others f same, Function.update_of_ne same]
      exact ref
  · intro f mem
    have other : f ≠ page := by
      rintro rfl
      exact used mem
    rw [others f other]
    exact accounted.free f mem
  · intro f mem zero
    by_cases same : f = page
    · subst f
      have before := ref_nonneg accounted page
      omega
    · rw [others f same] at zero
      exact accounted.back f mem zero

/- A frame is mapped that has been counted for it. -/
theorem map_accounted (accounted : Accounted pool (more excess page) s) (invalid : (s.pte mm la).v = false)
    (writers : ∀ x, s.Maps x page → (s.pte x.1 x.2).perm.w = false ∧ perm.w = false) :
    Accounted pool excess (s.setPte mm la (pteCreate page perm)) := by
  have others : ∀ x f, x ≠ (mm, la) → ((s.setPte mm la (pteCreate page perm)).Maps x f ↔ s.Maps x f) :=
    fun x f other => set_maps_other other
  have here : ∀ f, (s.setPte mm la (pteCreate page perm)).Maps (mm, la) f ↔ page = f := by
    intro f
    unfold CowState.Maps
    rw [set_self]
    exact and_iff_right rfl
  have unmapped : ∀ f, ¬ s.Maps (mm, la) f := by
    rintro f ⟨valid, _⟩
    rw [invalid] at valid
    cases valid
  constructor
  · intro x y f first write second
    by_cases new : x = (mm, la)
    · subst x
      obtain rfl := (here f).mp first
      by_cases also : y = (mm, la)
      · exact also
      · rw [set_self] at write
        have blocked := (writers y ((others y page also).mp second)).2
        have given : perm.w = true := write
        rw [blocked] at given
        cases given
    · have old := (others x f new).mp first
      rw [set_other new] at write
      by_cases also : y = (mm, la)
      · subst y
        obtain rfl := (here f).mp second
        rw [(writers x old).1] at write
        cases write
      · exact accounted.sole x y f old write ((others y f also).mp second)
  · intro f
    obtain ⟨S, mem, ref⟩ := accounted.counted f
    have outside : (mm, la) ∉ S := fun inside => unmapped f ((mem _).mp inside)
    unfold more at ref
    by_cases same : f = page
    · subst f
      rw [Function.update_self] at ref
      refine ⟨insert (mm, la) S, fun x => ?_, ?_⟩
      · rw [Finset.mem_insert, mem]
        by_cases new : x = (mm, la)
        · subst x
          rw [here]
          simp
        · rw [others x page new]
          simp [new]
      · rw [Finset.card_insert_of_notMem outside]
        change s.ref page = _
        push_cast at ref ⊢
        omega
    · rw [Function.update_of_ne same] at ref
      refine ⟨S, fun x => ?_, ref⟩
      rw [mem]
      by_cases new : x = (mm, la)
      · subst x
        rw [here]
        exact iff_of_false (unmapped f) (Ne.symm same)
      · rw [others x f new]
  · exact accounted.free
  · exact accounted.back

end

end Ucore.CowFork
