import Ucore.Mm.CowCounts

/- The operations on address spaces one by one: only a shared page changes the excess. -/
namespace Ucore.CowFork
open Programs

/-- The accounts stay, up to the excess of some frames. -/
def Grows (s t : CowState) : Prop :=
  ∀ pool excess, Accounted pool excess s → ∃ larger, excess ≤ larger ∧ Accounted pool larger t

/-- The accounts stay. -/
def Exact (s t : CowState) : Prop := ∀ pool excess, Accounted pool excess s → Accounted pool excess t

instance : IsPreorder CowState Grows where
  refl _ _ excess accounted := ⟨excess, le_refl excess, accounted⟩
  trans s t u first second pool excess accounted := by
    obtain ⟨middle, grown, between⟩ := first pool excess accounted
    obtain ⟨larger, more, after⟩ := second pool middle between
    exact ⟨larger, grown.trans more, after⟩

instance : IsPreorder CowState Exact where
  refl _ _ _ accounted := accounted
  trans _ _ _ first second pool excess accounted := second pool excess (first pool excess accounted)

theorem same_exact {s t : CowState} (same : s.Same t) : Exact s t := fun _ _ => same_accounted same

theorem exact_grows {s t : CowState} (kept : Exact s t) : Grows s t :=
  fun pool excess accounted => ⟨excess, le_refl excess, kept pool excess accounted⟩

theorem keeps_grows {α : Type} {m : CowM α} (kept : Keeps Exact m) : Keeps Grows m :=
  fun s => meets_mono (kept s) (fun _ _ => exact_grows) fun _ _ => trivial

section
variable {pool : Finset Nat} {excess : Nat → Nat} {s t u : CowState} {mm la f page dst src : Nat}
  {perm : Perm} {pte pte' : Pte}

theorem set_set : ((s.setPte mm la pte).setPte mm la pte').pte = (s.setPte mm la pte').pte := by
  change Function.update (Function.update s.pte mm _) mm _ = Function.update s.pte mm _
  rw [Function.update_idem]
  congr 1
  change Function.update (Function.update s.pte mm (Function.update (s.pte mm) la pte) mm) la pte' = _
  rw [Function.update_self, Function.update_idem]

/-- The entry is a new one, and neither bytes nor VMAs change. -/
structure Entered (s u : CowState) (mm la : Nat) (pte : Pte) : Prop where
  pte : u.pte = (s.setPte mm la pte).pte
  data : u.data = s.data
  vmas : u.vmas = s.vmas

theorem entered_maps (entered : Entered s u mm la (pteCreate page perm)) : u.Maps (mm, la) page := by
  unfold CowState.Maps
  rw [entered.pte, set_self]
  exact ⟨rfl, rfl⟩

/- `page_insert` of a frame that only readers share. -/
theorem insert_run (mm la : Nat) (perm : Perm) (accounted : Accounted pool excess s) (used : page ∉ s.free)
    (writers : ∀ x, s.Maps x page → (s.pte x.1 x.2).perm.w = false ∧ perm.w = false) :
    ∃ u, pageInsert mm page la perm true s = .ok (0, u) ∧ Accounted pool excess u ∧
      Entered s u mm la (pteCreate page perm) := by
  have counted := inc_accounted accounted used
  unfold pageInsert pageRefInc load
  change ∃ u, (ite ((s.pte mm la).v = true) _ _ : CowM Int) (s.addRef page 1) = _ ∧ _
  by_cases valid : (s.pte mm la).v = true
  · rw [if_pos valid]
    change ∃ u, (ite ((s.pte mm la).page = page) _ _ : CowM Int) (s.addRef page 1) = _ ∧ _
    by_cases same : (s.pte mm la).page = page
    · rw [if_pos same]
      refine ⟨_, rfl, ?_, ⟨rfl, rfl, rfl⟩⟩
      have back : ∀ f, ((s.addRef page 1).addRef page (-1)).ref f = s.ref f := by
        intro f
        change Function.update (Function.update s.ref page (s.ref page + 1)) page
          (Function.update s.ref page (s.ref page + 1) page + -1) f = _
        rw [Function.update_idem, Function.update_self]
        by_cases here : f = page
        · rw [here, Function.update_self]
          omega
        · rw [Function.update_of_ne here]
      have reader : perm.w = false := (writers (mm, la) ⟨valid, same⟩).2
      have kept := set_perm_accounted mm la perm accounted fun write => by
        rw [reader] at write
        cases write
      have entry : pteCreate page perm = { s.pte mm la with perm } := by
        unfold pteCreate
        rw [← same, ← valid]
      apply same_accounted _ kept
      refine ⟨?_, funext back, rfl⟩
      change Function.update s.pte mm (Function.update (s.pte mm) la (pteCreate page perm)) = _
      rw [entry]
      rfl
    · rw [if_neg same]
      have removed : pageRemovePte mm la (s.addRef page 1) = .ok ((), (s.addRef page 1).drop mm la) :=
        remove_run valid
      have cleared : (((s.addRef page 1).drop mm la).pte mm la).v = false := by
        have entry : ((s.addRef page 1).drop mm la).pte mm la = noPte := set_self
        rw [entry]
        rfl
      have dropped : Accounted pool (more excess page) ((s.addRef page 1).drop mm la) :=
        drop_accounted counted valid
      refine ⟨_, run_bind removed, map_accounted dropped cleared ?_, ⟨set_set, rfl, rfl⟩⟩
      intro x maps
      obtain ⟨other, before⟩ := drop_maps.mp maps
      have entry : ((s.addRef page 1).drop mm la).pte x.1 x.2 = s.pte x.1 x.2 := set_other other
      rw [entry]
      exact writers x before
  · rw [if_neg valid]
    have invalid : ((s.addRef page 1).pte mm la).v = false := Bool.eq_false_of_not_eq_true valid
    exact ⟨_, rfl, map_accounted counted invalid writers, ⟨rfl, rfl, rfl⟩⟩

theorem insert_fail : pageInsert mm page la perm false s = .ok (-E_NO_MEM, s) := rfl

/- The permissions that sharing leaves to the parent, and those it gives to the child. -/
def Perm.shared (perm : Perm) : Perm := if perm.w then { perm with w := false, cow := true } else perm

def Perm.inherited (perm : Perm) : Perm :=
  if perm.w then { perm.user with w := false, cow := true } else perm.user

theorem shared_reads : perm.shared.w = false := by
  unfold Perm.shared
  split_ifs with write
  · rfl
  · exact Bool.eq_false_of_not_eq_true write

theorem inherited_reads : perm.inherited.w = false := by
  unfold Perm.inherited Perm.user
  split_ifs with write
  · rfl
  · exact Bool.eq_false_of_not_eq_true write

/- The parent before the page is counted for the child. -/
def CowState.protect (s : CowState) (src la : Nat) : CowState :=
  { s.setPte src la { s.pte src la with perm := (s.pte src la).perm.shared } with
    tables := s.tables.tail }

theorem share_none_run (invalid : (s.pte src la).v = false) : sharePage dst src la s = .ok (0, s) := by
  unfold sharePage load
  rw [run_bind (run_get_bind (f := fun s : CowState => pure (s.pte src la))), invalid]
  rfl

theorem share_fail_run (valid : (s.pte src la).v = true) (table : s.tables.head?.getD false = false) :
    sharePage dst src la s = .ok (-E_NO_MEM, { s with tables := s.tables.tail }) := by
  have answer : kmalloc s = .ok (false, { s with tables := s.tables.tail }) := by
    rw [← table]
    rfl
  unfold sharePage load
  rw [run_bind (run_get_bind (f := fun s : CowState => pure (s.pte src la))), valid]
  exact run_bind answer

theorem protect_accounted (src la : Nat) (accounted : Accounted pool excess s) : Accounted pool excess (s.protect src la) := by
  have kept := set_perm_accounted src la (s.pte src la).perm.shared accounted
    fun write => by
      rw [shared_reads] at write
      cases write
  apply same_accounted _ kept
  exact ⟨rfl, rfl, rfl⟩

/- Nobody who maps the shared frame writes it any more. -/
theorem protect_writers (accounted : Accounted pool excess s) (valid : (s.pte src la).v = true)
    {x : Nat × Nat} (maps : (s.protect src la).Maps x (s.pte src la).page) :
    ((s.protect src la).pte x.1 x.2).perm.w = false := by
  have here : (s.protect src la).pte src la = { s.pte src la with perm := (s.pte src la).perm.shared } :=
    set_self
  have first : (s.protect src la).Maps (src, la) (s.pte src la).page := by
    unfold CowState.Maps
    rw [here]
    exact ⟨valid, rfl⟩
  by_contra write
  have alone := (protect_accounted src la accounted).sole x (src, la) _ maps
    ((Bool.not_eq_false _).mp write) first
  subst x
  rw [here] at write
  exact write shared_reads

theorem share_run (dst : Nat) (accounted : Accounted pool excess s) (valid : (s.pte src la).v = true)
    (table : s.tables.head?.getD false = true) :
    ∃ u, sharePage dst src la s = .ok (0, u) ∧ Accounted pool (more excess (s.pte src la).page) u ∧
      Entered (s.protect src la) u dst la (pteCreate (s.pte src la).page (s.pte src la).perm.inherited) := by
  have protected_ := protect_accounted src la accounted
  have first : (s.protect src la).Maps (src, la) (s.pte src la).page := by
    unfold CowState.Maps CowState.protect
    change (((s.setPte src la _).pte src la).v = true) ∧ ((s.setPte src la _).pte src la).page = _
    rw [set_self]
    exact ⟨valid, rfl⟩
  have used := mapped_not_free protected_ first
  obtain ⟨u, inserted, after, entered⟩ := insert_run dst la
    (s.pte src la).perm.inherited (inc_accounted protected_ used) used
    fun x maps => ⟨protect_writers accounted valid maps, inherited_reads⟩
  refine ⟨u, ?_, after, ⟨entered.pte, entered.data, entered.vmas⟩⟩
  have answer : kmalloc s = .ok (true, { s with tables := s.tables.tail }) := by
    rw [← table]
    rfl
  unfold sharePage load
  have guard : ¬ (!(s.pte src la).v) = true := by
    rw [valid]
    decide
  rw [run_bind (run_get_bind (f := fun s : CowState => pure (s.pte src la))), if_neg guard]
  refine (run_bind answer).trans ?_
  by_cases write : (s.pte src la).perm.w = true
  · have shared : (s.pte src la).perm.shared = { (s.pte src la).perm with w := false, cow := true } :=
      if_pos write
    unfold CowState.protect at inserted
    rw [shared] at inserted
    have user : (s.pte src la).perm.user.w = true := write
    change (ite ((s.pte src la).perm.user.w = true) _ _ : CowM Int) _ = _
    have enough : ¬ (!true) = true := by decide
    rw [if_pos user]
    unfold store pageRefInc
    rw [run_modify_bind]
    change (modify (fun s : CowState => s.addRef _ 1) >>= _ : CowM Int) _ = _
    rw [run_modify_bind, if_neg enough]
    exact run_bind inserted
  · have shared : (s.pte src la).perm.shared = (s.pte src la).perm := if_neg write
    have same : s.setPte src la { s.pte src la with perm := (s.pte src la).perm } = s := by
      unfold CowState.setPte
      rw [Function.update_eq_self, Function.update_eq_self]
    unfold CowState.protect at inserted
    rw [shared, same] at inserted
    have user : ¬ (s.pte src la).perm.user.w = true := write
    change (ite ((s.pte src la).perm.user.w = true) _ _ : CowM Int) _ = _
    have enough : ¬ (!true) = true := by decide
    rw [if_neg user]
    unfold pageRefInc
    rw [run_modify_bind, if_neg enough]
    exact run_bind inserted

end

end Ucore.CowFork
