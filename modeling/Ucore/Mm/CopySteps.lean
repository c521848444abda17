import Ucore.Mm.CopyRange
import Ucore.Mm.ExitRangeRuns

/- What one page of `copy_range`, `unmap_range` and `pgdir_alloc_page` does to the tables, the counts and
   the frames. -/
namespace Ucore.PageTable
open Programs

/-- The creation of tables leaves the frames that are in use as they are, and returns none. -/
structure Calm (s : PmmState) (place : Nat → Option Place) (u : PmmState) (place' : Nat → Option Place)
    (dirs : Finset Nat) : Prop extends Grown s place u place' dirs where
  frames : ∀ f, place f = none → f ∉ s.free → u.mem f = s.mem f
  returned : u.returned = s.returned

section
variable {s u c : PmmState} {dirs : Finset Nat} {place place' : Nat → Option Place}
  {r la t i k p pt page perm dst src start : Nat} {ret : Option Nat} {create : Bool}

/- One level of `get_pte` writes to the table that it is given and to the one that it makes. -/
theorem get_table_frame (bounded : ∀ p ∈ s.free, p < s.npage) (here : t ∉ s.free)
    (ran : getTable t i create s = .ok (ret, u)) :
    u.returned = s.returned ∧ ∀ z, z ∉ s.free → z ≠ t → u.mem z = s.mem z := by
  by_cases valid : Valid (s.mem t i)
  · by_cases low : ptePage (s.mem t i) < s.npage
    · cases ran.symm.trans (get_table_valid valid low)
      exact ⟨rfl, fun _ _ _ => rfl⟩
    · unfold getTable at ran
      rw [run_bind load_run, if_neg (not_not_intro valid)] at ran
      have stopped : kaddr (ptePage (s.mem t i)) s = .error .panic := by
        unfold kaddr
        rw [run_get_bind, run_check_stop low]
      change (load t i >>= _) s = _ at ran
      rw [run_bind load_run, run_bind_stop stopped] at ran
      cases ran
  · cases create with
    | false =>
      cases ran.symm.trans (get_table_absent valid)
      exact ⟨rfl, fun _ _ _ => rfl⟩
    | true =>
      by_cases answer : ∃ p, s.answers.head? = some (some p) ∧ p ∈ s.free
      · obtain ⟨p, answer, free⟩ := answer
        have apart : p ≠ t := by
          rintro rfl
          exact here free
        cases ran.symm.trans (get_table_links valid answer free (bounded p free) apart)
        refine ⟨rfl, fun z used other => ?_⟩
        have differs : z ≠ p := by
          rintro rfl
          exact used free
        rw [link_mem, Function.update_of_ne other, Function.update_of_ne differs]
      · have none_there : ∀ p, s.answers.head? = some (some p) → p ∉ s.free :=
          fun p head free => answer ⟨p, head, free⟩
        cases ran.symm.trans (get_table_fails valid none_there)
        exact ⟨rfl, fun _ _ _ => rfl⟩

theorem get_pte_calm (create : Bool) (placed : Placed s dirs place) (dir : r ∈ dirs) (user : la < USERTOP) :
    ∃ ret u place', getPte r la create s = .ok (ret, u) ∧ Calm s place u place' dirs ∧
      ret = (u.leafTable r la).map (fun pt => (pt, PTX la)) ∧ (create = false → u = s) := by
  obtain ⟨ret, u, place', ran, grown, found, _, asked⟩ := get_pte_grows create placed dir user
  suffices whole : (∀ f, place f = none → f ∉ s.free → u.mem f = s.mem f) ∧ u.returned = s.returned from
    ⟨ret, u, place', ran, ⟨grown, whole.1, whole.2⟩, found, asked⟩
  obtain ⟨one, v, place₁, ran₁, grown₁, _, entry, _⟩ :=
    get_table_grows create placed (placed.top r dir) (top_child (user_dir user))
  obtain ⟨returned₁, frames₁⟩ := get_table_frame placed.range (placed.used r _ (placed.top r dir)).1 ran₁
  have notRoot : ∀ f, place f = none → f ≠ r := by
    rintro f none_there rfl
    rw [placed.top f dir] at none_there
    cases none_there
  unfold getPte at ran
  rw [run_bind ran₁] at ran
  cases one with
  | none =>
    cases ran
    exact ⟨fun f none_there used => frames₁ f used (notRoot f none_there), returned₁⟩
  | some pd0 =>
    have middle := table_place grown₁.placed (grown₁.placed.top r dir) (top_child (user_dir user)) entry
    obtain ⟨two, w, _, ran₂, _⟩ :=
      get_table_grows create grown₁.placed middle (mid_child (j := PDX0 la) pdx0_lt)
    obtain ⟨returned₂, frames₂⟩ := get_table_frame grown₁.placed.range (grown₁.placed.used pd0 _ middle).1 ran₂
    dsimp only at ran
    rw [run_bind ran₂] at ran
    have whole : (∀ f, place f = none → f ∉ s.free → w.mem f = s.mem f) ∧ w.returned = s.returned := by
      refine ⟨fun f none_there used => ?_, returned₂.trans returned₁⟩
      have apart : f ≠ pd0 := by
        rintro rfl
        have later := (grown₁.new f none_there).resolve_right used
        rw [middle] at later
        cases later
      rw [frames₂ f (fun free => used (grown₁.fewer free)) apart, frames₁ f used (notRoot f none_there)]
    cases two with
    | none =>
      cases ran
      exact whole
    | some pt =>
      cases ran
      exact whole

/- The words of a page that is no table say nothing about the addresses. -/
theorem translate_same (placed : Placed s dirs place) (tables : ∀ t, place t ≠ none → u.mem t = s.mem t)
    (dir : r ∈ dirs) (user : la < USERTOP) : u.leafTable r la = s.leafTable r la ∧
      u.translate r la = s.translate r la := by
  have there : ∀ {t x}, place t = some x → u.mem t = s.mem t := by
    intro t x here
    apply tables
    rw [here]
    exact Option.some_ne_none x
  have root : u.tableOf r (PDX1 la) = s.tableOf r (PDX1 la) := by
    unfold PmmState.tableOf
    rw [there (placed.top r dir)]
  have leaf : u.leafTable r la = s.leafTable r la := by
    unfold PmmState.leafTable
    rw [root]
    cases first : s.tableOf r (PDX1 la) with
    | none => rfl
    | some pd0 =>
      have middle := table_place placed (placed.top r dir) (top_child (user_dir user)) first
      unfold PmmState.tableOf
      rw [Option.bind_some, Option.bind_some, there middle]
  refine ⟨leaf, ?_⟩
  cases table : s.leafTable r la with
  | none =>
    rw [translate_none table, translate_none (leaf.trans table)]
  | some pt =>
    rw [translate_entry table, translate_entry (leaf.trans table), there (leaf_place placed dir user table)]

theorem uses_same (same : ∀ r ∈ dirs, ∀ la < USERTOP, u.translate r la = s.translate r la) (f : Nat) :
    u.uses dirs f = s.uses dirs f := by
  unfold PmmState.uses
  congr 1
  apply Finset.filter_congr
  rintro ⟨r, v⟩ inside
  obtain ⟨dir, low⟩ := Finset.mem_product.mp inside
  unfold PmmState.frameAt
  rw [same r dir _ (user_of_page (Finset.mem_range.mp low))]

/- Neither do the frames that the allocator has given away. -/
theorem same_tables_ok (ok : TablesOk s dirs place) (tables : ∀ t, place t ≠ none → u.mem t = s.mem t)
    (fewer : u.free ⊆ s.free) (ref : u.ref = s.ref) (npage : u.npage = s.npage) :
    TablesOk u dirs place ∧ ∀ r ∈ dirs, ∀ la < USERTOP, u.translate r la = s.translate r la := by
  have placed := ok.placed
  have known : ∀ {t x}, place t = some x → u.mem t = s.mem t := by
    intro t x here
    apply tables
    rw [here]
    exact Option.some_ne_none x
  have same : ∀ r ∈ dirs, ∀ la < USERTOP, u.translate r la = s.translate r la :=
    fun r dir la user => (translate_same placed tables dir user).2
  refine ⟨⟨⟨placed.top, ?_, ?_, ?_, ?_, ?_⟩, ?_⟩, same⟩
  · intro t x i y here child valid
    rw [known here] at valid ⊢
    exact placed.step t x i y here child valid
  · intro t r i j here k low valid
    rw [known here] at valid ⊢
    obtain ⟨data, used, bounded⟩ := placed.data t r i j here k low valid
    rw [npage]
    exact ⟨data, fun free => used (fewer free), bounded⟩
  · intro t y here
    rcases placed.found t y here with top | ⟨t', x, i, above, child, valid, leads⟩
    · exact .inl top
    · refine .inr ⟨t', x, i, above, child, ?_, ?_⟩
      · rw [known above]
        exact valid
      · rw [known above]
        exact leads
  · intro t x here
    obtain ⟨used, bounded⟩ := placed.used t x here
    rw [npage]
    exact ⟨fun free => used (fewer free), bounded⟩
  · intro q free
    rw [npage]
    exact placed.range q (fewer free)
  · intro f data
    rw [ref, uses_same same]
    exact ok.counted f data

/- A page that the allocator gave away, filled with words. -/
def PmmState.taken (s : PmmState) (p : Nat) (words : Nat → Nat) : PmmState :=
  { s with
    answers := s.answers.tail
    free := s.free.erase p
    mem := Function.update s.mem p words }

theorem taken_ok (words : Nat → Nat) (ok : TablesOk s dirs place) (free : p ∈ s.free) :
    TablesOk (s.taken p words) dirs place ∧
    ∀ r ∈ dirs, ∀ la < USERTOP, (s.taken p words).translate r la = s.translate r la := by
  have none_there := free_not_placed ok.placed free
  refine same_tables_ok ok (fun t there => ?_) (Finset.erase_subset p s.free) rfl rfl
  apply Function.update_of_ne
  rintro rfl
  exact there none_there

/-- A frame that is in use is handed back when its last mapping goes, and then once. -/
def HandedBack (s u : PmmState) (dirs : Finset Nat) : Prop :=
  ∀ f, f ∉ s.free → u.returned.count f = s.returned.count f +
    if 0 < s.uses dirs f ∧ u.uses dirs f = 0 then 1 else 0

theorem handed_same (same : ∀ r ∈ dirs, ∀ la < USERTOP, u.translate r la = s.translate r la)
    (returned : u.returned = s.returned) : HandedBack s u dirs := by
  intro f _
  rw [returned, uses_same same, if_neg fun both => Nat.ne_of_gt both.1 both.2, Nat.add_zero]

theorem handed_trans (same : ∀ r ∈ dirs, ∀ la < USERTOP, u.translate r la = s.translate r la)
    (returned : u.returned = s.returned) (fewer : u.free ⊆ s.free) (rest : HandedBack u c dirs) :
    HandedBack s c dirs := by
  intro f used
  rw [rest f fun free => used (fewer free), returned, uses_same same]

/- The frame of a user page is in use. -/
theorem used_data {f : Nat} (ok : TablesOk s dirs place) (some_use : 0 < s.uses dirs f) :
    place f = none ∧ f ∉ s.free := by
  obtain ⟨⟨r, v⟩, mem⟩ := Finset.card_pos.mp some_use
  obtain ⟨inside, here⟩ := Finset.mem_filter.mp mem
  obtain ⟨dir, low⟩ := Finset.mem_product.mp inside
  apply mapped_frame (r := r) (v := v) ok
  unfold PmmState.pageMap
  rw [if_pos ⟨dir, Finset.mem_range.mp low⟩]
  exact here

theorem put_handed (ok : TablesOk s dirs place) (dir : r ∈ dirs) (user : la < USERTOP)
    (leads : s.leafTable r la = some pt) (small : perm < 1024) :
    HandedBack s (s.put pt (PTX la) page perm) dirs := by
  intro f _
  have flags : PTE_V ||| perm < 1024 := Nat.or_lt_two_pow (n := 10) (by decide) small
  have mem : (s.put pt (PTX la) page perm).mem = (s.store pt (PTX la) (pteCreate page (PTE_V ||| perm))).mem := rfl
  have uses := store_uses ok.placed dir user leads mem f
  have entry : (entryMap (pteCreate page (PTE_V ||| perm))).map Prod.fst = some page := by
    unfold entryMap
    rw [if_pos create_valid, page_create flags]
    rfl
  rw [entry] at uses
  have frame := frame_at_page s r la
  rw [translate_entry leads] at frame
  unfold entryMap at frame
  have here := leaf_place ok.placed dir user leads
  by_cases valid : Valid (s.mem pt (PTX la))
  · rw [if_pos valid] at frame
    change _ = some (ptePage (s.mem pt (PTX la))) at frame
    rw [frame] at uses
    have data := (ok.placed.data pt _ _ _ here _ ptx_lt valid).1
    have counted := ok.counted _ data
    by_cases last : ptePage (s.mem pt (PTX la)) ≠ page ∧ s.ref (ptePage (s.mem pt (PTX la))) - 1 = 0
    · have returned : (s.put pt (PTX la) page perm).returned = ptePage (s.mem pt (PTX la)) :: s.returned :=
        if_pos ⟨valid, last⟩
      rw [returned]
      by_cases old : ptePage (s.mem pt (PTX la)) = f
      · subst f
        rw [if_pos rfl, if_neg fun same => last.1 (Option.some.inj same).symm] at uses
        rw [List.count_cons_self, if_pos ⟨by omega, by omega⟩]
      · rw [if_neg fun same => old (Option.some.inj same)] at uses
        rw [List.count_cons_of_ne old, if_neg (by omega), Nat.add_zero]
    · have returned : (s.put pt (PTX la) page perm).returned = s.returned := if_neg fun all => last all.2
      rw [returned, if_neg, Nat.add_zero]
      rintro ⟨some_use, none_left⟩
      by_cases old : ptePage (s.mem pt (PTX la)) = f
      · subst f
        rw [if_pos rfl] at uses
        have other : ptePage (s.mem pt (PTX la)) ≠ page := by
          intro same
          rw [if_pos (congrArg some same.symm)] at uses
          omega
        rw [if_neg fun same => other (Option.some.inj same).symm] at uses
        exact last ⟨other, by omega⟩
      · rw [if_neg fun same => old (Option.some.inj same)] at uses
        omega
  · rw [if_neg valid] at frame
    change _ = none at frame
    rw [frame, if_neg nofun] at uses
    have returned : (s.put pt (PTX la) page perm).returned = s.returned := if_neg fun all => valid all.1
    rw [returned, if_neg (by omega), Nat.add_zero]

theorem calm_ok (ok : TablesOk s dirs place) (calm : Calm s place u place' dirs) : TablesOk u dirs place' :=
  grown_ok ok calm.toGrown

theorem calm_data (calm : Calm s place u place' dirs) {f : Nat} (data : place f = none) (used : f ∉ s.free) :
    place' f = none ∧ f ∉ u.free ∧ u.mem f = s.mem f ∧ u.ref f = s.ref f := by
  have later := (calm.new f data).resolve_right used
  exact ⟨later, fun free => used (calm.fewer free), calm.frames f data used, calm.ref f later⟩

/- `page_insert` fails for want of a table, or puts the page into the entry. -/
theorem insert_ends (ok : TablesOk s dirs place) (dir : r ∈ dirs) (user : la < USERTOP) (small : perm < 1024)
    (bounded : page < s.npage) (used : page ∉ s.free) (data : place page = none) :
    ∃ ret u place', pageInsert r page la perm s = .ok (ret, u) ∧ TablesOk u dirs place' ∧ HandedBack s u dirs ∧
      ((ret ≠ 0 ∧ Calm s place u place' dirs) ∨
        (ret = 0 ∧ ∃ m pt, Calm s place m place' dirs ∧ m.leafTable r la = some pt ∧
          u = m.put pt (PTX la) page perm)) := by
  obtain ⟨ret, m, place', ran, calm, found, _⟩ := get_pte_calm true ok.placed dir user
  have ok' := calm_ok ok calm
  cases table : m.leafTable r la with
  | none =>
    rw [table] at found
    cases found
    have ended : pageInsert r page la perm s = .ok (-E_NO_MEM, m) := by
      unfold pageInsert
      rw [run_bind ran]
      rfl
    exact ⟨_, m, place', ended, ok', handed_same calm.same calm.returned, .inl ⟨by decide, calm⟩⟩
  | some pt =>
    rw [table] at found
    cases found
    have here := leaf_place ok'.placed dir user table
    have ended := insert_run page perm ran fun valid => (ok'.placed.data pt _ _ _ here _ ptx_lt valid).2.2
    obtain ⟨data', used', _, _⟩ := calm_data calm data used
    have low : page < m.npage := by
      rw [calm.npage]
      exact bounded
    refine ⟨0, _, place', ended, put_ok ok' dir user table small data' used' low, ?_,
      .inr ⟨rfl, m, pt, calm, table, rfl⟩⟩
    exact handed_trans calm.same calm.returned calm.fewer (put_handed ok' dir user table small)

theorem unmapping_handed (ok : TablesOk s dirs place) (unmapping : Unmapping s u dirs place) :
    HandedBack s u dirs := by
  intro f _
  rw [unmapping.returned f]
  congr 1
  by_cases gone : 0 < s.uses dirs f ∧ u.uses dirs f = 0
  · rw [if_pos gone, if_pos ⟨(used_data ok gone.1).1, gone⟩]
  · rw [if_neg gone, if_neg fun all => gone all.2]

theorem unmap_turn_ends (ok : TablesOk s dirs place) (dir : r ∈ dirs) (user : start < USERTOP)
    (aligned : start % PGSIZE = 0) :
    ∃ next u, unmapTurn r start s = .ok (next, u) ∧ TablesOk u dirs place ∧ HandedBack s u dirs ∧
      next % PGSIZE = 0 := by
  obtain ⟨next, u, ran, unmapping, aligned', _⟩ := unmap_turn_run (unmapping_refl ok) dir user aligned
  exact ⟨next, u, ran, unmapping.ok, unmapping_handed ok unmapping, aligned'⟩

theorem remove_ends (ok : TablesOk s dirs place) (dir : r ∈ dirs) (user : la < USERTOP) :
    ∃ u, pageRemove r la s = .ok ((), u) ∧ TablesOk u dirs place ∧ HandedBack s u dirs := by
  obtain ⟨ret, m, _, ran, _, found, asked⟩ := get_pte_calm false ok.placed dir user
  cases asked rfl
  unfold pageRemove
  rw [run_bind ran]
  cases table : s.leafTable r la with
  | none =>
    rw [table] at found
    cases found
    exact ⟨s, rfl, ok, handed_same (fun _ _ _ _ => rfl) rfl⟩
  | some pt =>
    rw [table] at found
    cases found
    have here := leaf_place ok.placed dir user table
    by_cases valid : Valid (s.mem pt (PTX la))
    · have bounded := (ok.placed.data pt _ _ _ here _ ptx_lt valid).2.2
      have unmapping := unmapping_drop (unmapping_refl ok) dir user table valid
      exact ⟨_, remove_pte_valid valid bounded, unmapping.ok, unmapping_handed ok unmapping⟩
    · exact ⟨s, remove_pte_invalid valid, ok, handed_same (fun _ _ _ _ => rfl) rfl⟩

/- `alloc_page` gives a page that is not in use, or none. -/
theorem alloc_ends (ok : TablesOk s dirs place) : ∃ ret u, allocPage s = .ok (ret, u) ∧
    ((ret = none ∧ u = { s with answers := s.answers.tail }) ∨
      ∃ p ∈ s.free, ret = some p ∧ u = s.taken p (s.mem p) ∧ place p = none ∧ p < s.npage) := by
  by_cases answer : ∃ p, s.answers.head? = some (some p) ∧ p ∈ s.free
  · obtain ⟨p, answer, free⟩ := answer
    refine ⟨_, _, alloc_run answer free, .inr ⟨p, free, rfl, ?_, free_not_placed ok.placed free,
      ok.placed.range p free⟩⟩
    unfold PmmState.taken
    rw [Function.update_eq_self]
  · have none_there : ∀ p, s.answers.head? = some (some p) → p ∉ s.free :=
      fun p head free => answer ⟨p, head, free⟩
    exact ⟨_, _, alloc_none_run none_there, .inl ⟨rfl, rfl⟩⟩

theorem taken_same (words : Nat → Nat) (free : p ∈ s.free) :
    p ∉ (s.taken p words).free ∧ (s.taken p words).free ⊆ s.free ∧
    (∀ f ∉ s.free, (s.taken p words).mem f = s.mem f) := by
  refine ⟨Finset.notMem_erase p _, Finset.erase_subset p _, fun f used => ?_⟩
  apply Function.update_of_ne
  rintro rfl
  exact used free

/- No page is mapped to a free frame. -/
theorem free_unused (ok : TablesOk s dirs place) (free : p ∈ s.free) : s.uses dirs p = 0 := by
  by_contra some_use
  exact (used_data ok (Nat.pos_of_ne_zero some_use)).2 free

/- `pgdir_alloc_page` maps a free page, and gives it back where it can not be mapped. -/
theorem pgdir_alloc_ends (ok : TablesOk s dirs place) (dir : r ∈ dirs) (user : la < USERTOP) (small : perm < 1024) :
    ∃ ret u place', pgdirAllocPage r la perm s = .ok (ret, u) ∧ TablesOk u dirs place' ∧ HandedBack s u dirs := by
  obtain ⟨ret, m, ran, answer⟩ := alloc_ends ok
  unfold pgdirAllocPage
  rw [run_bind ran]
  rcases answer with ⟨rfl, rfl⟩ | ⟨p, free, rfl, rfl, data, bounded⟩
  · exact ⟨none, _, place, rfl, ok_answers _ ok, handed_same (fun _ _ _ _ => rfl) rfl⟩
  · obtain ⟨ok', same⟩ := taken_ok (s.mem p) ok free
    obtain ⟨outside, fewer, _⟩ := taken_same (s.mem p) free
    obtain ⟨ret, u, place', inserted, okU, handed, result⟩ := insert_ends ok' dir user small bounded outside data
    have back : HandedBack s u dirs := handed_trans same rfl fewer handed
    dsimp only
    rw [run_bind inserted]
    rcases result with ⟨fails, calm⟩ | ⟨rfl, m, pt, calm, table, rfl⟩
    · rw [if_pos fails]
      have data' := (calm_data calm data outside).1
      have unused : u.uses dirs p = 0 := by
        rw [uses_same calm.same, uses_same same, free_unused ok free]
      refine ⟨none, _, place', rfl, ⟨{ okU.placed with data := ?_, used := ?_, range := ?_ }, okU.counted⟩, ?_⟩
      · intro t r i j here k low valid
        obtain ⟨none_there, used, low'⟩ := okU.placed.data t r i j here k low valid
        refine ⟨none_there, fun mem => ?_, low'⟩
        rcases Finset.mem_insert.mp mem with same_page | before
        · obtain ⟨dir', low_i, low_j, leads⟩ := leaf_found okU.placed here
          obtain ⟨la', user', one, two, last⟩ := user_address low_i low_j low
          have frame : u.frameAt (r, PPN la') = some p := by
            rw [frame_at_page, translate_entry (leads la' one two), last]
            unfold entryMap
            rw [if_pos valid, ← same_page]
            rfl
          have counted : 0 < u.uses dirs p := frame_used (user_page dir' user') frame
          omega
        · exact used before
      · intro t x here
        obtain ⟨used, low⟩ := okU.placed.used t x here
        refine ⟨fun mem => ?_, low⟩
        rcases Finset.mem_insert.mp mem with rfl | before
        · rw [data'] at here
          cases here
        · exact used before
      · intro q mem
        rcases Finset.mem_insert.mp mem with rfl | before
        · rw [calm.npage]
          exact bounded
        · exact okU.placed.range q before
      · intro f used
        have other : p ≠ f := by
          rintro rfl
          exact used free
        refine Eq.trans ?_ (back f used)
        exact List.count_cons_of_ne other
    · have zero : (s.taken p (s.mem p)).ref p = 0 := by
        rw [ok'.counted p data, uses_same same, free_unused ok free]
        rfl
      have okM := calm_ok ok' calm
      have here := leaf_place okM.placed dir user table
      have fresh : ¬ (Valid (m.mem pt (PTX la)) ∧ ptePage (m.mem pt (PTX la)) = p) := by
        rintro ⟨valid, leads⟩
        have frame : m.frameAt (r, PPN la) = some p := by
          rw [frame_at_page, translate_entry table]
          unfold entryMap
          rw [if_pos valid, leads]
          rfl
        have counted : 0 < m.uses dirs p := frame_used (user_page dir user) frame
        rw [uses_same calm.same, uses_same same, free_unused ok free] at counted
        exact Nat.lt_irrefl _ counted
      have once : (m.put pt (PTX la) p perm).ref p = 1 := by
        change m.ref p + (if p = p then 1 else 0) - (if Valid (m.mem pt (PTX la)) ∧ ptePage (m.mem pt (PTX la)) = p
          then 1 else 0) = 1
        rw [if_pos rfl, if_neg fresh, (calm_data calm data outside).2.2.2, zero]
        rfl
      rw [if_neg (not_not_intro rfl), run_get_bind, run_check_bind once]
      exact ⟨some p, _, place', rfl, okU, back⟩

/-- A page has been copied: its frame to one that was free, which is mapped with the same user
permissions, and nothing else has changed. -/
def PageCopied (c u : PmmState) (place : Nat → Option Place) (dirs : Finset Nat) (dst src start : Nat) : Prop :=
  ∃ f flags g, c.translate src start = some (f, flags) ∧ g ∈ c.free ∧ u.mem g = c.mem f ∧
    (∀ r ∈ dirs, ∀ la < USERTOP, u.translate r la =
      if r = dst ∧ PPN la = PPN start then some (g, PTE_V ||| (flags &&& PTE_USER)) else c.translate r la) ∧
    ∀ z, place z = none → z ∉ c.free → u.mem z = c.mem z ∧
      (c.translate dst start = none → u.ref z = c.ref z ∧ z ∉ u.free)

theorem user_flags {pte : Nat} : pte &&& PTE_USER = pte % 1024 &&& PTE_USER := by
  rw [show PTE_USER = 2 ^ 5 - 1 from rfl, Nat.and_two_pow_sub_one_eq_mod, Nat.and_two_pow_sub_one_eq_mod]
  omega

theorem user_flags_small {pte : Nat} : pte &&& PTE_USER < 1024 :=
  Nat.lt_of_le_of_lt Nat.and_le_right (by decide)

/- The entry that leads to a page is found where it was when tables have been made. -/
theorem calm_entry (ok : TablesOk s dirs place) (calm : Calm s place u place' dirs) (dir : r ∈ dirs)
    (user : la < USERTOP) (leads : s.leafTable r la = some pt) (valid : Valid (s.mem pt (PTX la))) :
    entryMap (u.mem pt (PTX la)) = entryMap (s.mem pt (PTX la)) := by
  have same := calm.same r dir la user
  have mapped : entryMap (s.mem pt (PTX la)) ≠ none := by
    unfold entryMap
    rw [if_pos valid]
    exact Option.some_ne_none _
  rw [translate_entry leads] at same
  cases table : u.leafTable r la with
  | none =>
    rw [translate_none table] at same
    exact absurd same.symm mapped
  | some pt' =>
    have here := calm.stays pt _ (leaf_place ok.placed dir user leads)
    have there := leaf_place calm.placed dir user table
    cases place_inj calm.placed here there
    rwa [translate_entry table] at same

theorem copy_page_run {words : Nat → Nat} (other : page ≠ p) :
    copyPage p page (s.taken p words) = .ok ((), s.taken p (s.mem page)) := by
  have same : (s.taken p words).mem page = s.mem page := Function.update_of_ne other ..
  have twice : Function.update (s.taken p words).mem p ((s.taken p words).mem page) =
      Function.update s.mem p (s.mem page) := by
    rw [same]
    exact Function.update_idem ..
  exact congrArg (fun mem => Except.ok ((), { s.taken p words with mem := mem })) twice

theorem copy_turn_meets (ok : TablesOk c dirs place) (dstDir : dst ∈ dirs) (srcDir : src ∈ dirs)
    (user : start < USERTOP) (aligned : start % PGSIZE = 0) : Meets (copyTurn dst src start) c
      (fun ret u => (∃ place', TablesOk u dirs place' ∧ (∀ z, place z = none → z ∉ c.free → place' z = none) ∧
          ∀ t x, place t = some x → place' t = some x) ∧
        HandedBack c u dirs ∧
        ((ret = none ∧ ∀ r ∈ dirs, ∀ la < USERTOP, u.translate r la = c.translate r la) ∨
        (∃ next, ret = some next ∧ u = c ∧ next % PGSIZE = 0 ∧ start + PGSIZE ≤ next ∧
          ∀ la < USERTOP, start ≤ la → la < next → c.translate src la = none) ∨
        (ret = some (start + PGSIZE) ∧ PageCopied c u place dirs dst src start)))
      fun e => e = .assertion := by
  obtain ⟨ret, m, _, ran, _, found, asked⟩ := get_pte_calm false ok.placed srcDir user
  cases asked rfl
  have handed : HandedBack c c dirs := handed_same (fun _ _ _ _ => rfl) rfl
  have stays : ∃ place', TablesOk c dirs place' ∧ (∀ z, place z = none → z ∉ c.free → place' z = none) ∧
      ∀ t x, place t = some x → place' t = some x := ⟨place, ok, fun _ data _ => data, fun _ _ here => here⟩
  unfold copyTurn Meets
  rw [run_bind ran]
  cases table : c.leafTable src start with
  | none =>
    rw [table] at found
    cases found
    refine ⟨stays, handed, .inr (.inl ⟨_, rfl, rfl, ?_, ?_, ?_⟩)⟩
    · unfold roundDown PTSIZE PGSIZE at *
      omega
    · unfold roundDown PTSIZE PGSIZE at *
      omega
    · exact fun la _ behind below => no_table_none table behind below
  | some pt =>
    rw [table, Option.map_some] at found
    cases found
    have here := leaf_place ok.placed srcDir user table
    dsimp only
    rw [run_bind load_run]
    by_cases valid : Valid (c.mem pt (PTX start))
    · obtain ⟨frameData, frameUsed, frameLow⟩ := ok.placed.data pt _ _ _ here _ ptx_lt valid
      have mapped : c.translate src start = some (ptePage (c.mem pt (PTX start)), c.mem pt (PTX start) % 1024) := by
        rw [translate_entry table]
        exact if_pos valid
      rw [if_neg (not_not_intro valid)]
      obtain ⟨ret, v, placeV, ranV, calmV, foundV, _⟩ := get_pte_calm true ok.placed dstDir user
      have okV := calm_ok ok calmV
      rw [run_bind ranV]
      cases made : v.leafTable dst start with
      | none =>
        rw [made] at foundV
        cases foundV
        exact ⟨⟨placeV, okV, fun z data used => (calm_data calmV data used).1, calmV.stays⟩,
          handed_same calmV.same calmV.returned, .inl ⟨rfl, calmV.same⟩⟩
      | some npt =>
        rw [made, Option.map_some] at foundV
        cases foundV
        have entry := calm_entry ok calmV srcDir user table valid
        have entryC : entryMap (c.mem pt (PTX start)) = some _ := if_pos valid
        rw [entryC] at entry
        have validV : Valid (v.mem pt (PTX start)) := by
          by_contra invalid
          rw [entryMap, if_neg invalid] at entry
          cases entry
        rw [entryMap, if_pos validV] at entry
        obtain ⟨samePage, sameFlags⟩ := Prod.mk.inj (Option.some.inj entry)
        have flags : v.mem pt (PTX start) &&& PTE_USER = c.mem pt (PTX start) % 1024 &&& PTE_USER := by
          rw [user_flags, sameFlags]
        obtain ⟨frameDataV, frameUsedV, frameMem, _⟩ := calm_data calmV frameData frameUsed
        dsimp only
        rw [run_bind load_run, kaddr_bind (by rw [samePage, calmV.npage]; exact frameLow), samePage, flags]
        obtain ⟨ret, w, ranW, answer⟩ := alloc_ends okV
        rw [run_bind ranW]
        rcases answer with ⟨rfl, rfl⟩ | ⟨p, free, rfl, rfl, data, bounded⟩
        · exact rfl
        · have other : ptePage (c.mem pt (PTX start)) ≠ p := by
            intro same
            rw [same] at frameUsedV
            exact frameUsedV free
          obtain ⟨okT, sameT⟩ := taken_ok (v.mem (ptePage (c.mem pt (PTX start)))) okV free
          obtain ⟨outside, fewer, frames⟩ := taken_same (v.mem (ptePage (c.mem pt (PTX start)))) free
          have low : ptePage (c.mem pt (PTX start)) < (v.taken p (v.mem p)).npage := by
            rw [show (v.taken p (v.mem p)).npage = v.npage from rfl, calmV.npage]
            exact frameLow
          dsimp only
          rw [kaddr_bind low, kaddr_bind (show p < (v.taken p (v.mem p)).npage from bounded),
            run_bind (copy_page_run other)]
          obtain ⟨ret, u, placeU, inserted, okU, handedU, result⟩ :=
            insert_ends okT dstDir user user_flags_small bounded outside data
          have back : HandedBack c u dirs :=
            handed_trans calmV.same calmV.returned calmV.fewer (handed_trans sameT rfl fewer handedU)
          rw [run_bind inserted]
          rcases result with ⟨fails, _⟩ | ⟨rfl, n, ptN, calmN, tableN, rfl⟩
          · rw [run_check_stop fails]
          · rw [run_check_bind rfl]
            have free_c : p ∈ c.free := calmV.fewer free
            have okN := calm_ok okT calmN
            have hereN := leaf_place okN.placed dstDir user tableN
            obtain ⟨dataN, _, memN, _⟩ := calm_data calmN data outside
            have memU : ∀ z, placeU z = none → (n.put ptN (PTX start) p
                (c.mem pt (PTX start) % 1024 &&& PTE_USER)).mem z = n.mem z := by
              intro z dataZ
              apply Function.update_of_ne
              rintro rfl
              rw [hereN] at dataZ
              cases dataZ
            have chain : ∀ z, place z = none → z ∉ c.free → placeU z = none ∧ n.mem z = c.mem z ∧
                n.ref z = c.ref z ∧ z ∉ n.free := by
              intro z dataZ usedZ
              obtain ⟨dataV, usedV, memV, refV⟩ := calm_data calmV dataZ usedZ
              have usedT : z ∉ (v.taken p (v.mem (ptePage (c.mem pt (PTX start))))).free := fun mem => usedV (fewer mem)
              obtain ⟨dataU, usedN, memT, refT⟩ := calm_data calmN dataV usedT
              exact ⟨dataU, (memT.trans (frames z usedV)).trans memV, refT.trans refV, usedN⟩
            have same : ∀ r ∈ dirs, ∀ la < USERTOP, n.translate r la = c.translate r la := by
              intro r dir la user'
              rw [calmN.same r dir la user', sameT r dir la user', calmV.same r dir la user']
            have kept : ∀ t x, place t = some x → placeU t = some x :=
              fun t x here => calmN.stays t x (calmV.stays t x here)
            refine ⟨⟨placeU, okU, fun z dataZ usedZ => (chain z dataZ usedZ).1, kept⟩, back, .inr (.inr ⟨rfl, ?_⟩)⟩
            refine ⟨_, _, p, mapped, free_c, ?_, fun r dir la user' => ?_, fun z dataZ usedZ => ?_⟩
            · rw [memU p dataN, memN]
              exact (Function.update_self ..).trans frameMem
            · have small : PTE_V ||| (c.mem pt (PTX start) % 1024 &&& PTE_USER) < 1024 :=
                Nat.or_lt_two_pow (n := 10) (by decide) user_flags_small
              have again : PTE_V ||| (PTE_V ||| (c.mem pt (PTX start) % 1024 &&& PTE_USER)) =
                  PTE_V ||| (c.mem pt (PTX start) % 1024 &&& PTE_USER) := by rw [← Nat.or_assoc, Nat.or_self]
              have mapped' : entryMap (pteCreate p (PTE_V ||| (c.mem pt (PTX start) % 1024 &&& PTE_USER))) =
                  some (p, PTE_V ||| (c.mem pt (PTX start) % 1024 &&& PTE_USER)) := by
                unfold entryMap
                rw [if_pos create_valid, page_create small, create_perm small, again]
              have stored : (n.put ptN (PTX start) p (c.mem pt (PTX start) % 1024 &&& PTE_USER)).mem =
                  (n.store ptN (PTX start) (pteCreate p (PTE_V ||| (c.mem pt (PTX start) % 1024 &&& PTE_USER)))).mem :=
                rfl
              rw [store_translate okN.placed dstDir user tableN stored dir user', mapped', same r dir la user']
            · obtain ⟨dataU, memZ, refZ, usedN⟩ := chain z dataZ usedZ
              refine ⟨(memU z dataU).trans memZ, fun unmapped => ?_⟩
              have invalid : ¬ Valid (n.mem ptN (PTX start)) := by
                intro validN
                have nothing := same dst dstDir start user
                rw [unmapped, translate_entry tableN] at nothing
                unfold entryMap at nothing
                rw [if_pos validN] at nothing
                cases nothing
              have notNew : p ≠ z := by
                rintro rfl
                exact usedZ free_c
              have freeU : (n.put ptN (PTX start) p (c.mem pt (PTX start) % 1024 &&& PTE_USER)).free = n.free :=
                if_neg fun all => invalid all.1
              rw [freeU]
              refine ⟨?_, usedN⟩
              change n.ref z + (if p = z then 1 else 0) - (if Valid (n.mem ptN (PTX start)) ∧ _ then 1 else 0) = _
              rw [if_neg notNew, if_neg fun both => invalid both.1, refZ]
              omega
    · rw [if_pos valid]
      refine ⟨stays, handed, .inr (.inl ⟨start + PGSIZE, rfl, rfl, ?_, le_refl _, fun la _ behind below => ?_⟩)⟩
      · unfold PGSIZE at *
        omega
      · have page : PPN la = PPN start := by
          rw [ppn_eq, ppn_eq]
          unfold PGSIZE at *
          omega
        rw [translate_page page, translate_entry table]
        exact if_neg valid

end

end Ucore.PageTable
