import Ucore.Lib.Transitions
import Ucore.Mm.PageTableSteps

/- Runs of `page_insert`, `page_remove`, `get_pte` and `get_page` on the user half of page
   directories change a finite map from pages to frames and permissions. -/
namespace Ucore.PageTable
open Programs Transitions

def PmmState.frameAt (s : PmmState) (x : Nat × Nat) : Option Nat :=
  (s.translate x.1 (x.2 * 4096)).map Prod.fst

/- The user pages of the directories. -/
def userPages (dirs : Finset Nat) : Finset (Nat × Nat) := dirs ×ˢ Finset.range (PPN USERTOP)

/-- How many pages are mapped to a frame. -/
def PmmState.uses (s : PmmState) (dirs : Finset Nat) (f : Nat) : Nat :=
  ((userPages dirs).filter fun x => s.frameAt x = some f).card

/- Every frame that is not a table is counted once for each page that is mapped to it. -/
structure TablesOk (s : PmmState) (dirs : Finset Nat) (place : Nat → Option Place) : Prop where
  placed : Placed s dirs place
  counted : ∀ f, place f = none → s.ref f = s.uses dirs f

/- The frame and the permissions of an entry. -/
def entryMap (pte : Nat) : Option (Nat × Nat) := if Valid pte then some (ptePage pte, pte % 1024) else none

section
variable {s u : PmmState} {dirs : Finset Nat} {place place' : Nat → Option Place} {r la t i j k p pt e : Nat}

theorem page_of_user (user : la < USERTOP) : PPN la < PPN USERTOP := by
  rw [ppn_eq, ppn_eq]
  unfold USERTOP at *
  omega

theorem user_of_page {v : Nat} (low : v < PPN USERTOP) : v * 4096 < USERTOP := by
  rw [ppn_eq] at low
  unfold USERTOP at *
  omega

theorem ppn_page {v : Nat} : PPN (v * 4096) = v := by
  rw [ppn_eq]
  omega

theorem translate_entry (leads : s.leafTable r la = some pt) :
    s.translate r la = entryMap (s.mem pt (PTX la)) := by
  unfold PmmState.translate
  rw [leads]
  rfl

theorem translate_none (missing : s.leafTable r la = none) : s.translate r la = none := by
  unfold PmmState.translate
  rw [missing]
  rfl

theorem grown_ok (ok : TablesOk s dirs place) (grown : Grown s place u place' dirs) :
    TablesOk u dirs place' := by
  refine ⟨grown.placed, ?_⟩
  intro f none_there
  have before : place f = none := by
    by_contra placed_there
    obtain ⟨x, here⟩ := Option.ne_none_iff_exists'.mp placed_there
    rw [grown.stays f x here] at none_there
    cases none_there
  rw [grown.ref f none_there, ok.counted f before]
  unfold PmmState.uses
  congr 2
  apply Finset.filter_congr
  intro x mem
  obtain ⟨dir, low⟩ := Finset.mem_product.mp mem
  unfold PmmState.frameAt
  rw [grown.same x.1 dir _ (user_of_page (Finset.mem_range.mp low))]

/- A leaf table is found where it is placed. -/
theorem leaf_found (placed : Placed s dirs place) (here : place t = some (.leaf r i j)) :
    r ∈ dirs ∧ i < userDirs ∧ j < 512 ∧
      ∀ la, PDX1 la = i → PDX0 la = j → s.leafTable r la = some t := by
  rcases placed.found t _ here with ⟨_, top⟩ | ⟨pd0, x, j', above, child, valid, leads⟩
  · cases top
  obtain ⟨rfl, rfl, low⟩ := child_leaf child
  rcases placed.found pd0 _ above with ⟨_, top⟩ | ⟨root, x, i', above', child', valid', leads'⟩
  · cases top
  obtain ⟨rfl, rfl, bounded⟩ := child_mid child'
  rcases placed.found root _ above' with ⟨dir, top⟩ | ⟨_, x, i'', _, child'', _⟩
  · cases top
    refine ⟨dir, bounded, low, ?_⟩
    intro la one zero
    unfold PmmState.leafTable
    rw [one, zero, table_of_valid valid', Option.bind_some, leads', table_of_valid valid, leads]
  · exact absurd child'' child_top

/- An entry of a leaf table is changed: the translation of its page is, and no other. -/
theorem store_leaf_table (placed : Placed s dirs place) (here : place pt = some (.leaf t i j))
    (mem : u.mem = (s.store pt k e).mem) (dir : r ∈ dirs) (user : la < USERTOP) :
    u.leafTable r la = s.leafTable r la := by
  have others : ∀ t', t' ≠ pt → u.mem t' = s.mem t' := by
    intro t' ne
    rw [mem]
    exact Function.update_of_ne ne ..
  have root := placed.top r dir
  have apart : r ≠ pt := by
    rintro rfl
    cases root.symm.trans here
  unfold PmmState.leafTable
  have first : u.tableOf r (PDX1 la) = s.tableOf r (PDX1 la) := by
    unfold PmmState.tableOf
    rw [others r apart]
  rw [first]
  cases one : s.tableOf r (PDX1 la) with
  | none => rfl
  | some pd0 =>
    have middle := table_place placed root (top_child (user_dir user)) one
    have apart : pd0 ≠ pt := by
      rintro rfl
      cases middle.symm.trans here
    rw [Option.bind_some, Option.bind_some]
    unfold PmmState.tableOf
    rw [others pd0 apart]

theorem store_translate (placed : Placed s dirs place) (dir : r ∈ dirs) (user : la < USERTOP)
    (leads : s.leafTable r la = some pt) (mem : u.mem = (s.store pt (PTX la) e).mem) {r' la' : Nat}
    (dir' : r' ∈ dirs) (user' : la' < USERTOP) : u.translate r' la' =
      if r' = r ∧ PPN la' = PPN la then entryMap e else s.translate r' la' := by
  have here := leaf_place placed dir user leads
  have same_table := store_leaf_table placed here mem dir' user'
  by_cases same : r' = r ∧ PPN la' = PPN la
  · obtain ⟨rfl, page⟩ := same
    rw [if_pos ⟨rfl, page⟩, translate_page page]
    have path : u.leafTable r' la = some pt := by
      rw [store_leaf_table placed here mem dir user]
      exact leads
    rw [translate_entry path, mem]
    unfold PmmState.store
    dsimp only
    rw [Function.update_self, Function.update_self]
  · rw [if_neg same]
    cases leads' : s.leafTable r' la' with
    | none => rw [translate_none leads', translate_none (same_table.trans leads')]
    | some pt' =>
      rw [translate_entry leads', translate_entry (same_table.trans leads'), mem]
      unfold PmmState.store
      dsimp only
      by_cases table : pt' = pt
      · subst pt'
        have there := leaf_place placed dir' user' leads'
        rw [here] at there
        have equal := Option.some.inj there
        have apart : PTX la' ≠ PTX la := by
          intro last
          injection equal with one two three
          exact same ⟨one.symm, same_page user' user two.symm three.symm last⟩
        rw [Function.update_self, Function.update_of_ne apart]
      · rw [Function.update_of_ne table]

theorem frame_used {x : Nat × Nat} (mem : x ∈ userPages dirs) (here : s.frameAt x = some p) :
    0 < s.uses dirs p :=
  Finset.card_pos.mpr ⟨x, Finset.mem_filter.mpr ⟨mem, here⟩⟩

theorem user_page (dir : r ∈ dirs) (user : la < USERTOP) : (r, PPN la) ∈ userPages dirs :=
  Finset.mem_product.mpr ⟨dir, Finset.mem_range.mpr (page_of_user user)⟩

theorem frame_at_page (s : PmmState) (r la : Nat) : s.frameAt (r, PPN la) = (s.translate r la).map Prod.fst := by
  unfold PmmState.frameAt
  have page : PPN (PPN la * 4096) = PPN la := ppn_page
  rw [translate_page page]

/- The address with three indices. -/
theorem user_address (one : i < userDirs) (zero : j < 512) (last : k < 512) :
    ∃ la, la < USERTOP ∧ PDX1 la = i ∧ PDX0 la = j ∧ PTX la = k := by
  refine ⟨i * 1073741824 + j * 2097152 + k * 4096, ?_, ?_, ?_, ?_⟩
  · unfold USERTOP
    unfold userDirs at one
    omega
  · rw [pdx1_eq]
    unfold userDirs at one
    omega
  · rw [pdx0_eq]
    omega
  · rw [ptx_eq]
    omega

/- How the counts of the frames change with an entry. -/
theorem store_uses (placed : Placed s dirs place) (dir : r ∈ dirs) (user : la < USERTOP)
    (leads : s.leafTable r la = some pt) (mem : u.mem = (s.store pt (PTX la) e).mem) (f : Nat) :
    u.uses dirs f + (if s.frameAt (r, PPN la) = some f then 1 else 0) =
      s.uses dirs f + if (entryMap e).map Prod.fst = some f then 1 else 0 := by
  have now : u.frameAt (r, PPN la) = (entryMap e).map Prod.fst := by
    rw [frame_at_page, store_translate placed dir user leads mem dir user, if_pos ⟨rfl, rfl⟩]
  rw [← now]
  refine Holders.card_moved (user_page dir user) ?_ (some f)
  rintro ⟨r', v⟩ inside other
  obtain ⟨dir', low⟩ := Finset.mem_product.mp inside
  have user' := user_of_page (Finset.mem_range.mp low)
  unfold PmmState.frameAt
  rw [store_translate placed dir user leads mem dir' user', if_neg]
  rintro ⟨rfl, page⟩
  rw [ppn_page] at page
  exact other (by rw [← page])

theorem store_ok (ok : TablesOk s dirs place) (dir : r ∈ dirs) (user : la < USERTOP)
    (leads : s.leafTable r la = some pt) (mem : u.mem = (s.store pt (PTX la) e).mem)
    (npage : u.npage = s.npage)
    (fresh : Valid e → place (ptePage e) = none ∧ ptePage e ∉ s.free ∧ ptePage e < s.npage)
    (ref : ∀ f, place f = none → u.ref f + (if s.frameAt (r, PPN la) = some f then 1 else 0) =
      s.ref f + if (entryMap e).map Prod.fst = some f then 1 else 0)
    (free : ∀ f ∈ u.free, f ∈ s.free ∨ (place f = none ∧ f < s.npage ∧ u.ref f = 0)) :
    TablesOk u dirs place := by
  have placed := ok.placed
  have here := leaf_place placed dir user leads
  have uses := store_uses placed dir user leads mem
  have counted : ∀ f, place f = none → u.ref f = u.uses dirs f := by
    intro f none_there
    have change := ref f none_there
    have before := ok.counted f none_there
    have moved := uses f
    split at change <;> split at change <;> simp_all
    all_goals omega
  have others : ∀ t x, place t = some x → (∀ r i j, x ≠ .leaf r i j) → u.mem t = s.mem t := by
    intro t x there inner
    have apart : t ≠ pt := by
      rintro rfl
      rw [here] at there
      cases there
      exact inner _ _ _ rfl
    rw [mem]
    exact Function.update_of_ne apart ..
  have inner : ∀ {x y : Place} {k : Nat}, x.child k = some y → ∀ r i j, x ≠ .leaf r i j := by
    rintro x y k child r i j rfl
    cases child
  refine ⟨⟨placed.top, ?_, ?_, ?_, ?_, ?_⟩, counted⟩
  · intro t x k y there child valid
    rw [others t x there (inner child)] at valid ⊢
    exact placed.step t x k y there child valid
  · intro t r' i' j' there k low valid
    have bounds : place (ptePage (u.mem t k)) = none ∧ ptePage (u.mem t k) ∉ s.free ∧
        ptePage (u.mem t k) < s.npage := by
      by_cases same : t = pt ∧ k = PTX la
      · obtain ⟨rfl, rfl⟩ := same
        have entry : u.mem t (PTX la) = e := by
          rw [mem]
          unfold PmmState.store
          dsimp only
          rw [Function.update_self, Function.update_self]
        rw [entry] at valid ⊢
        exact fresh valid
      · have old : u.mem t k = s.mem t k := by
          rw [mem]
          unfold PmmState.store
          dsimp only
          by_cases table : t = pt
          · subst t
            rw [Function.update_self, Function.update_of_ne fun equal => same ⟨rfl, equal⟩]
          · rw [Function.update_of_ne table]
        rw [old] at valid ⊢
        exact placed.data t r' i' j' there k low valid
    refine ⟨bounds.1, ?_, by rw [npage]; exact bounds.2.2⟩
    intro inside
    rcases free _ inside with before | ⟨none_there, _, zero⟩
    · exact bounds.2.1 before
    · -- the frame is mapped by this very entry
      obtain ⟨dir', low_i, low_j, found⟩ := leaf_found placed there
      obtain ⟨la', user', one, two, last⟩ := user_address low_i low_j low
      have path : u.leafTable r' la' = some t := by
        rw [store_leaf_table placed here mem dir' user']
        exact found la' one two
      have frame : u.frameAt (r', PPN la') = some (ptePage (u.mem t k)) := by
        rw [frame_at_page, translate_entry path, last]
        unfold entryMap
        rw [if_pos valid]
        rfl
      have some_use := frame_used (user_page dir' user') frame
      have count := counted _ none_there
      omega
  · intro t y there
    rcases placed.found t y there with top | ⟨t', x, k, above, child, valid, leads'⟩
    · exact Or.inl top
    · have old := others t' x above (inner child)
      exact Or.inr ⟨t', x, k, above, child, by rw [old]; exact valid, by rw [old]; exact leads'⟩
  · intro t x there
    obtain ⟨not_free, bounded⟩ := placed.used t x there
    refine ⟨?_, by rw [npage]; exact bounded⟩
    intro inside
    rcases free t inside with before | ⟨none_there, _⟩
    · exact not_free before
    · rw [none_there] at there
      cases there
  · intro f inside
    rw [npage]
    rcases free f inside with before | ⟨_, bounded, _⟩
    · exact placed.range f before
    · exact bounded

/- What `page_remove_pte` leaves. -/
def PmmState.drop (s : PmmState) (pt k : Nat) : PmmState :=
  { s.store pt k 0 with
    ref := Function.update s.ref (ptePage (s.mem pt k)) (s.ref (ptePage (s.mem pt k)) - 1)
    free := if s.ref (ptePage (s.mem pt k)) - 1 = 0 then insert (ptePage (s.mem pt k)) s.free
      else s.free
    returned := if s.ref (ptePage (s.mem pt k)) - 1 = 0 then ptePage (s.mem pt k) :: s.returned
      else s.returned }

theorem remove_pte_invalid (invalid : ¬ Valid (s.mem pt k)) : pageRemovePte pt k s = .ok ((), s) := by
  unfold pageRemovePte
  rw [run_bind load_run, if_neg invalid]
  rfl

theorem remove_pte_valid (valid : Valid (s.mem pt k)) (bounded : ptePage (s.mem pt k) < s.npage) :
    pageRemovePte pt k s = .ok ((), s.drop pt k) := by
  unfold pageRemovePte PmmState.drop
  rw [run_bind load_run, if_pos valid, kaddr_bind bounded]
  unfold pageRefDec setPageRef
  change (ite (s.ref (ptePage (s.mem pt k)) - 1 = 0) _ _ : PmmM Unit) _ = _
  by_cases zero : s.ref (ptePage (s.mem pt k)) - 1 = 0
  · rw [if_pos zero, if_pos zero, if_pos zero]
    rfl
  · rw [if_neg zero, if_neg zero, if_neg zero]
    rfl

theorem drop_ok (ok : TablesOk s dirs place) (dir : r ∈ dirs) (user : la < USERTOP)
    (leads : s.leafTable r la = some pt) (valid : Valid (s.mem pt (PTX la))) :
    TablesOk (s.drop pt (PTX la)) dirs place := by
  have here := leaf_place ok.placed dir user leads
  obtain ⟨none_there, not_free, bounded⟩ := ok.placed.data pt _ _ _ here _ ptx_lt valid
  have frame : s.frameAt (r, PPN la) = some (ptePage (s.mem pt (PTX la))) := by
    rw [frame_at_page, translate_entry leads]
    unfold entryMap
    rw [if_pos valid]
    rfl
  refine store_ok ok dir user leads (e := 0) rfl rfl (fun valid => absurd valid zero_invalid) ?_ ?_
  · intro f _
    have nothing : (entryMap 0).map Prod.fst = none := rfl
    have never : ¬ (none : Option Nat) = some f := nofun
    rw [frame, nothing, if_neg never]
    unfold PmmState.drop
    dsimp only
    by_cases same : ptePage (s.mem pt (PTX la)) = f
    · subst f
      rw [if_pos rfl, Function.update_self]
      omega
    · rw [if_neg fun equal => same (Option.some.inj equal), Function.update_of_ne (Ne.symm same)]
  · intro f inside
    unfold PmmState.drop at inside ⊢
    dsimp only at inside ⊢
    split at inside
    · next zero =>
      rcases Finset.mem_insert.mp inside with rfl | before
      · refine Or.inr ⟨none_there, bounded, ?_⟩
        rw [Function.update_self]
        exact zero
      · exact Or.inl before
    · exact Or.inl inside

/- `page_insert` after `get_pte`. -/
def PmmState.put (s : PmmState) (pt k page perm : Nat) : PmmState :=
  { s.store pt k (pteCreate page (PTE_V ||| perm)) with
    ref := fun f => s.ref f + (if page = f then 1 else 0) -
      if Valid (s.mem pt k) ∧ ptePage (s.mem pt k) = f then 1 else 0
    free := if Valid (s.mem pt k) ∧ ptePage (s.mem pt k) ≠ page ∧ s.ref (ptePage (s.mem pt k)) - 1 = 0 then
        insert (ptePage (s.mem pt k)) s.free
      else s.free
    returned := if Valid (s.mem pt k) ∧ ptePage (s.mem pt k) ≠ page ∧ s.ref (ptePage (s.mem pt k)) - 1 = 0
      then ptePage (s.mem pt k) :: s.returned
      else s.returned }

theorem put_state {page perm : Nat} {m n : PmmState} (npage : n.npage = m.npage)
    (mem : n.mem = (m.store pt k (pteCreate page (PTE_V ||| perm))).mem)
    (ref : ∀ f, n.ref f = (m.put pt k page perm).ref f) (free : n.free = (m.put pt k page perm).free)
    (returned : n.returned = (m.put pt k page perm).returned) (answers : n.answers = m.answers) : n = m.put pt k page perm := by
  cases n
  cases npage
  cases mem
  cases answers
  cases free
  cases returned
  cases funext ref
  rfl

def PmmState.bump (s : PmmState) (page : Nat) : PmmState :=
  { s with ref := Function.update s.ref page (s.ref page + 1) }

theorem bump_ref {page f : Nat} : (s.bump page).ref f = s.ref f + if page = f then 1 else 0 := by
  change Function.update s.ref page (s.ref page + 1) f = _
  by_cases same : page = f
  · subst f
    rw [if_pos rfl, Function.update_self]
  · rw [if_neg same, Function.update_of_ne (Ne.symm same), add_zero]

theorem put_fresh {page perm : Nat} (invalid : ¬ Valid (s.mem pt k)) :
    (s.bump page).store pt k (pteCreate page (PTE_V ||| perm)) = s.put pt k page perm := by
  apply put_state
  · rfl
  · rfl
  · intro f
    have neither : ¬ (Valid (s.mem pt k) ∧ ptePage (s.mem pt k) = f) := fun both => invalid both.1
    change (s.bump page).ref f = _
    unfold PmmState.put
    dsimp only
    rw [bump_ref, if_neg neither, sub_zero]
  · exact (if_neg fun all => invalid all.1).symm
  · exact (if_neg fun all => invalid all.1).symm
  · rfl

theorem put_again {page perm : Nat} (valid : Valid (s.mem pt k)) (same : ptePage (s.mem pt k) = page) :
    PmmState.store { s.bump page with
      ref := Function.update (s.bump page).ref page ((s.bump page).ref page - 1) } pt k
        (pteCreate page (PTE_V ||| perm)) = s.put pt k page perm := by
  apply put_state
  · rfl
  · rfl
  · intro f
    change Function.update (s.bump page).ref page ((s.bump page).ref page - 1) f = _
    unfold PmmState.put
    dsimp only
    rw [same]
    by_cases here : page = f
    · subst f
      rw [Function.update_self, bump_ref, if_pos rfl, if_pos ⟨valid, rfl⟩]
    · rw [Function.update_of_ne (Ne.symm here), bump_ref, if_neg here, if_neg fun both => here both.2]
      omega
  · exact (if_neg fun all => all.2.1 same).symm
  · exact (if_neg fun all => all.2.1 same).symm
  · rfl

theorem put_replaced {page perm : Nat} (valid : Valid (s.mem pt k)) (other : ptePage (s.mem pt k) ≠ page) :
    ((s.bump page).drop pt k).store pt k (pteCreate page (PTE_V ||| perm)) = s.put pt k page perm := by
  have kept : (s.bump page).ref (ptePage (s.mem pt k)) = s.ref (ptePage (s.mem pt k)) := by
    rw [bump_ref, if_neg (Ne.symm other), add_zero]
  apply put_state
  · rfl
  · change Function.update (Function.update s.mem pt _) pt (Function.update
      (Function.update s.mem pt (Function.update (s.mem pt) k 0) pt) k _) = Function.update s.mem pt _
    rw [Function.update_self, Function.update_idem, Function.update_idem]
  · intro f
    change Function.update (s.bump page).ref (ptePage (s.mem pt k))
      ((s.bump page).ref (ptePage (s.mem pt k)) - 1) f = _
    unfold PmmState.put
    dsimp only
    by_cases here : ptePage (s.mem pt k) = f
    · subst f
      rw [Function.update_self, kept, if_neg (Ne.symm other), if_pos ⟨valid, rfl⟩, add_zero]
    · have neither : ¬ (Valid (s.mem pt k) ∧ ptePage (s.mem pt k) = f) := fun both => here both.2
      rw [Function.update_of_ne (Ne.symm here), bump_ref, if_neg neither, sub_zero]
  · change (if (s.bump page).ref (ptePage (s.mem pt k)) - 1 = 0 then insert (ptePage (s.mem pt k)) s.free
      else s.free) = _
    rw [kept]
    by_cases zero : s.ref (ptePage (s.mem pt k)) - 1 = 0
    · rw [if_pos zero]
      exact (if_pos ⟨valid, other, zero⟩).symm
    · rw [if_neg zero]
      exact (if_neg fun all => zero all.2.2).symm
  · change (if (s.bump page).ref (ptePage (s.mem pt k)) - 1 = 0 then ptePage (s.mem pt k) :: s.returned
      else s.returned) = _
    rw [kept]
    by_cases zero : s.ref (ptePage (s.mem pt k)) - 1 = 0
    · rw [if_pos zero]
      exact (if_pos ⟨valid, other, zero⟩).symm
    · rw [if_neg zero]
      exact (if_neg fun all => zero all.2.2).symm
  · rfl

theorem insert_run (page perm : Nat) {m : PmmState}
    (found : getPte r la true s = .ok (some (pt, k), m))
    (bounded : Valid (m.mem pt k) → ptePage (m.mem pt k) < m.npage) :
    pageInsert r page la perm s = .ok (0, m.put pt k page perm) := by
  unfold pageInsert
  rw [run_bind found]
  dsimp only
  rw [run_get_bind]
  unfold setPageRef
  rw [run_modify_bind, run_bind load_run]
  dsimp only
  by_cases valid : Valid (m.mem pt k)
  · rw [if_pos valid, kaddr_bind]
    · by_cases same : ptePage (m.mem pt k) = page
      · rw [if_pos same, ← put_again valid same]
        rfl
      · rw [if_neg same, ← put_replaced valid same]
        exact run_bind (remove_pte_valid (s := m.bump page) valid (bounded valid))
    · exact bounded valid
  · rw [if_neg valid, ← put_fresh valid]
    rfl

theorem put_ok {page perm : Nat} (ok : TablesOk s dirs place) (dir : r ∈ dirs) (user : la < USERTOP)
    (leads : s.leafTable r la = some pt) (small : perm < 1024) (data : place page = none)
    (used : page ∉ s.free) (bounded : page < s.npage) :
    TablesOk (s.put pt (PTX la) page perm) dirs place := by
  have here := leaf_place ok.placed dir user leads
  have flags : PTE_V ||| perm < 1024 := Nat.or_lt_two_pow (n := 10) (by decide) small
  have frame := frame_at_page s r la
  rw [translate_entry leads] at frame
  have entry : entryMap (pteCreate page (PTE_V ||| perm)) =
      some (page, pteCreate page (PTE_V ||| perm) % 1024) := by
    unfold entryMap
    rw [if_pos create_valid, page_create flags]
  refine store_ok ok dir user leads rfl rfl ?_ ?_ ?_
  · intro _
    rw [page_create flags]
    exact ⟨data, used, bounded⟩
  · intro f _
    rw [entry, frame]
    unfold PmmState.put entryMap
    dsimp only
    by_cases valid : Valid (s.mem pt (PTX la))
    · rw [if_pos valid]
      by_cases old : ptePage (s.mem pt (PTX la)) = f <;> by_cases new : page = f <;> simp [valid, old, new]
    · rw [if_neg valid]
      by_cases new : page = f <;> simp [valid, new]
  · intro f inside
    unfold PmmState.put at inside ⊢
    dsimp only at inside ⊢
    split at inside
    · next all =>
      obtain ⟨valid, other, zero⟩ := all
      rcases Finset.mem_insert.mp inside with rfl | before
      · obtain ⟨none_there, _, low⟩ := ok.placed.data pt _ _ _ here _ ptx_lt valid
        refine Or.inr ⟨none_there, low, ?_⟩
        rw [if_neg (Ne.symm other), if_pos ⟨valid, rfl⟩]
        omega
      · exact Or.inl before
    · exact Or.inl inside

end

/- The pages that are tables of the directories. -/
def PmmState.IsTable (s : PmmState) (dirs : Finset Nat) (f : Nat) : Prop :=
  f ∈ dirs ∨ ∃ r ∈ dirs, ∃ i < userDirs, Valid (s.mem r i) ∧ (ptePage (s.mem r i) = f ∨
    ∃ j < 512, Valid (s.mem (ptePage (s.mem r i)) j) ∧ ptePage (s.mem (ptePage (s.mem r i)) j) = f)

/-- The map that the directories stand for, on user pages. -/
def PmmState.pageMap (s : PmmState) (dirs : Finset Nat) (r v : Nat) : Option (Nat × Nat) :=
  if r ∈ dirs ∧ v < PPN USERTOP then s.translate r (v * 4096) else none

inductive PtOp where
  | alloc
  | getPte (r la : Nat) (create : Bool)
  | getPage (r la : Nat)
  | insert (r page la perm : Nat)
  | remove (r la : Nat)

inductive PtRet where
  | page (p : Option Nat)
  | ptep (p : Option (Nat × Nat))
  | code (ret : Int)
  | done
  deriving DecidableEq

/-- A call, with what the allocator answers in it, and what it returns. -/
structure PtEvent where
  op : PtOp
  answers : List (Option Nat)
  ret : PtRet

def PtOp.run : PtOp → PmmM PtRet
  | .alloc => return .page (← allocPage)
  | .getPte r la create => return .ptep (← PageTable.getPte r la create)
  | .getPage r la => return .page (← PageTable.getPage r la)
  | .insert r page la perm => return .code (← pageInsert r page la perm)
  | .remove r la => do
      pageRemove r la
      return .done

/-- The address is one of the user, and a page that is inserted is neither free nor a table. -/
def PtOp.Possible (dirs : Finset Nat) (s : PmmState) : PtOp → Prop
  | .alloc => True
  | .getPte r la _ | .getPage r la | .remove r la => r ∈ dirs ∧ la < USERTOP
  | .insert r page la perm => (r ∈ dirs ∧ la < USERTOP) ∧ perm < 1024 ∧ page < s.npage ∧
      page ∉ s.free ∧ ¬ s.IsTable dirs page

def PtStep (dirs : Finset Nat) (s : PmmState) (e : PtEvent) (t : PmmState) : Prop :=
  e.op.Possible dirs s ∧ e.op.run { s with answers := e.answers } = .ok (e.ret, t)

abbrev PageMap := Nat → Nat → Option (Nat × Nat)

def PageMap.set (M : PageMap) (r v : Nat) (x : Option (Nat × Nat)) : PageMap :=
  Function.update M r (Function.update (M r) v x)

/-- What a call does to the map, and what it tells of it. -/
def MapStep (M : PageMap) (e : PtEvent) (M' : PageMap) : Prop :=
  match e.op, e.ret with
  | .alloc, .page _ => M' = M
  | .getPte _ _ _, .ptep _ => M' = M
  | .getPage r la, .page p => M' = M ∧ p = (M r (PPN la)).map Prod.fst
  | .insert r page la perm, .code ret =>
      (ret = -E_NO_MEM ∧ M' = M) ∨ (ret = 0 ∧ M' = M.set r (PPN la) (some (page, PTE_V ||| perm)))
  | .remove r la, .done => M' = M.set r (PPN la) none
  | _, _ => False

/-- The directories have no user entries, and no page is counted. -/
structure Blank (s : PmmState) (dirs : Finset Nat) : Prop where
  used : ∀ r ∈ dirs, r ∉ s.free ∧ r < s.npage
  empty : ∀ r ∈ dirs, ∀ i < userDirs, ¬ Valid (s.mem r i)
  range : ∀ f ∈ s.free, f < s.npage
  counts : ∀ f, f ∉ dirs → s.ref f = 0

section
variable {s u : PmmState} {dirs : Finset Nat} {place place' : Nat → Option Place}
  {r la t i j k p pt page perm : Nat} {answers : List (Option Nat)}

theorem placed_table (placed : Placed s dirs place) (f : Nat) : place f ≠ none ↔ s.IsTable dirs f := by
  constructor
  · intro there
    obtain ⟨y, here⟩ := Option.ne_none_iff_exists'.mp there
    rcases placed.found f y here with ⟨dir, _⟩ | ⟨t, x, k, above, child, valid, leads⟩
    · exact Or.inl dir
    · cases y with
      | top r => exact absurd child child_top
      | mid r i =>
        obtain ⟨rfl, rfl, low⟩ := child_mid child
        rcases placed.found t _ above with ⟨dir, top⟩ | ⟨_, x, k', _, child', _⟩
        · cases top
          exact Or.inr ⟨t, dir, k, low, valid, Or.inl leads⟩
        · exact absurd child' child_top
      | leaf r i j =>
        obtain ⟨rfl, rfl, low⟩ := child_leaf child
        rcases placed.found t _ above with ⟨_, top⟩ | ⟨root, x, k', above', child', valid', leads'⟩
        · cases top
        obtain ⟨rfl, rfl, low'⟩ := child_mid child'
        rcases placed.found root _ above' with ⟨dir, top⟩ | ⟨_, x, _, _, child'', _⟩
        · cases top
          rw [← leads'] at valid leads
          exact Or.inr ⟨_, dir, k', low', valid', Or.inr ⟨k, low, valid, leads⟩⟩
        · exact absurd child'' child_top
  · rintro (dir | ⟨r, dir, i, low, valid, leads | ⟨j, low', valid', leads⟩⟩)
    · rw [placed.top f dir]
      exact Option.some_ne_none _
    · rw [← leads, placed.step r _ i _ (placed.top r dir) (top_child low) valid]
      exact Option.some_ne_none _
    · have middle := placed.step r _ i _ (placed.top r dir) (top_child low) valid
      rw [← leads, placed.step _ _ j _ middle (mid_child low') valid']
      exact Option.some_ne_none _

theorem blank_ok (blank : Blank s dirs) :
    TablesOk s dirs fun f => if f ∈ dirs then some (.top f) else none := by
  have top : ∀ f x, (if f ∈ dirs then some (Place.top f) else none) = some x → f ∈ dirs ∧ x = .top f := by
    intro f x here
    split at here
    · next dir =>
      cases here
      exact ⟨dir, rfl⟩
    · cases here
  have nothing : ∀ x ∈ userPages dirs, s.frameAt x = none := by
    rintro ⟨r, v⟩ inside
    obtain ⟨dir, low⟩ := Finset.mem_product.mp inside
    have user := user_of_page (Finset.mem_range.mp low)
    unfold PmmState.frameAt
    rw [translate_none]
    · rfl
    · unfold PmmState.leafTable
      rw [table_of_invalid (blank.empty r dir _ (user_dir user))]
      rfl
  refine ⟨⟨fun r dir => if_pos dir, ?_, ?_, ?_, ?_, blank.range⟩, ?_⟩
  · intro t x i y here child valid
    obtain ⟨dir, rfl⟩ := top t x here
    unfold Place.child at child
    dsimp only at child
    split at child
    · next low => exact absurd valid (blank.empty t dir i low)
    · cases child
  · intro t r i j here
    cases (top t _ here).2
  · intro t y here
    exact Or.inl (top t y here)
  · intro t x here
    exact blank.used t (top t x here).1
  · intro f none_there
    have outside : f ∉ dirs := by
      intro dir
      rw [if_pos dir] at none_there
      cases none_there
    rw [blank.counts f outside]
    unfold PmmState.uses
    rw [Finset.filter_eq_empty_iff.mpr]
    · rfl
    · intro x inside here
      rw [nothing x inside] at here
      cases here

theorem map_here (dir : r ∈ dirs) (user : la < USERTOP) :
    s.pageMap dirs r (PPN la) = s.translate r la := by
  unfold PmmState.pageMap
  rw [if_pos ⟨dir, page_of_user user⟩]
  exact translate_page ppn_page

theorem grown_map (grown : Grown s place u place' dirs) : u.pageMap dirs = s.pageMap dirs := by
  funext r v
  unfold PmmState.pageMap
  by_cases here : r ∈ dirs ∧ v < PPN USERTOP
  · rw [if_pos here, if_pos here, grown.same r here.1 _ (user_of_page here.2)]
  · rw [if_neg here, if_neg here]

theorem store_map {e : Nat} (placed : Placed s dirs place) (dir : r ∈ dirs) (user : la < USERTOP)
    (leads : s.leafTable r la = some pt) (mem : u.mem = (s.store pt (PTX la) e).mem) :
    u.pageMap dirs = PageMap.set (s.pageMap dirs) r (PPN la) (entryMap e) := by
  funext r' v
  unfold PmmState.pageMap PageMap.set
  by_cases here : r' ∈ dirs ∧ v < PPN USERTOP
  · rw [if_pos here, store_translate placed dir user leads mem here.1 (user_of_page here.2), ppn_page]
    by_cases root : r' = r
    · subst r'
      rw [Function.update_self]
      by_cases page : v = PPN la
      · rw [if_pos ⟨rfl, page⟩, page, Function.update_self]
      · rw [if_neg fun both => page both.2, Function.update_of_ne page]
        exact (if_pos here).symm
    · rw [if_neg fun both => root both.1, Function.update_of_ne root]
      exact (if_pos here).symm
  · rw [if_neg here]
    by_cases root : r' = r
    · subst r'
      have page : v ≠ PPN la := by
        rintro rfl
        exact here ⟨dir, page_of_user user⟩
      rw [Function.update_self, Function.update_of_ne page]
      exact (if_neg here).symm
    · rw [Function.update_of_ne root]
      exact (if_neg here).symm

/-- What is known of a call: the law holds after it, the map changes as it should, a pointer leads to
the entry of its address, and tables that a failed call has made are empty. -/
structure StepOk (s : PmmState) (dirs : Finset Nat) (e : PtEvent) (u : PmmState) : Prop where
  ok : ∃ place, TablesOk u dirs place
  map : MapStep (s.pageMap dirs) e (u.pageMap dirs)
  pointer : ∀ r la create pt k, e.op = .getPte r la create → e.ret = .ptep (some (pt, k)) →
    u.pageMap dirs r (PPN la) = entryMap (u.mem pt k)
  failed : (e.ret = .ptep none ∨ e.ret = .code (-E_NO_MEM)) → ∀ f, u.IsTable dirs f →
    ¬ s.IsTable dirs f → u.mem f = fun _ => 0

theorem ok_answers (answers : List (Option Nat)) (ok : TablesOk s dirs place) : TablesOk { s with answers } dirs place :=
  grown_ok ok (grown_answers ok.placed)

theorem new_empty (placed : Placed s dirs place) (placed' : Placed u dirs place')
    (empty : ∀ z, place z = none → place' z ≠ none → u.mem z = fun _ => 0) :
    ∀ f, u.IsTable dirs f → ¬ s.IsTable dirs f → u.mem f = fun _ => 0 := by
  intro f table new
  refine empty f ?_ ((placed_table placed' f).mpr table)
  by_contra there
  exact new ((placed_table placed f).mp there)

theorem alloc_step (ok : TablesOk s dirs place) :
    ∃ ret u, PtOp.run .alloc s = .ok (ret, u) ∧ StepOk s dirs ⟨.alloc, answers, ret⟩ u := by
  unfold PtOp.run
  by_cases answer : ∃ p, s.answers.head? = some (some p) ∧ p ∈ s.free
  · obtain ⟨p, answer, free⟩ := answer
    refine ⟨_, _, run_bind (alloc_run answer free), ⟨place, ⟨?_, ok.counted⟩⟩, rfl, nofun, nofun⟩
    refine ⟨ok.placed.top, ok.placed.step, ?_, ok.placed.found, ?_, ?_⟩
    · intro t r i j here k low valid
      obtain ⟨none_there, not_free, bounded⟩ := ok.placed.data t r i j here k low valid
      exact ⟨none_there, fun mem => not_free (Finset.mem_of_mem_erase mem), bounded⟩
    · intro t x here
      obtain ⟨not_free, bounded⟩ := ok.placed.used t x here
      exact ⟨fun mem => not_free (Finset.mem_of_mem_erase mem), bounded⟩
    · exact fun q mem => ok.placed.range q (Finset.mem_of_mem_erase mem)
  · have none_there : ∀ p, s.answers.head? = some (some p) → p ∉ s.free :=
      fun p head free => answer ⟨p, head, free⟩
    exact ⟨_, _, run_bind (alloc_none_run none_there), ⟨place, ok_answers _ ok⟩, rfl, nofun, nofun⟩

theorem get_pte_step {create : Bool} (ok : TablesOk s dirs place) (dir : r ∈ dirs) (user : la < USERTOP) :
    ∃ ret u, PtOp.run (.getPte r la create) s = .ok (ret, u) ∧
      StepOk s dirs ⟨.getPte r la create, answers, ret⟩ u := by
  obtain ⟨ret, u, place', ran, grown, found, failed, _⟩ :=
    get_pte_grows create ok.placed dir user
  refine ⟨_, u, run_bind ran, ⟨place', grown_ok ok grown⟩, grown_map grown, ?_, ?_⟩
  · intro r' la' create' pt k op some_ret
    cases op
    have leads : u.leafTable r la = some pt ∧ PTX la = k := by
      cases some_ret
      cases table : u.leafTable r la with
      | none =>
        rw [table] at found
        cases found
      | some pt' =>
        rw [table] at found
        cases found
        exact ⟨rfl, rfl⟩
    rw [map_here dir user, translate_entry leads.1, leads.2]
  · rintro (none_ret | code)
    · cases none_ret
      exact new_empty ok.placed grown.placed (failed rfl).2
    · cases code

theorem get_page_step (ok : TablesOk s dirs place) (dir : r ∈ dirs) (user : la < USERTOP) :
    ∃ ret u, PtOp.run (.getPage r la) s = .ok (ret, u) ∧
      StepOk s dirs ⟨.getPage r la, answers, ret⟩ u := by
  obtain ⟨ret, u, place', ran, _, found, _, asked⟩ :=
    get_pte_grows false ok.placed dir user
  cases asked rfl
  have page : ∀ p, getPage r la s = .ok (p, s) → p = (s.translate r la).map Prod.fst →
      ∃ ret u, PtOp.run (.getPage r la) s = .ok (ret, u) ∧
        StepOk s dirs ⟨.getPage r la, answers, ret⟩ u := by
    intro p ran known
    refine ⟨.page p, s, run_bind ran, ⟨place, ok⟩, ⟨rfl, ?_⟩, nofun, nofun⟩
    rw [map_here dir user]
    exact known
  cases table : s.leafTable r la with
  | none =>
    rw [table] at found
    cases found
    refine page none ?_ ?_
    · unfold getPage
      rw [run_bind ran]
      rfl
    · rw [translate_none table]
      rfl
  | some pt =>
    rw [table] at found
    cases found
    have here := leaf_place ok.placed dir user table
    by_cases valid : Valid (s.mem pt (PTX la))
    · have bounded := (ok.placed.data pt _ _ _ here _ ptx_lt valid).2.2
      refine page (some (ptePage (s.mem pt (PTX la)))) ?_ ?_
      · unfold getPage
        rw [run_bind ran]
        change (load pt (PTX la) >>= _) s = _
        rw [run_bind load_run, if_pos valid, kaddr_bind bounded]
        rfl
      · rw [translate_entry table]
        unfold entryMap
        rw [if_pos valid]
        rfl
    · refine page none ?_ ?_
      · unfold getPage
        rw [run_bind ran]
        change (load pt (PTX la) >>= _) s = _
        rw [run_bind load_run, if_neg valid]
        rfl
      · rw [translate_entry table]
        unfold entryMap
        rw [if_neg valid]
        rfl

theorem remove_step (ok : TablesOk s dirs place) (dir : r ∈ dirs) (user : la < USERTOP) :
    ∃ ret u, PtOp.run (.remove r la) s = .ok (ret, u) ∧
      StepOk s dirs ⟨.remove r la, answers, ret⟩ u := by
  obtain ⟨ret, u, place', ran, _, found, _, asked⟩ :=
    get_pte_grows false ok.placed dir user
  cases asked rfl
  have already : s.translate r la = none → MapStep (s.pageMap dirs) ⟨.remove r la, answers, .done⟩
      (s.pageMap dirs) := by
    intro nothing
    change s.pageMap dirs = PageMap.set _ _ _ _
    unfold PageMap.set
    rw [← nothing, ← map_here dir user, Function.update_eq_self, Function.update_eq_self]
  cases table : s.leafTable r la with
  | none =>
    rw [table] at found
    cases found
    have removed : pageRemove r la s = .ok ((), s) := by
      unfold pageRemove
      rw [run_bind ran]
      rfl
    exact ⟨.done, s, run_bind removed, ⟨place, ok⟩, already (translate_none table), nofun, nofun⟩
  | some pt =>
    rw [table] at found
    cases found
    have here := leaf_place ok.placed dir user table
    by_cases valid : Valid (s.mem pt (PTX la))
    · have bounded := (ok.placed.data pt _ _ _ here _ ptx_lt valid).2.2
      have removed : pageRemove r la s = .ok ((), s.drop pt (PTX la)) := by
        unfold pageRemove
        rw [run_bind ran]
        exact remove_pte_valid valid bounded
      refine ⟨.done, _, run_bind removed, ⟨place, drop_ok ok dir user table valid⟩, ?_, nofun, nofun⟩
      exact store_map (e := 0) ok.placed dir user table rfl
    · have removed : pageRemove r la s = .ok ((), s) := by
        unfold pageRemove
        rw [run_bind ran]
        exact remove_pte_invalid valid
      refine ⟨.done, s, run_bind removed, ⟨place, ok⟩, already ?_, nofun, nofun⟩
      rw [translate_entry table]
      exact if_neg valid

theorem insert_step (ok : TablesOk s dirs place) (dir : r ∈ dirs) (user : la < USERTOP)
    (small : perm < 1024) (bounded : page < s.npage) (used : page ∉ s.free)
    (data : ¬ s.IsTable dirs page) : ∃ ret u, PtOp.run (.insert r page la perm) s = .ok (ret, u) ∧
      StepOk s dirs ⟨.insert r page la perm, answers, ret⟩ u := by
  obtain ⟨ret, u, place', ran, grown, found, failed, _⟩ :=
    get_pte_grows true ok.placed dir user
  have ok' := grown_ok ok grown
  have none_before : place page = none := by
    by_contra there
    exact data ((placed_table ok.placed page).mp there)
  cases table : u.leafTable r la with
  | none =>
    rw [table] at found
    cases found
    have ended : pageInsert r page la perm s = .ok (-E_NO_MEM, u) := by
      unfold pageInsert
      rw [run_bind ran]
      rfl
    refine ⟨_, u, run_bind ended, ⟨place', ok'⟩, Or.inl ⟨rfl, grown_map grown⟩, nofun, ?_⟩
    intro _
    exact new_empty ok.placed grown.placed (failed rfl).2
  | some pt =>
    rw [table] at found
    cases found
    have here := leaf_place grown.placed dir user table
    have ended := insert_run page perm ran
      fun valid => (grown.placed.data pt _ _ _ here _ ptx_lt valid).2.2
    have none_there : place' page = none := (grown.new page none_before).resolve_right used
    have not_free : page ∉ u.free := fun mem => used (grown.fewer mem)
    have low : page < u.npage := by
      rw [grown.npage]
      exact bounded
    have flags : PTE_V ||| perm < 1024 := Nat.or_lt_two_pow (n := 10) (by decide) small
    have flags_again : PTE_V ||| (PTE_V ||| perm) = PTE_V ||| perm := by
      rw [← Nat.or_assoc, Nat.or_self]
    refine ⟨_, _, run_bind ended,
      ⟨place', put_ok ok' dir user table small none_there not_free low⟩, Or.inr ⟨rfl, ?_⟩, nofun, ?_⟩
    · have moved := store_map (u := u.put pt (PTX la) page perm) (e := pteCreate page (PTE_V ||| perm))
        grown.placed dir user table rfl
      unfold entryMap at moved
      rw [if_pos create_valid, page_create flags, create_perm flags, flags_again, grown_map grown] at moved
      exact moved
    · rintro (ptep | code)
      · cases ptep
      · cases code

theorem step_answers {e : PtEvent} (step : StepOk { s with answers } dirs e u) : StepOk s dirs e u :=
  ⟨step.ok, step.map, step.pointer, step.failed⟩

theorem op_step (answers : List (Option Nat)) (ok : TablesOk s dirs place) (op : PtOp) (possible : op.Possible dirs s) :
    ∃ ret u, op.run { s with answers } = .ok (ret, u) ∧ StepOk s dirs ⟨op, answers, ret⟩ u := by
  have start := ok_answers answers ok
  have ended : ∃ ret u, op.run { s with answers } = .ok (ret, u) ∧
      StepOk { s with answers } dirs ⟨op, answers, ret⟩ u := by
    cases op with
    | alloc => exact alloc_step start
    | getPte r la create => exact get_pte_step start possible.1 possible.2
    | getPage r la => exact get_page_step start possible.1 possible.2
    | insert r page la perm =>
      obtain ⟨⟨dir, user⟩, small, bounded, used, data⟩ := possible
      exact insert_step start dir user small bounded used data
    | remove r la => exact remove_step start possible.1 possible.2
  obtain ⟨ret, u, ran, step⟩ := ended
  exact ⟨ret, u, ran, step_answers step⟩

theorem pt_step_ok {e : PtEvent} (ok : TablesOk s dirs place) (step : PtStep dirs s e u) :
    StepOk s dirs e u := by
  obtain ⟨op, answers, ret⟩ := e
  obtain ⟨ret', u', ran, known⟩ := op_step answers ok op step.1
  cases step.2.symm.trans ran
  exact known

theorem mapped_frame {v f : Nat} (ok : TablesOk s dirs place)
    (mapped : (s.pageMap dirs r v).map Prod.fst = some f) : place f = none ∧ f ∉ s.free := by
  unfold PmmState.pageMap at mapped
  by_cases here : r ∈ dirs ∧ v < PPN USERTOP
  · rw [if_pos here] at mapped
    have user := user_of_page here.2
    cases table : s.leafTable r (v * 4096) with
    | none =>
      rw [translate_none table] at mapped
      cases mapped
    | some pt =>
      rw [translate_entry table] at mapped
      unfold entryMap at mapped
      by_cases valid : Valid (s.mem pt (PTX (v * 4096)))
      · rw [if_pos valid] at mapped
        cases mapped
        have placed_there := leaf_place ok.placed here.1 user table
        obtain ⟨none_there, not_free, _⟩ := ok.placed.data pt _ _ _ placed_there _ ptx_lt valid
        exact ⟨none_there, not_free⟩
      · rw [if_neg valid] at mapped
        cases mapped
  · rw [if_neg here] at mapped
    cases mapped

theorem run_ok {es : List PtEvent} (ok : TablesOk s dirs place) (run : Run (PtStep dirs) s es u) :
    Run MapStep (s.pageMap dirs) es (u.pageMap dirs) ∧ ∃ place, TablesOk u dirs place := by
  induction run generalizing place with
  | stop s => exact ⟨.stop _, place, ok⟩
  | call first rest ih =>
    have step := pt_step_ok ok first
    obtain ⟨place', ok'⟩ := step.ok
    obtain ⟨mapped, last⟩ := ih ok'
    exact ⟨.call step.map mapped, last⟩

end

/-- Every run of calls on blank directories, with any answers of the allocator, is a run of the map:
only the page that is inserted or removed changes, and nothing changes where there is no memory. Each
frame is counted once for each page that the map takes to it, no such frame is free, and no call stops. -/
theorem page_tables_refine_map {dirs : Finset Nat} {s t : PmmState} {es : List PtEvent}
    (blank : Blank s dirs) (run : Run (PtStep dirs) s es t) :
    Run MapStep (s.pageMap dirs) es (t.pageMap dirs) ∧
    (∀ f, ¬ t.IsTable dirs f → t.ref f = t.uses dirs f) ∧
    (∀ r v f, (t.pageMap dirs r v).map Prod.fst = some f → f ∉ t.free ∧ ¬ t.IsTable dirs f) ∧
    ∀ (op : PtOp) answers, op.Possible dirs t → ∃ ret u, op.run { t with answers } = .ok (ret, u) ∧
      StepOk t dirs ⟨op, answers, ret⟩ u := by
  obtain ⟨mapped, place, ok⟩ := run_ok (blank_ok blank) run
  refine ⟨mapped, ?_, ?_, fun op answers possible => op_step answers ok op possible⟩
  · intro f data
    refine ok.counted f ?_
    by_contra there
    exact data ((placed_table ok.placed f).mp there)
  · intro r v f here
    obtain ⟨none_there, not_free⟩ := mapped_frame ok here
    exact ⟨not_free, fun table => (placed_table ok.placed f).mpr table none_there⟩

/- One frame at two addresses, one of them replaced by another frame; the first directory is page 0. -/
def mapTwice : List PtEvent := [⟨.alloc, [some 5], .page (some 5)⟩, ⟨.alloc, [some 6], .page (some 6)⟩,
  ⟨.insert 0 5 0x200000 0x1E, [some 7, none], .code (-4)⟩,
  ⟨.insert 0 5 0x200000 0x1E, [some 8], .code 0⟩, ⟨.insert 0 5 0x201000 0x12, [], .code 0⟩,
  ⟨.insert 0 6 0x200000 0x1E, [], .code 0⟩, ⟨.getPage 0 0x200000, [], .page (some 6)⟩]

def blankPages : PmmState where
  npage := 16
  mem := fun _ _ => 0
  ref := fun _ => 0
  free := {5, 6, 7, 8}
  answers := []
  returned := []


instance (dirs : Finset Nat) (s : PmmState) : (op : PtOp) → Decidable (op.Possible dirs s)
  | .alloc => inferInstanceAs (Decidable True)
  | .getPte r la _ | .getPage r la | .remove r la => inferInstanceAs (Decidable (r ∈ dirs ∧ la < USERTOP))
  | .insert r page la perm =>
      have : Decidable (s.IsTable dirs page) := inferInstanceAs (Decidable (page ∈ dirs ∨
        ∃ r ∈ dirs, ∃ i < userDirs, Valid (s.mem r i) ∧ (ptePage (s.mem r i) = page ∨ ∃ j < 512,
          Valid (s.mem (ptePage (s.mem r i)) j) ∧ ptePage (s.mem (ptePage (s.mem r i)) j) = page)))
      inferInstanceAs (Decidable ((r ∈ dirs ∧ la < USERTOP) ∧ perm < 1024 ∧ page < s.npage ∧
        page ∉ s.free ∧ ¬ s.IsTable dirs page))

/- The step of an event, computed. -/
def ptReplay (dirs : Finset Nat) (s : PmmState) (e : PtEvent) : Option PmmState :=
  if e.op.Possible dirs s then
    match e.op.run { s with answers := e.answers } with
    | .ok (ret, t) => if ret = e.ret then some t else none
    | .error _ => none
  else none

theorem pt_replay_step {dirs : Finset Nat} {s t : PmmState} {e : PtEvent}
    (done : ptReplay dirs s e = some t) : PtStep dirs s e t := by
  unfold ptReplay at done
  split_ifs at done with possible
  cases ran : e.op.run { s with answers := e.answers } with
  | error stopped =>
    rw [ran] at done
    cases done
  | ok r =>
    rw [ran] at done
    dsimp only at done
    split_ifs at done with same
    cases done
    refine ⟨possible, ran.trans ?_⟩
    rw [← same]

theorem map_twice_runs : ∃ t, Run (PtStep {0}) blankPages mapTwice t ∧
    Run MapStep (blankPages.pageMap {0}) mapTwice (t.pageMap {0}) := by
  have blank : Blank blankPages {0} := by
    refine ⟨?_, ?_, ?_, fun f _ => rfl⟩
    · intro r mem
      rw [Finset.mem_singleton.mp mem]
      decide
    · exact fun r _ i _ => zero_invalid
    · decide
  have done : (replay (ptReplay {0}) blankPages mapTwice).isSome := by
    decide +kernel
  obtain ⟨t, ran⟩ := Option.isSome_iff_exists.mp done
  have run : Run (PtStep {0}) blankPages mapTwice t :=
    run_mono (fun s e t => pt_replay_step) (replay_run ran)
  exact ⟨t, run, (page_tables_refine_map blank run).1⟩

end Ucore.PageTable
