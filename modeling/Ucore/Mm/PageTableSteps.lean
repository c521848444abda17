import Ucore.Lib.Holders
import Ucore.Mm.PageTable

/- The places of the tables in the directories, and what `get_pte` does to them. -/
namespace Ucore.PageTable
open Programs

/-- What a page is in a directory: the directory itself, the table of entry `i` of it, or the table
of entry `j` of that one. -/
inductive Place where
  | top (r : Nat)
  | mid (r i : Nat)
  | leaf (r i j : Nat)

def userDirs : Nat := 2

/-- The place of the table that an entry of a directory or of a table of it leads to. -/
def Place.child : Place → Nat → Option Place
  | .top r, i => if i < userDirs then some (.mid r i) else none
  | .mid r i, j => if j < 512 then some (.leaf r i j) else none
  | .leaf .., _ => none

/-- Each table of the directories `dirs` has one place, in which it is found. -/
structure Placed (s : PmmState) (dirs : Finset Nat) (place : Nat → Option Place) : Prop where
  top : ∀ r ∈ dirs, place r = some (.top r)
  step : ∀ t x i y, place t = some x → x.child i = some y → Valid (s.mem t i) →
    place (ptePage (s.mem t i)) = some y
  data : ∀ t r i j, place t = some (.leaf r i j) → ∀ k < 512, Valid (s.mem t k) →
    place (ptePage (s.mem t k)) = none ∧ ptePage (s.mem t k) ∉ s.free ∧ ptePage (s.mem t k) < s.npage
  found : ∀ t y, place t = some y → (t ∈ dirs ∧ y = .top t) ∨
    ∃ t' x i, place t' = some x ∧ x.child i = some y ∧ Valid (s.mem t' i) ∧ ptePage (s.mem t' i) = t
  used : ∀ t x, place t = some x → t ∉ s.free ∧ t < s.npage
  range : ∀ p ∈ s.free, p < s.npage

/- The table that an entry leads to. -/
def PmmState.tableOf (s : PmmState) (t i : Nat) : Option Nat :=
  if Valid (s.mem t i) then some (ptePage (s.mem t i)) else none

def PmmState.leafTable (s : PmmState) (r la : Nat) : Option Nat :=
  (s.tableOf r (PDX1 la)).bind fun pd0 => s.tableOf pd0 (PDX0 la)

/-- The page and the permissions that an address is translated to. -/
def PmmState.translate (s : PmmState) (r la : Nat) : Option (Nat × Nat) :=
  (s.leafTable r la).bind fun pt =>
    if Valid (s.mem pt (PTX la)) then some (ptePage (s.mem pt (PTX la)), s.mem pt (PTX la) % 1024)
    else none

section
variable {s u v : PmmState} {dirs : Finset Nat} {place place' place'' : Nat → Option Place}
  {r la t i j k p q type : Nat} {create : Bool}

theorem page_create (small : type < 1024) : ptePage (pteCreate p type) = p := by
  unfold ptePage pteCreate PTE_PPN_SHIFT PTE_V
  rw [Nat.shiftRight_or_distrib, Nat.shiftRight_or_distrib, Nat.shiftLeft_shiftRight,
    Nat.shiftRight_eq_div_pow, Nat.shiftRight_eq_div_pow, Nat.div_eq_of_lt (by decide),
    Nat.div_eq_of_lt small, Nat.or_zero, Nat.or_zero]

theorem valid_iff {pte : Nat} : Valid pte ↔ pte % 2 = 1 := by
  unfold Valid PTE_V
  rw [Nat.and_one_is_mod]
  omega

theorem create_valid : Valid (pteCreate p type) := by
  rw [valid_iff]
  unfold pteCreate PTE_V
  rw [Nat.or_mod_two_eq_one, Nat.or_mod_two_eq_one]
  exact Or.inl (Or.inr rfl)

theorem create_perm (small : type < 1024) : pteCreate p type % 1024 = PTE_V ||| type := by
  unfold pteCreate PTE_PPN_SHIFT PTE_V
  have low := Nat.or_mod_two_pow (a := p <<< 10 ||| 1) (b := type) (n := 10)
  have lower := Nat.or_mod_two_pow (a := p <<< 10) (b := 1) (n := 10)
  rw [Nat.shiftLeft_eq, Nat.mul_mod_left, Nat.zero_or] at lower
  rw [← Nat.shiftLeft_eq] at lower
  rw [lower, Nat.mod_eq_of_lt small] at low
  exact low

theorem zero_invalid : ¬ Valid 0 := by decide

theorem pdx1_eq : PDX1 la = la / 1073741824 % 512 := by
  unfold PDX1 PDX1SHIFT
  rw [Nat.shiftRight_eq_div_pow, show (0x1FF : Nat) = 2 ^ 9 - 1 from rfl, Nat.and_two_pow_sub_one_eq_mod]

theorem pdx0_eq : PDX0 la = la / 2097152 % 512 := by
  unfold PDX0 PDX0SHIFT
  rw [Nat.shiftRight_eq_div_pow, show (0x1FF : Nat) = 2 ^ 9 - 1 from rfl, Nat.and_two_pow_sub_one_eq_mod]

theorem ptx_eq : PTX la = la / 4096 % 512 := by
  unfold PTX PTXSHIFT
  rw [Nat.shiftRight_eq_div_pow, show (0x1FF : Nat) = 2 ^ 9 - 1 from rfl, Nat.and_two_pow_sub_one_eq_mod]

theorem ppn_eq : PPN la = la / 4096 := by
  unfold PPN PTXSHIFT
  rw [Nat.shiftRight_eq_div_pow]

theorem user_dir (user : la < USERTOP) : PDX1 la < userDirs := by
  rw [pdx1_eq]
  unfold USERTOP at user
  unfold userDirs
  omega

theorem pdx0_lt : PDX0 la < 512 := by
  rw [pdx0_eq]
  exact Nat.mod_lt _ (by decide)

theorem ptx_lt : PTX la < 512 := by
  rw [ptx_eq]
  exact Nat.mod_lt _ (by decide)

/- The three indices of a user address determine its page. -/
theorem same_page {la' : Nat} (user : la < USERTOP) (user' : la' < USERTOP) (one : PDX1 la = PDX1 la')
    (zero : PDX0 la = PDX0 la') (leaf : PTX la = PTX la') : PPN la = PPN la' := by
  rw [pdx1_eq, pdx1_eq] at one
  rw [pdx0_eq, pdx0_eq] at zero
  rw [ptx_eq, ptx_eq] at leaf
  rw [ppn_eq, ppn_eq]
  unfold USERTOP at user user'
  omega

theorem indices_of_page {la' : Nat} (same : PPN la = PPN la') :
    PDX1 la = PDX1 la' ∧ PDX0 la = PDX0 la' ∧ PTX la = PTX la' := by
  rw [ppn_eq, ppn_eq] at same
  rw [pdx1_eq, pdx1_eq, pdx0_eq, pdx0_eq, ptx_eq, ptx_eq]
  omega

theorem translate_page {la' : Nat} (same : PPN la = PPN la') : s.translate r la = s.translate r la' := by
  obtain ⟨one, zero, leaf⟩ := indices_of_page same
  unfold PmmState.translate PmmState.leafTable
  rw [one, zero, leaf]

/-- What the creation of tables does: all that is there stays, and new leaf tables are empty. -/
structure Grown (s : PmmState) (place : Nat → Option Place) (u : PmmState) (place' : Nat → Option Place)
    (dirs : Finset Nat) : Prop where
  placed : Placed u dirs place'
  npage : u.npage = s.npage
  same : ∀ r ∈ dirs, ∀ la < USERTOP, u.translate r la = s.translate r la
  stays : ∀ t x, place t = some x → place' t = some x
  new : ∀ t, place t = none → place' t = none ∨ t ∈ s.free
  fewer : u.free ⊆ s.free
  taken : ∀ t ∈ s.free, t ∈ u.free ∨ place' t ≠ none
  ref : ∀ t, place' t = none → u.ref t = s.ref t
  empty : ∀ t r i j, place t = none → place' t = some (.leaf r i j) → u.mem t = fun _ => 0

theorem grown_refl (placed : Placed s dirs place) : Grown s place s place dirs where
  placed := placed
  npage := rfl
  same := fun _ _ _ _ => rfl
  stays := fun _ _ here => here
  new := fun _ none_there => Or.inl none_there
  fewer := Finset.Subset.refl _
  taken := fun _ mem => Or.inl mem
  ref := fun _ _ => rfl
  empty := fun t r i j none_there here => by
    rw [none_there] at here
    cases here

theorem placed_answers {answers : List (Option Nat)} (placed : Placed s dirs place) :
    Placed { s with answers } dirs place :=
  ⟨placed.top, placed.step, placed.data, placed.found, placed.used, placed.range⟩

theorem grown_answers {answers : List (Option Nat)} (placed : Placed s dirs place) :
    Grown s place { s with answers } place dirs :=
  { grown_refl placed with placed := placed_answers placed, same := fun _ _ _ _ => rfl }

theorem grown_trans (first : Grown s place u place' dirs) (second : Grown u place' v place'' dirs)
    (kept : ∀ t r i j, place t = none → place' t = some (.leaf r i j) → v.mem t = u.mem t) :
    Grown s place v place'' dirs where
  placed := second.placed
  npage := second.npage.trans first.npage
  same := fun r mem la user => (second.same r mem la user).trans (first.same r mem la user)
  stays := fun t x here => second.stays t x (first.stays t x here)
  new := fun t none_there => by
    rcases first.new t none_there with still | was_free
    · rcases second.new t still with later | was_free
      · exact Or.inl later
      · exact Or.inr (first.fewer was_free)
    · exact Or.inr was_free
  fewer := second.fewer.trans first.fewer
  taken := fun t mem => by
    rcases first.taken t mem with still | placed_there
    · exact second.taken t still
    · obtain ⟨x, here⟩ := Option.ne_none_iff_exists'.mp placed_there
      refine Or.inr ?_
      rw [second.stays t x here]
      exact Option.some_ne_none x
  ref := fun t none_there => by
    have before : place' t = none := by
      by_contra placed_there
      obtain ⟨x, here⟩ := Option.ne_none_iff_exists'.mp placed_there
      rw [second.stays t x here] at none_there
      cases none_there
    exact (second.ref t none_there).trans (first.ref t before)
  empty := fun t r i j none_there here => by
    cases middle : place' t with
    | none => exact second.empty t r i j middle here
    | some x =>
      have same := second.stays t x middle
      rw [here] at same
      cases same
      rw [kept t r i j none_there middle]
      exact first.empty t r i j none_there middle

theorem free_not_placed (placed : Placed s dirs place) (mem : p ∈ s.free) : place p = none := by
  cases here : place p with
  | none => rfl
  | some x => exact absurd mem (placed.used p x here).1

theorem child_inj {x x' y : Place} (one : x.child i = some y) (two : x'.child j = some y) :
    x = x' ∧ i = j := by
  cases x <;> cases x' <;> simp only [Place.child] at one two <;> grind

theorem child_leaf {x : Place} (child : x.child k = some (.leaf r i j)) :
    x = .mid r i ∧ k = j ∧ j < 512 := by
  cases x <;> simp only [Place.child] at child <;> grind

theorem child_mid {x : Place} (child : x.child k = some (.mid r i)) :
    x = .top r ∧ k = i ∧ i < userDirs := by
  cases x <;> simp only [Place.child] at child <;> grind

theorem child_top {x : Place} : x.child k ≠ some (.top r) := by
  cases x <;> simp only [Place.child] <;> grind

/- A page that was free becomes the table of an entry. -/
def PmmState.link (s : PmmState) (t i p : Nat) : PmmState :=
  { s with
    answers := s.answers.tail
    free := s.free.erase p
    ref := Function.update s.ref p 1
    mem := Function.update (Function.update s.mem p fun _ => 0) t
      (Function.update (s.mem t) i (pteCreate p (PTE_U ||| PTE_V))) }

theorem link_mem : (s.link t i p).mem = Function.update (Function.update s.mem p fun _ => 0) t
    (Function.update (s.mem t) i (pteCreate p (PTE_U ||| PTE_V))) := rfl

theorem link_entry : (s.link t i p).mem t i = pteCreate p (PTE_U ||| PTE_V) := by
  rw [link_mem]
  rw [Function.update_self, Function.update_self]

theorem link_new (apart : p ≠ t) : (s.link t i p).mem p = fun _ => 0 := by
  rw [link_mem]
  rw [Function.update_of_ne apart, Function.update_self]

theorem link_other {t' : Nat} (apart : t' ≠ p) (other : t' = t → j ≠ i) :
    (s.link t i p).mem t' j = s.mem t' j := by
  rw [link_mem]
  by_cases same : t' = t
  · subst t'
    rw [Function.update_self, Function.update_of_ne (other rfl)]
  · rw [Function.update_of_ne same, Function.update_of_ne apart]

theorem link_placed {x y : Place} (placed : Placed s dirs place) (here : place t = some x)
    (child : x.child i = some y) (invalid : ¬ Valid (s.mem t i)) (free : p ∈ s.free) :
    Placed (s.link t i p) dirs (Function.update place p (some y)) := by
  have new := free_not_placed placed free
  have differs : ∀ t' z, place t' = some z → t' ≠ p := by
    rintro t' z there rfl
    rw [new] at there
    cases there
  have apart := differs t x here
  have places : ∀ t' z, place t' = some z → Function.update place p (some y) t' = some z := by
    intro t' z there
    rw [Function.update_of_ne (differs t' z there)]
    exact there
  constructor
  · exact fun r mem => places r _ (placed.top r mem)
  · intro t' x' j y' there child' valid
    by_cases fresh : t' = p
    · subst t'
      rw [link_new apart.symm] at valid
      exact absurd valid zero_invalid
    · rw [Function.update_of_ne fresh] at there
      by_cases same : t' = t ∧ j = i
      · obtain ⟨rfl, rfl⟩ := same
        cases here.symm.trans there
        cases child.symm.trans child'
        rw [link_entry, page_create (by decide), Function.update_self]
      · have old := link_other (s := s) (i := i) fresh (fun equal other => same ⟨equal, other⟩)
        rw [old] at valid ⊢
        exact places _ _ (placed.step t' x' j y' there child' valid)
  · intro t' r i' j there k low valid
    by_cases fresh : t' = p
    · subst t'
      rw [link_new apart.symm] at valid
      exact absurd valid zero_invalid
    · rw [Function.update_of_ne fresh] at there
      have other : t' ≠ t := by
        rintro rfl
        cases here.symm.trans there
        cases child
      have old := link_other (s := s) (i := i) (j := k) fresh (fun equal => absurd equal other)
      rw [old] at valid ⊢
      obtain ⟨none_there, not_free, bounded⟩ := placed.data t' r i' j there k low valid
      have page : ptePage (s.mem t' k) ≠ p := by
        intro equal
        rw [equal] at not_free
        exact not_free free
      rw [Function.update_of_ne page]
      exact ⟨none_there, fun mem => not_free (Finset.mem_of_mem_erase mem), bounded⟩
  · intro t' y' there
    by_cases fresh : t' = p
    · subst t'
      rw [Function.update_self] at there
      cases there
      refine Or.inr ⟨t, x, i, places t x here, child, ?_, ?_⟩
      · rw [link_entry]
        exact create_valid
      · rw [link_entry, page_create (by decide)]
    · rw [Function.update_of_ne fresh] at there
      rcases placed.found t' y' there with top | ⟨parent, x', j, above, child', valid, leads⟩
      · exact Or.inl top
      · have old := link_other (s := s) (t := t) (i := i) (j := j) (differs parent x' above) (by
          rintro rfl rfl
          exact invalid valid)
        exact Or.inr ⟨parent, x', j, places parent x' above, child', by rw [old]; exact valid,
          by rw [old]; exact leads⟩
  · intro t' x' there
    by_cases fresh : t' = p
    · subst t'
      exact ⟨Finset.notMem_erase p s.free, placed.range p free⟩
    · rw [Function.update_of_ne fresh] at there
      obtain ⟨not_free, bounded⟩ := placed.used t' x' there
      exact ⟨fun mem => not_free (Finset.mem_of_mem_erase mem), bounded⟩
  · exact fun q mem => placed.range q (Finset.mem_of_mem_erase mem)

theorem table_of_valid (valid : Valid (s.mem t i)) : s.tableOf t i = some (ptePage (s.mem t i)) :=
  if_pos valid

theorem table_of_invalid (invalid : ¬ Valid (s.mem t i)) : s.tableOf t i = none := if_neg invalid

theorem table_place {x y : Place} (placed : Placed s dirs place) (here : place t = some x)
    (child : x.child i = some y) (leads : s.tableOf t i = some p) : place p = some y := by
  unfold PmmState.tableOf at leads
  by_cases valid : Valid (s.mem t i)
  · rw [if_pos valid] at leads
    cases leads
    exact placed.step t x i y here child valid
  · rw [if_neg valid] at leads
    cases leads

theorem top_child (low : i < userDirs) : (Place.top r).child i = some (.mid r i) := if_pos low

theorem mid_child (low : j < 512) : (Place.mid r i).child j = some (.leaf r i j) := if_pos low

theorem leaf_place {pt : Nat} (placed : Placed s dirs place) (mem : r ∈ dirs) (user : la < USERTOP)
    (leads : s.leafTable r la = some pt) : place pt = some (.leaf r (PDX1 la) (PDX0 la)) := by
  unfold PmmState.leafTable at leads
  obtain ⟨pd0, first, second⟩ := Option.bind_eq_some_iff.mp leads
  have middle := table_place placed (placed.top r mem) (top_child (user_dir user)) first
  exact table_place placed middle (mid_child pdx0_lt) second

/- A new table with no valid entry translates nothing. -/
theorem link_translate {x y : Place} (placed : Placed s dirs place) (here : place t = some x)
    (child : x.child i = some y) (invalid : ¬ Valid (s.mem t i)) (free : p ∈ s.free) (mem : r ∈ dirs)
    (user : la < USERTOP) : (s.link t i p).translate r la = s.translate r la := by
  have new := free_not_placed placed free
  have differs : ∀ t' z, place t' = some z → t' ≠ p := by
    rintro t' z there rfl
    rw [new] at there
    cases there
  have apart := (differs t x here).symm
  have here_none : s.tableOf t i = none := table_of_invalid invalid
  have here_new : (s.link t i p).tableOf t i = some p := by
    rw [table_of_valid (by rw [link_entry]; exact create_valid), link_entry, page_create (by decide)]
  have empty : ∀ k, ¬ Valid ((s.link t i p).mem p k) := by
    intro k
    rw [link_new apart]
    exact zero_invalid
  have kept : ∀ t' z j, place t' = some z → ¬ (t' = t ∧ j = i) →
      (s.link t i p).mem t' j = s.mem t' j :=
    fun t' z j there other => link_other (differs t' z there) fun equal same => other ⟨equal, same⟩
  have kept_table : ∀ t' z j, place t' = some z → ¬ (t' = t ∧ j = i) →
      (s.link t i p).tableOf t' j = s.tableOf t' j := by
    intro t' z j there other
    unfold PmmState.tableOf
    rw [kept t' z j there other]
  have root := placed.top r mem
  unfold PmmState.translate PmmState.leafTable
  by_cases first : r = t ∧ PDX1 la = i
  · rw [first.1, first.2, here_none, here_new, Option.bind_some, table_of_invalid (empty _)]
    rfl
  · rw [kept_table r _ _ root first]
    cases one : s.tableOf r (PDX1 la) with
    | none => rfl
    | some pd0 =>
      have middle := table_place placed root (top_child (user_dir user)) one
      rw [Option.bind_some, Option.bind_some]
      by_cases second : pd0 = t ∧ PDX0 la = i
      · rw [second.1, second.2, here_none, here_new, Option.bind_some, if_neg (empty _)]
        rfl
      · rw [kept_table pd0 _ _ middle second]
        cases two : s.tableOf pd0 (PDX0 la) with
        | none => rfl
        | some pt =>
          have last := table_place placed middle (mid_child pdx0_lt) two
          rw [Option.bind_some, Option.bind_some, kept pt _ _ last]
          rintro ⟨rfl, _⟩
          cases here.symm.trans last
          cases child

theorem link_grown {x y : Place} (placed : Placed s dirs place) (here : place t = some x)
    (child : x.child i = some y) (invalid : ¬ Valid (s.mem t i)) (free : p ∈ s.free) :
    Grown s place (s.link t i p) (Function.update place p (some y)) dirs := by
  have new := free_not_placed placed free
  have apart : p ≠ t := by
    rintro rfl
    rw [new] at here
    cases here
  refine ⟨link_placed placed here child invalid free, rfl, ?_, ?_, ?_, ?_, ?_, ?_, ?_⟩
  · exact fun r mem la user => link_translate placed here child invalid free mem user
  · intro t' z there
    have differs : t' ≠ p := by
      rintro rfl
      rw [new] at there
      cases there
    rw [Function.update_of_ne differs]
    exact there
  · intro t' none_there
    by_cases same : t' = p
    · subst t'
      exact Or.inr free
    · rw [Function.update_of_ne same]
      exact Or.inl none_there
  · exact Finset.erase_subset p s.free
  · intro t' mem
    by_cases same : t' = p
    · subst t'
      rw [Function.update_self]
      exact Or.inr (Option.some_ne_none y)
    · exact Or.inl (Finset.mem_erase.mpr ⟨same, mem⟩)
  · intro t' none_there
    have differs : t' ≠ p := by
      rintro rfl
      rw [Function.update_self] at none_there
      cases none_there
    exact Function.update_of_ne differs ..
  · intro t' r i' j none_there there
    by_cases same : t' = p
    · subst t'
      exact link_new apart
    · rw [Function.update_of_ne same, none_there] at there
      cases there

theorem alloc_none_run (none_there : ∀ p, s.answers.head? = some (some p) → p ∉ s.free) :
    allocPage s = .ok (none, { s with answers := s.answers.tail }) := by
  unfold allocPage
  rw [run_get_bind, run_set_bind]
  cases answer : s.answers.head? with
  | none => rfl
  | some a =>
    cases a with
    | none => rfl
    | some p =>
      change (ite (p ∈ s.free) _ _ : PmmM (Option Nat)) _ = _
      rw [if_neg (none_there p answer)]
      rfl

theorem alloc_run (answer : s.answers.head? = some (some p)) (free : p ∈ s.free) :
    allocPage s = .ok (some p, { s with answers := s.answers.tail, free := s.free.erase p }) := by
  unfold allocPage
  rw [run_get_bind, run_set_bind, answer]
  change (ite (p ∈ s.free) _ _ : PmmM (Option Nat)) _ = _
  rw [if_pos free]
  rfl

theorem kaddr_run (bounded : p < s.npage) : kaddr p s = .ok (p, s) := by
  unfold kaddr
  rw [run_get_bind, run_check_bind bounded]
  rfl

theorem kaddr_bind {α : Type} {f : Nat → PmmM α} (bounded : p < s.npage) :
    (kaddr p >>= f) s = f p s :=
  run_bind (kaddr_run bounded)

theorem load_run : load t i s = .ok (s.mem t i, s) := rfl

theorem get_table_valid (valid : Valid (s.mem t i)) (bounded : ptePage (s.mem t i) < s.npage) :
    getTable t i create s = .ok (some (ptePage (s.mem t i)), s) := by
  unfold getTable
  rw [run_bind load_run, if_neg (not_not_intro valid)]
  change (load t i >>= _) s = _
  rw [run_bind load_run, run_bind (kaddr_run bounded)]
  rfl

theorem get_table_absent (invalid : ¬ Valid (s.mem t i)) : getTable t i false s = .ok (none, s) := by
  unfold getTable
  rw [run_bind load_run, if_pos invalid]
  rfl

theorem get_table_fails (invalid : ¬ Valid (s.mem t i))
    (none_there : ∀ p, s.answers.head? = some (some p) → p ∉ s.free) :
    getTable t i true s = .ok (none, { s with answers := s.answers.tail }) := by
  unfold getTable
  rw [run_bind load_run, if_pos invalid]
  change (allocPage >>= _) s = _
  rw [run_bind (alloc_none_run none_there)]
  rfl

theorem get_table_links (invalid : ¬ Valid (s.mem t i)) (answer : s.answers.head? = some (some p))
    (free : p ∈ s.free) (bounded : p < s.npage) (apart : p ≠ t) :
    getTable t i true s = .ok (some p, s.link t i p) := by
  have entry := link_entry (s := s) (t := t) (i := i) (p := p)
  have linked : PmmState.store { s with
      answers := s.answers.tail
      free := s.free.erase p
      ref := Function.update s.ref p 1
      mem := Function.update s.mem p fun _ => 0 } t i (pteCreate p (PTE_U ||| PTE_V)) = s.link t i p := by
    unfold PmmState.store PmmState.link
    simp only [Function.update_of_ne apart.symm]
  have page : ptePage ((s.link t i p).mem t i) = p := by
    rw [entry, page_create (by decide)]
  have again : (load t i >>= fun pde => kaddr (ptePage pde) >>= fun kva => pure (some kva))
      (s.link t i p) = .ok (some p, s.link t i p) := by
    rw [run_bind load_run, page, kaddr_bind]
    · rfl
    · exact bounded
  unfold getTable
  rw [run_bind load_run, if_pos invalid]
  change (allocPage >>= _) s = _
  rw [run_bind (alloc_run answer free)]
  change (setPageRef p 1 >>= _) _ = _
  unfold setPageRef
  rw [run_modify_bind, kaddr_bind]
  · unfold clearPage store
    rw [run_modify_bind, run_modify_bind]
    exact (congrArg _ linked).trans again
  · exact bounded

/-- What one level of `get_pte` does below a table of a directory. -/
theorem get_table_grows {x y : Place} (create : Bool) (placed : Placed s dirs place) (here : place t = some x)
    (child : x.child i = some y) : ∃ ret u place', getTable t i create s = .ok (ret, u) ∧
      Grown s place u place' dirs ∧ (∀ z, place z ≠ none → z ≠ t → u.mem z = s.mem z) ∧
      u.tableOf t i = ret ∧ (∀ j, j ≠ i → u.mem t j = s.mem t j) ∧
      (ret = none → u.mem = s.mem ∧ place' = place) ∧ (s.tableOf t i ≠ none → u = s) ∧
      (∀ z, place z = none → place' z ≠ none → u.mem z = fun _ => 0) ∧
      (create = false → u = s) := by
  by_cases valid : Valid (s.mem t i)
  · have below := placed.step t x i y here child valid
    have bounded := (placed.used _ _ below).2
    refine ⟨_, s, place, get_table_valid valid bounded, grown_refl placed, fun _ _ _ => rfl,
      table_of_valid valid, fun _ _ => rfl, nofun, fun _ => rfl, ?_, fun _ => rfl⟩
    exact fun z none_there there => absurd none_there there
  · have nothing := table_of_invalid valid
    cases create with
    | false =>
      refine ⟨none, s, place, get_table_absent valid, grown_refl placed, fun _ _ _ => rfl, nothing,
        fun _ _ => rfl, fun _ => ⟨rfl, rfl⟩, fun _ => rfl, ?_, fun _ => rfl⟩
      exact fun z none_there there => absurd none_there there
    | true =>
      by_cases answer : ∃ p, s.answers.head? = some (some p) ∧ p ∈ s.free
      · obtain ⟨p, answer, free⟩ := answer
        have new := free_not_placed placed free
        have apart : p ≠ t := by
          rintro rfl
          rw [new] at here
          cases here
        refine ⟨some p, s.link t i p, _, get_table_links valid answer free (placed.range p free) apart,
          link_grown placed here child valid free, ?_, ?_, ?_, nofun, fun some => absurd nothing some, ?_,
          nofun⟩
        · intro z there other
          have differs : z ≠ p := by
            rintro rfl
            exact there new
          rw [link_mem, Function.update_of_ne other, Function.update_of_ne differs]
        · rw [table_of_valid (by rw [link_entry]; exact create_valid), link_entry, page_create (by decide)]
        · exact fun j other => link_other apart.symm fun _ => other
        · intro z none_there there
          by_cases same : z = p
          · subst z
            exact link_new apart
          · rw [Function.update_of_ne same] at there
            exact absurd none_there there
      · have none_there : ∀ p, s.answers.head? = some (some p) → p ∉ s.free :=
          fun p head free => answer ⟨p, head, free⟩
        refine ⟨none, _, place, get_table_fails valid none_there, grown_answers placed,
          fun _ _ _ => rfl, nothing, fun _ _ => rfl, fun _ => ⟨rfl, rfl⟩, fun some => absurd nothing some,
          ?_, nofun⟩
        exact fun z none_there there => absurd none_there there

theorem get_pte_grows (create : Bool) (placed : Placed s dirs place) (mem : r ∈ dirs) (user : la < USERTOP) :
    ∃ ret u place', getPte r la create s = .ok (ret, u) ∧ Grown s place u place' dirs ∧
      ret = (u.leafTable r la).map (fun pt => (pt, PTX la)) ∧
      (ret = none → s.leafTable r la = none ∧
        ∀ z, place z = none → place' z ≠ none → u.mem z = fun _ => 0) ∧
      (create = false → u = s) := by
  have root := placed.top r mem
  obtain ⟨one, u, place', ran, grown, others, entry, _, failed, known, empty, asked⟩ :=
    get_table_grows create placed root (top_child (user_dir user))
  unfold getPte
  rw [run_bind ran]
  cases one with
  | none =>
    refine ⟨none, u, place', rfl, grown, ?_, fun _ => ⟨?_, empty⟩, asked⟩
    · unfold PmmState.leafTable
      rw [entry]
      rfl
    · unfold PmmState.leafTable PmmState.tableOf at *
      rw [(failed rfl).1] at entry
      rw [entry]
      rfl
  | some pd0 =>
    have middle := table_place grown.placed (grown.placed.top r mem) (top_child (user_dir user)) entry
    obtain ⟨two, v, place'', ran', grown', others', entry', _, failed', _, _, asked'⟩ :=
      get_table_grows create grown.placed middle (mid_child (j := PDX0 la) pdx0_lt)
    have apart : r ≠ pd0 := by
      rintro rfl
      cases (grown.placed.top r mem).symm.trans middle
    have root_kept : v.mem r = u.mem r := by
      apply others' r _ apart
      rw [grown.placed.top r mem]
      exact Option.some_ne_none _
    have first : v.tableOf r (PDX1 la) = some pd0 := by
      unfold PmmState.tableOf at entry ⊢
      rw [root_kept]
      exact entry
    have both : Grown s place v place'' dirs := by
      refine grown_trans grown grown' ?_
      intro t r' i' j' none_there there
      apply others' t
      · rw [there]
        exact Option.some_ne_none _
      · rintro rfl
        cases middle.symm.trans there
    have all : v.leafTable r la = two := by
      unfold PmmState.leafTable
      rw [first]
      exact entry'
    dsimp only
    rw [run_bind ran']
    cases two with
    | none =>
      refine ⟨none, v, place'', rfl, both, ?_, fun _ => ⟨?_, ?_⟩, ?_⟩
      · rw [all]
        rfl
      · obtain ⟨same, _⟩ := failed' rfl
        cases before : s.tableOf r (PDX1 la) with
        | none =>
          unfold PmmState.leafTable
          rw [before]
          rfl
        | some q =>
          have unchanged := known (by rw [before]; exact Option.some_ne_none q)
          rw [unchanged] at same
          have leads : s.leafTable r la = v.leafTable r la := by
            unfold PmmState.leafTable PmmState.tableOf
            rw [same]
          rw [leads, all]
      · obtain ⟨same, places⟩ := failed' rfl
        intro z none_there there
        rw [places] at there
        rw [same]
        exact empty z none_there there
      · intro no
        rw [asked' no, asked no]
    | some pt =>
      refine ⟨some (pt, PTX la), v, place'', rfl, both, ?_, nofun, ?_⟩
      · rw [all]
        rfl
      · intro no
        rw [asked' no, asked no]

end

end Ucore.PageTable
