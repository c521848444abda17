import Ucore.Mm.ExitRange

/- What `exit_mmap` frees: when it gives back each table once, and only empty ones. -/
namespace Ucore.PageTable
open Programs Transitions

/-- The entry that leads to the table `f` has been cleared. -/
def Cleared (s c : PmmState) (place : Nat → Option Place) (f : Nat) : Prop :=
  ∃ t x i y, place t = some x ∧ x.child i = some y ∧ Valid (s.mem t i) ∧ ptePage (s.mem t i) = f ∧
    ¬ Valid (c.mem t i)

/-- From `s` to `c` entries that lead to tables have been cleared, and their tables returned. -/
structure Exiting (s c : PmmState) (place : Nat → Option Place) : Prop where
  npage : c.npage = s.npage
  ref : c.ref = s.ref
  mem : ∀ t i, c.mem t i = s.mem t i ∨
    (c.mem t i = 0 ∧ ∃ x y, place t = some x ∧ x.child i = some y ∧ Valid (s.mem t i))
  cleared : ∀ f, Cleared s c place f → c.returned.count f = s.returned.count f + 1
  kept : ∀ f, ¬ Cleared s c place f → c.returned.count f = s.returned.count f

/- An entry is cleared, and its table returned. -/
def PmmState.release (c : PmmState) (t i : Nat) : PmmState :=
  { c.store t i 0 with
    free := insert (ptePage (c.mem t i)) c.free
    returned := ptePage (c.mem t i) :: c.returned }

section
variable {s c : PmmState} {dirs : Finset Nat} {place : Nat → Option Place} {r t i j k g : Nat}

theorem place_top (placed : Placed s dirs place) (here : place t = some (.top r)) : t = r := by
  rcases placed.found t _ here with ⟨_, top⟩ | ⟨_, x, k, _, child, _⟩
  · cases top
    rfl
  · exact absurd child child_top

theorem place_mid (placed : Placed s dirs place) (here : place t = some (.mid r i)) :
    r ∈ dirs ∧ i < userDirs ∧ Valid (s.mem r i) ∧ ptePage (s.mem r i) = t := by
  rcases placed.found t _ here with ⟨_, top⟩ | ⟨root, x, k, above, child, valid, leads⟩
  · cases top
  · obtain ⟨rfl, rfl, low⟩ := child_mid child
    cases place_top placed above
    rcases placed.found _ _ above with ⟨dir, _⟩ | ⟨_, x, _, _, child', _⟩
    · exact ⟨dir, low, valid, leads⟩
    · exact absurd child' child_top

theorem place_inj (placed : Placed s dirs place) {t' : Nat} {x : Place} (here : place t = some x)
    (there : place t' = some x) : t = t' := by
  cases x with
  | top r => rw [place_top placed here, place_top placed there]
  | mid r i => rw [← (place_mid placed here).2.2.2, (place_mid placed there).2.2.2]
  | leaf r i j =>
    rcases placed.found t _ here with ⟨_, top⟩ | ⟨pd0, x, k, above, child, _, leads⟩
    · cases top
    rcases placed.found t' _ there with ⟨_, top⟩ | ⟨pd0', x', k', above', child', _, leads'⟩
    · cases top
    obtain ⟨rfl, rfl, _⟩ := child_leaf child
    obtain ⟨rfl, rfl, _⟩ := child_leaf child'
    have same : pd0 = pd0' := by
      rw [← (place_mid placed above).2.2.2, (place_mid placed above').2.2.2]
    rw [← leads, ← leads', same]

theorem exiting_refl : Exiting s s place := by
  refine ⟨rfl, rfl, fun _ _ => Or.inl rfl, ?_, fun _ _ => rfl⟩
  rintro f ⟨t, x, i, y, _, _, valid, _, invalid⟩
  exact absurd valid invalid

theorem release_self : (c.release t i).mem t i = 0 := by
  change Function.update c.mem t (Function.update (c.mem t) i 0) t i = 0
  rw [Function.update_self, Function.update_self]

theorem release_other {t' : Nat} (other : t' = t → j ≠ i) : (c.release t i).mem t' j = c.mem t' j := by
  change Function.update c.mem t (Function.update (c.mem t) i 0) t' j = _
  by_cases same : t' = t
  · subst t'
    rw [Function.update_self, Function.update_of_ne (other rfl)]
  · rw [Function.update_of_ne same]

/- An entry that is still valid is as it was. -/
theorem exiting_entry (exiting : Exiting s c place) (valid : Valid (c.mem t i)) : c.mem t i = s.mem t i := by
  rcases exiting.mem t i with same | ⟨zero, _⟩
  · exact same
  · rw [zero] at valid
    exact absurd valid zero_invalid

theorem release_exiting {x y : Place} (placed : Placed s dirs place) (exiting : Exiting s c place)
    (here : place t = some x) (child : x.child i = some y) (valid : Valid (c.mem t i)) :
    Exiting s (c.release t i) place := by
  have same := exiting_entry exiting valid
  have before : Valid (s.mem t i) := by
    rw [← same]
    exact valid
  -- only the entry itself leads to its table
  have only : ∀ t' x' i' y', place t' = some x' → x'.child i' = some y' → Valid (s.mem t' i') →
      ptePage (s.mem t' i') = ptePage (s.mem t i) → t' = t ∧ i' = i := by
    intro t' x' i' y' there child' valid' leads
    have one := placed.step t x i y here child before
    have two := placed.step t' x' i' y' there child' valid'
    rw [leads, one] at two
    cases two
    obtain ⟨rfl, rfl⟩ := child_inj child' child
    exact ⟨place_inj placed there here, rfl⟩
  have not_before : ¬ Cleared s c place (ptePage (s.mem t i)) := by
    rintro ⟨t', x', i', y', there, child', valid', leads, invalid⟩
    obtain ⟨rfl, rfl⟩ := only t' x' i' y' there child' valid' leads
    exact invalid valid
  have count : ∀ f, (c.release t i).returned.count f = c.returned.count f +
      if ptePage (s.mem t i) = f then 1 else 0 := by
    intro f
    change (ptePage (c.mem t i) :: c.returned).count f = _
    rw [same, List.count_cons]
    simp
  have now : ∀ f, Cleared s (c.release t i) place f ↔ Cleared s c place f ∨ ptePage (s.mem t i) = f := by
    intro f
    constructor
    · rintro ⟨t', x', i', y', there, child', valid', leads, invalid⟩
      by_cases equal : t' = t ∧ i' = i
      · obtain ⟨rfl, rfl⟩ := equal
        exact Or.inr leads
      · rw [release_other fun table entry => equal ⟨table, entry⟩] at invalid
        exact Or.inl ⟨t', x', i', y', there, child', valid', leads, invalid⟩
    · rintro (⟨t', x', i', y', there, child', valid', leads, invalid⟩ | rfl)
      · refine ⟨t', x', i', y', there, child', valid', leads, ?_⟩
        rw [release_other]
        · exact invalid
        · rintro rfl rfl
          exact invalid valid
      · refine ⟨t, x, i, y, here, child, before, rfl, ?_⟩
        rw [release_self]
        exact zero_invalid
  refine ⟨exiting.npage, exiting.ref, ?_, ?_, ?_⟩
  · intro t' j
    by_cases equal : t' = t ∧ j = i
    · obtain ⟨rfl, rfl⟩ := equal
      exact Or.inr ⟨release_self, x, y, here, child, before⟩
    · rw [release_other fun table entry => equal ⟨table, entry⟩]
      exact exiting.mem t' j
  · intro f cleared
    rw [count f]
    rcases (now f).mp cleared with earlier | rfl
    · have other : ptePage (s.mem t i) ≠ f := by
        rintro rfl
        exact not_before earlier
      rw [if_neg other, exiting.cleared f earlier]
    · rw [if_pos rfl, exiting.kept _ not_before]
  · intro f uncleared
    have other : ptePage (s.mem t i) ≠ f := fun equal => uncleared ((now f).mpr (Or.inr equal))
    rw [count f, if_neg other, exiting.kept f fun earlier => uncleared ((now f).mpr (Or.inl earlier)),
      Nat.add_zero]

/- No entry of the leaf tables of a directory is valid. -/
def Unmapped (s : PmmState) (place : Nat → Option Place) (r : Nat) : Prop :=
  ∀ t i j, place t = some (.leaf r i j) → ∀ k < 512, ¬ Valid (s.mem t k)

theorem exit_table_run (placed : Placed s dirs place) (unmapped : Unmapped s place r)
    (exiting : Exiting s c place) {pd0 d : Nat} (here : place pd0 = some (.mid r g)) (low : j < 512)
    (index : PDX0 d = j) : ∃ v c', exitTable pd0 d c = .ok (v, c') ∧ (v = true ↔ Valid (c.mem pd0 j)) ∧
      Exiting s c' place ∧ ¬ Valid (c'.mem pd0 j) ∧
      ∀ t k, (t = pd0 → k ≠ j) → c'.mem t k = c.mem t k := by
  unfold exitTable
  rw [run_bind load_run, index]
  by_cases valid : Valid (c.mem pd0 j)
  · rw [if_pos valid]
    have same := exiting_entry exiting valid
    have below := placed.step pd0 _ j _ here (mid_child low) (by rw [← same]; exact valid)
    have bounded := (placed.used _ _ below).2
    rw [← exiting.npage, ← same] at bounded
    have empty : ∀ k < NPTEENTRY, ¬ Valid (c.mem (ptePage (c.mem pd0 j)) k) := by
      intro k small
      rw [same]
      rcases exiting.mem (ptePage (s.mem pd0 j)) k with equal | ⟨zero, _⟩
      · rw [equal]
        exact unmapped _ _ _ below k small
      · rw [zero]
        exact zero_invalid
    rw [kaddr_bind bounded, run_get_bind, if_pos empty]
    refine ⟨true, c.release pd0 j, rfl, ?_, release_exiting placed exiting here (mid_child low) valid, ?_,
      fun t k other => release_other other⟩
    · simp [valid]
    · rw [release_self]
      exact zero_invalid
  · rw [if_neg valid]
    exact ⟨false, c, rfl, by simp [valid], exiting, valid, fun _ _ _ => rfl⟩

/- The inner loop clears the slots from `j` to `stop`. -/
theorem exit_tables_run (placed : Placed s dirs place) (unmapped : Unmapped s place r) {pd0 last to_ : Nat}
    (here : place pd0 = some (.mid r g)) (limit : to_ ≤ 512)
    (turns : ∀ k, k + 1 < to_ ↔ k + 1 < 512 ∧ g * PDSIZE + (k + 1) * PTSIZE < last) (fuel : Nat)
    (flag : Bool) (low : j < to_) (enough : to_ - j ≤ fuel) (exiting : Exiting s c place) :
    ∃ v c', exitTables pd0 (g * PDSIZE) last fuel (g * PDSIZE + j * PTSIZE) flag c = .ok (v, c') ∧
      (v = true ↔ flag = true ∧ ∀ k, j ≤ k → k < to_ → Valid (c.mem pd0 k)) ∧ Exiting s c' place ∧
      (∀ k, j ≤ k → k < to_ → ¬ Valid (c'.mem pd0 k)) ∧
      ∀ t k, (t = pd0 → ¬ (j ≤ k ∧ k < to_)) → c'.mem t k = c.mem t k := by
  induction fuel generalizing j c flag with
  | zero => omega
  | succ fuel ih =>
    have index : PDX0 (g * PDSIZE + j * PTSIZE) = j := by
      rw [pdx0_eq]
      unfold PDSIZE PTSIZE
      omega
    obtain ⟨v, c', ran, seen, exiting', gone, others⟩ :=
      exit_table_run placed unmapped exiting here (by omega) index
    have next : g * PDSIZE + j * PTSIZE + PTSIZE = g * PDSIZE + (j + 1) * PTSIZE := by
      unfold PTSIZE
      omega
    have more : (g * PDSIZE + (j + 1) * PTSIZE ≠ 0 ∧ g * PDSIZE + (j + 1) * PTSIZE < g * PDSIZE + PDSIZE ∧
        g * PDSIZE + (j + 1) * PTSIZE < last) ↔ j + 1 < to_ := by
      rw [turns j]
      unfold PTSIZE PDSIZE
      omega
    unfold exitTables
    rw [run_bind ran, next]
    by_cases again : j + 1 < to_
    · rw [if_pos (more.mpr again)]
      obtain ⟨w, c'', ran', seen', exiting'', gone', others'⟩ :=
        ih (flag && v) again (by omega) exiting'
      refine ⟨w, c'', ran', ?_, exiting'', ?_, ?_⟩
      · rw [seen', Bool.and_eq_true, seen]
        constructor
        · rintro ⟨⟨set, first⟩, rest⟩
          refine ⟨set, ?_⟩
          intro k from_ below
          by_cases now : k = j
          · rw [now]
            exact first
          · rw [← others pd0 k fun _ => now]
            exact rest k (by omega) below
        · rintro ⟨set, all⟩
          refine ⟨⟨set, all j (Nat.le_refl j) low⟩, ?_⟩
          intro k from_ below
          rw [others pd0 k fun _ => by omega]
          exact all k (by omega) below
      · intro k from_ below
        by_cases now : k = j
        · rw [now, others' pd0 j fun _ => by omega]
          exact gone
        · exact gone' k (by omega) below
      · intro t k outside
        rw [others' t k fun table => by have := outside table; omega]
        exact others t k fun table => by have := outside table; omega
    · rw [if_neg fun turn => again (more.mp turn)]
      have only : ∀ k, j ≤ k → k < to_ → k = j := by
        intro k from_ below
        omega
      refine ⟨flag && v, c', rfl, ?_, exiting', ?_, ?_⟩
      · rw [Bool.and_eq_true, seen]
        constructor
        · rintro ⟨set, first⟩
          refine ⟨set, fun k from_ below => ?_⟩
          rw [only k from_ below]
          exact first
        · exact fun ⟨set, all⟩ => ⟨set, all j (Nat.le_refl j) low⟩
      · intro k from_ below
        rw [only k from_ below]
        exact gone
      · intro t k outside
        exact others t k fun table => by have := outside table; omega

/-- The 2 MB slots of gigabyte `g` that a VMA reaches into. -/
def Vma.window (vma : Vma) (g : Nat) : Finset Nat := (Finset.range 512).filter fun j =>
  vma.vmStart < g * PDSIZE + (j + 1) * PTSIZE ∧ g * PDSIZE + j * PTSIZE < vma.vmEnd

/-- What `exit_range` does to a gigabyte whose slots `w` it goes through. -/
structure GigStep (c c' : PmmState) (r g pd0 : Nat) (w : Finset Nat) : Prop where
  root : Valid (c'.mem r g) ↔ Valid (c.mem r g) ∧ ¬ ∀ k ∈ w, Valid (c.mem pd0 k)
  slots : ∀ k, Valid (c'.mem pd0 k) ↔ Valid (c.mem pd0 k) ∧ ¬ (Valid (c.mem r g) ∧ k ∈ w)

theorem exit_dir_run (placed : Placed s dirs place) (unmapped : Unmapped s place r) (dir : r ∈ dirs)
    {last to_ : Nat} (user : g < userDirs) (limit : to_ ≤ 512) (low : j < to_)
    (turns : ∀ k, k + 1 < to_ ↔ k + 1 < 512 ∧ g * PDSIZE + (k + 1) * PTSIZE < last)
    (exiting : Exiting s c place) {w : Finset Nat} (window : ∀ k, k ∈ w ↔ j ≤ k ∧ k < to_) :
    ∃ c', exitDir r last (g * PDSIZE) (g * PDSIZE + j * PTSIZE) c = .ok ((), c') ∧
      Exiting s c' place ∧ GigStep c c' r g (ptePage (s.mem r g)) w ∧
      ∀ g', g' < userDirs → g' ≠ g → c'.mem r g' = c.mem r g' ∧
        (Valid (s.mem r g') → ∀ k, c'.mem (ptePage (s.mem r g')) k = c.mem (ptePage (s.mem r g')) k) := by
  have index : PDX1 (g * PDSIZE) = g := by
    rw [pdx1_eq]
    unfold PDSIZE
    unfold userDirs at user
    omega
  have root := placed.top r dir
  unfold exitDir
  rw [run_bind load_run, index]
  by_cases valid : Valid (c.mem r g)
  · have same := exiting_entry exiting valid
    have valid' : Valid (s.mem r g) := by
      rw [← same]
      exact valid
    have here := placed.step r _ g _ root (top_child user) valid'
    have bounded := (placed.used _ _ here).2
    rw [← exiting.npage] at bounded
    have apart : r ≠ ptePage (s.mem r g) := by
      intro equal
      rw [← equal, root] at here
      cases here
    obtain ⟨v, c', ran, seen, exiting', gone, others⟩ := exit_tables_run placed unmapped here limit
      turns NPTEENTRY true low (by unfold NPTEENTRY; omega) exiting
    have kept : c'.mem r g = c.mem r g := others r g fun equal => absurd equal apart
    have slots : ∀ k, Valid (c'.mem (ptePage (s.mem r g)) k) ↔
        Valid (c.mem (ptePage (s.mem r g)) k) ∧ ¬ (Valid (c.mem r g) ∧ k ∈ w) := by
      intro k
      by_cases inside : k ∈ w
      · have outcome := gone k ((window k).mp inside).1 ((window k).mp inside).2
        simp [outcome, valid, inside]
      · rw [others _ k fun _ between => inside ((window k).mpr between)]
        simp [inside]
    have elsewhere : ∀ g', g' < userDirs → g' ≠ g → c'.mem r g' = c.mem r g' ∧ (Valid (s.mem r g') →
        ∀ k, c'.mem (ptePage (s.mem r g')) k = c.mem (ptePage (s.mem r g')) k) := by
      intro g' user' other
      refine ⟨others r g' fun equal => absurd equal apart, ?_⟩
      intro there k
      apply others
      intro equal
      have second := placed.step r _ g' _ root (top_child user') there
      rw [equal, here] at second
      cases second
      exact absurd rfl other
    have all : v = true ↔ ∀ k ∈ w, Valid (c.mem (ptePage (s.mem r g)) k) := by
      rw [seen]
      constructor
      · exact fun both k inside => both.2 k ((window k).mp inside).1 ((window k).mp inside).2
      · exact fun full => ⟨rfl, fun k from_ below => full k ((window k).mpr ⟨from_, below⟩)⟩
    rw [if_pos valid, same, kaddr_bind bounded, run_bind ran]
    by_cases full : v = true
    · rw [if_pos full]
      refine ⟨c'.release r g, ?_, release_exiting placed exiting' root (top_child user) ?_, ⟨?_, ?_⟩, ?_⟩
      · unfold PmmState.release
        rw [kept, same]
        rfl
      · rw [kept]
        exact valid
      · rw [release_self]
        exact ⟨fun valid => absurd valid zero_invalid, fun both => absurd (all.mp full) both.2⟩
      · intro k
        rw [release_other fun equal => absurd equal.symm apart]
        exact slots k
      · intro g' user' other
        obtain ⟨entry, table⟩ := elsewhere g' user' other
        refine ⟨(release_other fun _ => other).trans entry, ?_⟩
        intro there k
        have second := placed.step r _ g' _ root (top_child user') there
        rw [release_other, table there k]
        intro equal
        rw [equal, root] at second
        cases second
    · rw [if_neg full]
      refine ⟨c', rfl, exiting', ⟨?_, slots⟩, elsewhere⟩
      rw [kept, ← all]
      simp [valid, full]
  · rw [if_neg valid]
    refine ⟨c, rfl, exiting, ⟨?_, ?_⟩, fun _ _ _ => ⟨rfl, fun _ _ => rfl⟩⟩
    · simp [valid]
    · simp [valid]

/- A gigabyte after `exit_range` of a VMA. -/
def Passed (s c c' : PmmState) (r g : Nat) (w : Finset Nat) : Prop :=
  if w = ∅ then c'.mem r g = c.mem r g ∧
    ∀ k, c'.mem (ptePage (s.mem r g)) k = c.mem (ptePage (s.mem r g)) k
  else GigStep c c' r g (ptePage (s.mem r g)) w

/-- A `vma_struct` of a process: its bounds are those of pages of the user. -/
def Vma.Proper (vma : Vma) : Prop :=
  (vma.vmStart % PGSIZE = 0 ∧ vma.vmEnd % PGSIZE = 0) ∧ UserAccess vma.vmStart vma.vmEnd

theorem window_mem {vma : Vma} : k ∈ vma.window g ↔ k < 512 ∧
    vma.vmStart < g * PDSIZE + (k + 1) * PTSIZE ∧ g * PDSIZE + k * PTSIZE < vma.vmEnd := by
  unfold Vma.window
  rw [Finset.mem_filter, Finset.mem_range]

theorem exit_window_run (vma : Vma) (placed : Placed s dirs place) (unmapped : Unmapped s place r)
    (dir : r ∈ dirs) (user : g < userDirs) (exiting : Exiting s c place) (inside : j < 512)
    (starts : ∀ k < 512, vma.vmStart < g * PDSIZE + (k + 1) * PTSIZE ↔ j ≤ k)
    (some_slot : g * PDSIZE + j * PTSIZE < vma.vmEnd) :
    ∃ c', exitDir r vma.vmEnd (g * PDSIZE) (g * PDSIZE + j * PTSIZE) c = .ok ((), c') ∧
      Exiting s c' place ∧ Passed s c c' r g (vma.window g) ∧
      ∀ g', g' < userDirs → g' ≠ g → c'.mem r g' = c.mem r g' ∧
        (Valid (s.mem r g') → ∀ k, c'.mem (ptePage (s.mem r g')) k = c.mem (ptePage (s.mem r g')) k) := by
  obtain ⟨to_, bound⟩ : ∃ to_, to_ = min 512 ((vma.vmEnd - g * PDSIZE + (PTSIZE - 1)) / PTSIZE) := ⟨_, rfl⟩
  have turns : ∀ k, k < to_ ↔ k < 512 ∧ g * PDSIZE + k * PTSIZE < vma.vmEnd := by
    intro k
    rw [bound]
    unfold PTSIZE
    omega
  have window : ∀ k, k ∈ vma.window g ↔ j ≤ k ∧ k < to_ := by
    intro k
    rw [window_mem, turns k]
    constructor
    · exact fun ⟨low, after, before⟩ => ⟨(starts k low).mp after, low, before⟩
    · exact fun ⟨after, low, before⟩ => ⟨low, (starts k low).mpr after, before⟩
  have low : j < to_ := (turns j).mpr ⟨inside, some_slot⟩
  have limit : to_ ≤ 512 := by omega
  obtain ⟨c', ran, exiting', step, others⟩ := exit_dir_run placed unmapped dir user limit low
    (fun k => turns (k + 1)) exiting window
  refine ⟨c', ran, exiting', ?_, others⟩
  unfold Passed
  rw [if_neg]
  · exact step
  · intro empty
    have member := (window j).mpr ⟨Nat.le_refl j, low⟩
    rw [empty] at member
    exact absurd member (Finset.notMem_empty j)

theorem window_empty {vma : Vma} (apart : ∀ k < 512, ¬ (vma.vmStart < g * PDSIZE + (k + 1) * PTSIZE ∧
    g * PDSIZE + k * PTSIZE < vma.vmEnd)) : vma.window g = ∅ := by
  apply Finset.eq_empty_of_forall_notMem
  intro k member
  obtain ⟨low, both⟩ := window_mem.mp member
  exact apart k low both

theorem exit_dirs_turn {c' : PmmState} {last d1 d0 fuel : Nat}
    (ran : exitDir r last d1 d0 c = .ok ((), c')) : exitDirs r last (fuel + 1) d1 d0 c =
      (if d1 + PDSIZE ≠ 0 ∧ d1 + PDSIZE < last then exitDirs r last fuel (d1 + PDSIZE) (d1 + PDSIZE)
      else pure ()) c' :=
  run_bind ran

theorem both_gigabytes {P : Nat → Prop} (zero : P 0) (one : P 1) : ∀ g < userDirs, P g
  | 0, _ => zero
  | 1, _ => one
  | g + 2, low => absurd low (by unfold userDirs; omega)

set_option maxRecDepth 4000 in
theorem exit_range_run (placed : Placed s dirs place) (unmapped : Unmapped s place r) (dir : r ∈ dirs)
    {vma : Vma} (proper : vma.Proper) (exiting : Exiting s c place) :
    ∃ c', exitRange r vma.vmStart vma.vmEnd c = .ok ((), c') ∧ Exiting s c' place ∧
      ∀ g < userDirs, Valid (s.mem r g) → Passed s c c' r g (vma.window g) := by
  obtain ⟨aligned, access⟩ := proper
  obtain ⟨base, nonempty, top⟩ := id access
  unfold USERTOP at top
  unfold exitRange
  rw [run_check_bind aligned, run_check_bind access]
  by_cases first : vma.vmStart < PDSIZE
  · -- the VMA starts in the first gigabyte
    have d1 : roundDown vma.vmStart PDSIZE = 0 * PDSIZE := by
      unfold roundDown PDSIZE at *
      omega
    have d0 : roundDown vma.vmStart PTSIZE = 0 * PDSIZE + vma.vmStart / PTSIZE * PTSIZE := by
      unfold roundDown PTSIZE
      omega
    obtain ⟨c', ran, exiting', passed, others⟩ := exit_window_run (g := 0) (j := vma.vmStart / PTSIZE) vma
      placed unmapped dir (by decide) exiting
      (by unfold PTSIZE; unfold PDSIZE at first; omega)
      (by intro k _; unfold PTSIZE; omega) (by unfold PTSIZE; omega)
    have next : 0 * PDSIZE + PDSIZE = 1 * PDSIZE := by omega
    unfold userDirs
    rw [d1, d0, exit_dirs_turn ran, next]
    by_cases second : PDSIZE < vma.vmEnd
    · have again : 1 * PDSIZE ≠ 0 ∧ 1 * PDSIZE < vma.vmEnd := by
        unfold PDSIZE at *
        omega
      obtain ⟨c'', ran', exiting'', passed', others'⟩ := exit_window_run (g := 1) (j := 0) vma
        placed unmapped dir (by decide) exiting' (by decide)
        (by intro k _; unfold PTSIZE; unfold PDSIZE at *; omega) (by unfold PTSIZE PDSIZE at *; omega)
      have last : ¬ (1 * PDSIZE + PDSIZE ≠ 0 ∧ 1 * PDSIZE + PDSIZE < vma.vmEnd) := by
        unfold PDSIZE
        omega
      have zero : 1 * PDSIZE + 0 * PTSIZE = 1 * PDSIZE := by omega
      rw [zero] at ran'
      have ended : exitDirs r vma.vmEnd 1 (1 * PDSIZE) (1 * PDSIZE) c' = .ok ((), c'') := by
        rw [exit_dirs_turn ran', if_neg last]
        rfl
      rw [if_pos again]
      refine ⟨c'', ended, exiting'', both_gigabytes ?_ ?_⟩
      · intro valid
        obtain ⟨entry, table⟩ := others' 0 (by decide) (by decide)
        unfold Passed at passed ⊢
        split at passed
        · next empty =>
          rw [if_pos empty]
          exact ⟨entry.trans passed.1, fun k => (table valid k).trans (passed.2 k)⟩
        · next some_slot =>
          rw [if_neg some_slot]
          refine ⟨?_, ?_⟩
          · rw [entry]
            exact passed.root
          · intro k
            rw [table valid k]
            exact passed.slots k
      · intro valid
        obtain ⟨entry, table⟩ := others 1 (by decide) (by decide)
        unfold Passed at passed' ⊢
        split at passed'
        · next empty =>
          rw [if_pos empty]
          exact ⟨passed'.1.trans entry, fun k => (passed'.2 k).trans (table valid k)⟩
        · next some_slot =>
          rw [if_neg some_slot]
          refine ⟨?_, ?_⟩
          · rw [passed'.root, entry]
            simp only [table valid]
          · intro k
            rw [passed'.slots k, table valid k, entry]
    · have past : ¬ (1 * PDSIZE ≠ 0 ∧ 1 * PDSIZE < vma.vmEnd) := by
        unfold PDSIZE at *
        omega
      have ended : (pure () : PmmM Unit) c' = .ok ((), c') := rfl
      rw [if_neg past]
      refine ⟨c', ended, exiting', both_gigabytes (fun _ => passed) ?_⟩
      · intro valid
        have empty : vma.window 1 = ∅ := by
          apply window_empty
          intro k _
          unfold PDSIZE at *
          omega
        obtain ⟨entry, table⟩ := others 1 (by decide) (by decide)
        unfold Passed
        rw [if_pos empty]
        exact ⟨entry, table valid⟩
  · have d1 : roundDown vma.vmStart PDSIZE = 1 * PDSIZE := by
      unfold roundDown PDSIZE at *
      omega
    have d0 : roundDown vma.vmStart PTSIZE = 1 * PDSIZE + (vma.vmStart / PTSIZE - 512) * PTSIZE := by
      unfold roundDown PTSIZE
      unfold PDSIZE at *
      omega
    obtain ⟨c', ran, exiting', passed, others⟩ := exit_window_run (g := 1) (j := vma.vmStart / PTSIZE - 512) vma
      placed unmapped dir (by decide) exiting
      (by unfold PTSIZE; unfold PDSIZE at first; omega)
      (by intro k _; unfold PTSIZE; unfold PDSIZE at *; omega) (by unfold PTSIZE; unfold PDSIZE at *; omega)
    have last : ¬ (1 * PDSIZE + PDSIZE ≠ 0 ∧ 1 * PDSIZE + PDSIZE < vma.vmEnd) := by
      unfold PDSIZE
      omega
    unfold userDirs
    rw [d1, d0, exit_dirs_turn ran, if_neg last]
    refine ⟨c', rfl, exiting', both_gigabytes ?_ fun _ => passed⟩
    · intro valid
      have empty : vma.window 0 = ∅ := by
        apply window_empty
        intro k small
        unfold PDSIZE PTSIZE at *
        omega
      obtain ⟨entry, table⟩ := others 0 (by decide) (by decide)
      unfold Passed
      rw [if_pos empty]
      exact ⟨entry, table valid⟩

end

/-- Going through the windows `ws` of a gigabyte with the tables `V`, `exit_range` comes to one whose
slots are all in use, and that has all the tables that are left by then. -/
def FreedBy : Finset Nat → List (Finset Nat) → Prop
  | _, [] => False
  | V, w :: ws => if w ⊆ V then V = w else FreedBy (V \ w) ws

/-- The slots of a table of a directory that are in use. -/
def PmmState.slots (s : PmmState) (pd0 : Nat) : Finset Nat :=
  (Finset.range 512).filter fun j => Valid (s.mem pd0 j)

/-- The windows of the VMAs that reach into gigabyte `g`. -/
def windows (list : List Vma) (g : Nat) : List (Finset Nat) :=
  (list.map fun vma => vma.window g).filter fun w => w ≠ ∅

/-- No entry of a gigabyte is left. -/
def Emptied (c : PmmState) (r g pd0 : Nat) : Prop :=
  ¬ Valid (c.mem r g) ∧ ∀ k < 512, ¬ Valid (c.mem pd0 k)

section
variable {s c c' : PmmState} {dirs : Finset Nat} {place : Nat → Option Place} {r t i j k g pd0 : Nat}
  {w : Finset Nat} {list : List Vma}

theorem freed_cons {V : Finset Nat} {ws : List (Finset Nat)} :
    FreedBy V (w :: ws) ↔ if w ⊆ V then V = w else FreedBy (V \ w) ws := Iff.rfl

theorem slots_mem : k ∈ s.slots pd0 ↔ k < 512 ∧ Valid (s.mem pd0 k) := by
  unfold PmmState.slots
  rw [Finset.mem_filter, Finset.mem_range]

theorem emptied_iff : Emptied c r g pd0 ↔ ¬ Valid (c.mem r g) ∧ c.slots pd0 = ∅ := by
  unfold Emptied
  rw [Finset.eq_empty_iff_forall_notMem]
  constructor
  · exact fun ⟨root, empty⟩ => ⟨root, fun k member => empty k (slots_mem.mp member).1 (slots_mem.mp member).2⟩
  · exact fun ⟨root, empty⟩ => ⟨root, fun k low valid => empty k (slots_mem.mpr ⟨low, valid⟩)⟩

theorem window_slots {vma : Vma} : (∀ k ∈ vma.window g, Valid (c.mem pd0 k)) ↔ vma.window g ⊆ c.slots pd0 := by
  constructor
  · exact fun all k member => slots_mem.mpr ⟨(window_mem.mp member).1, all k member⟩
  · exact fun inside k member => (slots_mem.mp (inside member)).2

theorem step_slots (step : GigStep c c' r g pd0 w) (valid : Valid (c.mem r g)) :
    c'.slots pd0 = c.slots pd0 \ w := by
  ext k
  rw [Finset.mem_sdiff, slots_mem, slots_mem, step.slots k]
  simp only [valid, true_and]
  exact and_assoc.symm

theorem step_slots_none (step : GigStep c c' r g pd0 w) (invalid : ¬ Valid (c.mem r g)) :
    c'.slots pd0 = c.slots pd0 := by
  ext k
  rw [slots_mem, slots_mem, step.slots k]
  simp only [invalid, false_and, not_false_eq_true, and_true]

/- The law of the gigabytes over the list of the VMAs. -/
set_option maxRecDepth 4000 in
theorem exit_all_run (placed : Placed s dirs place) (unmapped : Unmapped s place r) (dir : r ∈ dirs)
    (proper : ∀ vma ∈ list, vma.Proper) (exiting : Exiting s c place) :
    ∃ c', exitAll r list c = .ok ((), c') ∧ Exiting s c' place ∧
      ∀ g < userDirs, Valid (s.mem r g) → (Emptied c' r g (ptePage (s.mem r g)) ↔
        if Valid (c.mem r g) then FreedBy (c.slots (ptePage (s.mem r g))) (windows list g)
        else c.slots (ptePage (s.mem r g)) = ∅) := by
  induction list generalizing c with
  | nil =>
    refine ⟨c, rfl, exiting, ?_⟩
    intro g _ _
    rw [emptied_iff]
    by_cases valid : Valid (c.mem r g)
    · rw [if_pos valid]
      exact ⟨fun both => absurd valid both.1, fun freed => freed.elim⟩
    · rw [if_neg valid]
      exact and_iff_right valid
  | cons vma list ih =>
    obtain ⟨c', ran, exiting', passed⟩ := exit_range_run placed unmapped dir
      (proper vma List.mem_cons_self) exiting
    obtain ⟨c'', ran', exiting'', emptied⟩ :=
      ih (fun vma mem => proper vma (List.mem_cons_of_mem _ mem)) exiting'
    refine ⟨c'', (run_bind ran).trans ran', exiting'', ?_⟩
    intro g low valid
    rw [emptied g low valid]
    have step := passed g low valid
    unfold Passed at step
    by_cases nothing : vma.window g = ∅
    · rw [if_pos nothing] at step
      have same : c'.slots (ptePage (s.mem r g)) = c.slots (ptePage (s.mem r g)) := by
        unfold PmmState.slots
        simp only [step.2]
      have rest : windows (vma :: list) g = windows list g := by
        unfold windows
        rw [List.map_cons, List.filter_cons_of_neg (by simp [nothing])]
      rw [step.1, same, rest]
    · rw [if_neg nothing] at step
      have rest : windows (vma :: list) g = vma.window g :: windows list g := by
        unfold windows
        rw [List.map_cons, List.filter_cons_of_pos (by simp [nothing])]
      rw [rest]
      by_cases root : Valid (c.mem r g)
      · have slots := step_slots step root
        have after := step.root
        rw [window_slots] at after
        rw [if_pos root, slots, freed_cons]
        by_cases full : vma.window g ⊆ c.slots (ptePage (s.mem r g))
        · have gone : ¬ Valid (c'.mem r g) := fun still => (after.mp still).2 full
          rw [if_neg gone, if_pos full, Finset.sdiff_eq_empty_iff_subset]
          exact ⟨fun less => Finset.Subset.antisymm less full, fun equal => equal.subset⟩
        · rw [if_pos (after.mpr ⟨root, full⟩), if_neg full]
      · have gone : ¬ Valid (c'.mem r g) := fun still => root (step.root.mp still).1
        rw [if_neg root, if_neg gone, step_slots_none step root]

end

/-- From `s` to `c` pages have been unmapped, and the frames that are used no more returned. -/
structure Unmapping (s c : PmmState) (dirs : Finset Nat) (place : Nat → Option Place) : Prop where
  ok : TablesOk c dirs place
  less : ∀ r ∈ dirs, ∀ la < USERTOP, c.translate r la = s.translate r la ∨ c.translate r la = none
  inner : ∀ t x, place t = some x → (∀ r i j, x ≠ .leaf r i j) → c.mem t = s.mem t
  fewer : ∀ f, c.uses dirs f ≤ s.uses dirs f
  returned : ∀ f, c.returned.count f = s.returned.count f +
    if place f = none ∧ 0 < s.uses dirs f ∧ c.uses dirs f = 0 then 1 else 0

section
variable {s c c' : PmmState} {dirs : Finset Nat} {place : Nat → Option Place} {r t i j k start last : Nat}
  {list : List Vma}

theorem unmapping_refl (ok : TablesOk s dirs place) : Unmapping s s dirs place := by
  refine ⟨ok, fun _ _ _ _ => Or.inl rfl, fun _ _ _ _ => rfl, fun _ => Nat.le_refl _, ?_⟩
  intro f
  rw [if_neg]
  · rfl
  · rintro ⟨_, some_use, none_left⟩
    omega

theorem unmapping_drop (unmapping : Unmapping s c dirs place) (dir : r ∈ dirs) {la pt : Nat}
    (user : la < USERTOP) (leads : c.leafTable r la = some pt) (valid : Valid (c.mem pt (PTX la))) :
    Unmapping s (c.drop pt (PTX la)) dirs place := by
  have ok := unmapping.ok
  have here := leaf_place ok.placed dir user leads
  obtain ⟨none_there, _, _⟩ := ok.placed.data pt _ _ _ here _ ptx_lt valid
  have frame : c.frameAt (r, PPN la) = some (ptePage (c.mem pt (PTX la))) := by
    rw [frame_at_page, translate_entry leads]
    unfold entryMap
    rw [if_pos valid]
    rfl
  have mem : (c.drop pt (PTX la)).mem = (c.store pt (PTX la) 0).mem := rfl
  have uses (f : Nat) := store_uses ok.placed dir user leads mem f
  have never : ∀ f, ¬ (entryMap 0).map Prod.fst = some f := nofun
  have counted := ok.counted _ none_there
  refine ⟨drop_ok ok dir user leads valid, ?_, ?_, ?_, ?_⟩
  · intro r' dir' la' user'
    rw [store_translate ok.placed dir user leads mem dir' user']
    split
    · exact Or.inr rfl
    · exact unmapping.less r' dir' la' user'
  · intro t x there other
    have apart : t ≠ pt := by
      rintro rfl
      rw [here] at there
      cases there
      exact other _ _ _ rfl
    rw [← unmapping.inner t x there other]
    exact Function.update_of_ne apart ..
  · intro f
    have now := uses f
    have before := unmapping.fewer f
    rw [if_neg (never f)] at now
    omega
  · intro f
    have now := uses f
    have before := unmapping.fewer f
    have count := unmapping.returned f
    rw [if_neg (never f), frame] at now
    unfold PmmState.drop
    dsimp only
    by_cases same : ptePage (c.mem pt (PTX la)) = f
    · subst f
      rw [if_pos rfl] at now
      have unused : ¬ (place (ptePage (c.mem pt (PTX la))) = none ∧
          0 < s.uses dirs (ptePage (c.mem pt (PTX la))) ∧ c.uses dirs (ptePage (c.mem pt (PTX la))) = 0) := by
        rintro ⟨_, _, zero⟩
        omega
      rw [if_neg unused] at count
      by_cases zero : c.ref (ptePage (c.mem pt (PTX la))) - 1 = 0
      · have freed : place (ptePage (c.mem pt (PTX la))) = none ∧
            0 < s.uses dirs (ptePage (c.mem pt (PTX la))) ∧
            (c.drop pt (PTX la)).uses dirs (ptePage (c.mem pt (PTX la))) = 0 :=
          ⟨none_there, by omega, by omega⟩
        rw [if_pos zero, List.count_cons_self, count]
        exact congrArg _ (if_pos freed).symm
      · have still : ¬ (place (ptePage (c.mem pt (PTX la))) = none ∧
            0 < s.uses dirs (ptePage (c.mem pt (PTX la))) ∧
            (c.drop pt (PTX la)).uses dirs (ptePage (c.mem pt (PTX la))) = 0) := by
          rintro ⟨_, _, zero⟩
          omega
        rw [if_neg zero, count]
        exact congrArg _ (if_neg still).symm
    · rw [if_neg fun equal => same (Option.some.inj equal)] at now
      have same_uses : (c.drop pt (PTX la)).uses dirs f = c.uses dirs f := by omega
      have same_count : (if c.ref (ptePage (c.mem pt (PTX la))) - 1 = 0 then
          ptePage (c.mem pt (PTX la)) :: c.returned else c.returned).count f = c.returned.count f := by
        split
        · exact List.count_cons_of_ne same
        · rfl
      rw [same_count, count]
      unfold PmmState.drop at same_uses
      rw [same_uses]

/- Where a leaf table is absent, nothing is mapped up to the end of its addresses. -/
theorem no_table_none (table : c.leafTable r start = none) (from_ : start ≤ la)
    (below : la < roundDown (start + PTSIZE) PTSIZE) : c.translate r la = none := by
  have same : PDX1 la = PDX1 start ∧ PDX0 la = PDX0 start := by
    rw [pdx1_eq, pdx1_eq, pdx0_eq, pdx0_eq]
    unfold roundDown PTSIZE at below
    omega
  apply translate_none
  unfold PmmState.leafTable at table ⊢
  rw [same.1, same.2]
  exact table

/- A turn of `unmap_range` leaves nothing mapped up to its next address. -/
theorem unmap_turn_run (unmapping : Unmapping s c dirs place) (dir : r ∈ dirs) (user : start < USERTOP)
    (aligned : start % PGSIZE = 0) : ∃ next c', unmapTurn r start c = .ok (next, c') ∧
      Unmapping s c' dirs place ∧ next % PGSIZE = 0 ∧ start + PGSIZE ≤ next ∧
      (∀ la < USERTOP, start ≤ la → la < next → c'.translate r la = none) ∧
      ∀ la < USERTOP, c.translate r la = none → c'.translate r la = none := by
  obtain ⟨ret, u, place', ran, _, found, _, asked⟩ := get_pte_grows false unmapping.ok.placed dir user
  cases asked rfl
  unfold unmapTurn
  rw [run_bind ran]
  cases table : c.leafTable r start with
  | none =>
    rw [table] at found
    cases found
    refine ⟨_, c, rfl, unmapping, ?_, ?_, ?_, fun _ _ none_there => none_there⟩
    · unfold roundDown PTSIZE PGSIZE at *
      omega
    · unfold roundDown PTSIZE PGSIZE at *
      omega
    · exact fun la _ from_ below => no_table_none table from_ below
  | some pt =>
    rw [table] at found
    cases found
    have here := leaf_place unmapping.ok.placed dir user table
    have one_page : ∀ la, start ≤ la → la < start + PGSIZE → PPN la = PPN start := by
      intro la from_ below
      rw [ppn_eq, ppn_eq]
      unfold PGSIZE at *
      omega
    change ∃ next c', (load pt (PTX start) >>= _) c = _ ∧ _
    rw [run_bind load_run]
    by_cases valid : Valid (c.mem pt (PTX start))
    · have bounded := (unmapping.ok.placed.data pt _ _ _ here _ ptx_lt valid).2.2
      have used : c.mem pt (PTX start) ≠ 0 := by
        intro zero
        rw [zero] at valid
        exact zero_invalid valid
      rw [if_pos used, run_bind (remove_pte_valid valid bounded)]
      have mem : (c.drop pt (PTX start)).mem = (c.store pt (PTX start) 0).mem := rfl
      refine ⟨_, _, rfl, unmapping_drop unmapping dir user table valid, ?_, Nat.le_refl _, ?_, ?_⟩
      · unfold PGSIZE at *
        omega
      · intro la user' from_ below
        rw [store_translate unmapping.ok.placed dir user table mem dir user',
          if_pos ⟨rfl, one_page la from_ below⟩]
        rfl
      · intro la user' none_there
        rw [store_translate unmapping.ok.placed dir user table mem dir user', none_there]
        split <;> rfl
    · have same : (if c.mem pt (PTX start) ≠ 0 then do
          pageRemovePte pt (PTX start)
          pure (start + PGSIZE)
        else pure (start + PGSIZE)) c = .ok (start + PGSIZE, c) := by
        split
        · exact run_bind (remove_pte_invalid valid)
        · rfl
      refine ⟨start + PGSIZE, c, same, unmapping, ?_, Nat.le_refl _, ?_, fun _ _ none_there => none_there⟩
      · unfold PGSIZE at *
        omega
      · intro la user' from_ below
        rw [translate_page (one_page la from_ below), translate_entry table]
        exact if_neg valid

theorem unmap_loop_run (fuel : Nat) (unmapping : Unmapping s c dirs place) (dir : r ∈ dirs)
    (top : last ≤ USERTOP) (below : start < last) (aligned : start % PGSIZE = 0)
    (whole : last % PGSIZE = 0) (enough : (last - start) / PGSIZE ≤ fuel) :
    ∃ c', unmapLoop r last fuel start c = .ok ((), c') ∧ Unmapping s c' dirs place ∧
      (∀ la < USERTOP, start ≤ la → la < last → c'.translate r la = none) ∧
      ∀ la < USERTOP, c.translate r la = none → c'.translate r la = none := by
  induction fuel generalizing start c with
  | zero =>
    unfold PGSIZE at *
    omega
  | succ fuel ih =>
    obtain ⟨next, c', ran, unmapping', aligned', progress, gone, stays⟩ :=
      unmap_turn_run unmapping dir (by omega) aligned
    unfold unmapLoop
    rw [run_bind ran]
    by_cases again : next ≠ 0 ∧ next < last
    · rw [if_pos again]
      obtain ⟨c'', ran', unmapping'', gone', stays'⟩ := ih unmapping' again.2 aligned'
        (by unfold PGSIZE at *; omega)
      refine ⟨c'', ran', unmapping'', ?_, ?_⟩
      · intro la user from_ before
        by_cases now : la < next
        · exact stays' la user (gone la user from_ now)
        · exact gone' la user (by omega) before
      · exact fun la user none_there => stays' la user (stays la user none_there)
    · rw [if_neg again]
      refine ⟨c', rfl, unmapping', ?_, stays⟩
      intro la user from_ before
      apply gone la user from_
      unfold PGSIZE at progress
      omega

theorem unmap_all_run (unmapping : Unmapping s c dirs place) (dir : r ∈ dirs)
    (proper : ∀ vma ∈ list, vma.Proper) : ∃ c', unmapAll r list c = .ok ((), c') ∧
      Unmapping s c' dirs place ∧
      (∀ la < USERTOP, (∃ vma ∈ list, vma.vmStart ≤ la ∧ la < vma.vmEnd) → c'.translate r la = none) ∧
      ∀ la < USERTOP, c.translate r la = none → c'.translate r la = none := by
  induction list generalizing c with
  | nil =>
    refine ⟨c, rfl, unmapping, ?_, fun _ _ none_there => none_there⟩
    rintro la _ ⟨vma, mem, _⟩
    cases mem
  | cons vma list ih =>
    obtain ⟨aligned, access⟩ := proper vma List.mem_cons_self
    obtain ⟨c', ran, unmapping', gone, stays⟩ := unmap_loop_run ((vma.vmEnd - vma.vmStart) / PGSIZE)
      unmapping dir access.2.2 access.2.1 aligned.1 aligned.2 (Nat.le_refl _)
    have range : unmapRange r vma.vmStart vma.vmEnd c = .ok ((), c') := by
      unfold unmapRange
      rw [run_check_bind aligned, run_check_bind access]
      exact ran
    obtain ⟨c'', ran', unmapping'', gone', stays'⟩ :=
      ih unmapping' fun vma mem => proper vma (List.mem_cons_of_mem _ mem)
    refine ⟨c'', (run_bind range).trans ran', unmapping'', ?_, ?_⟩
    · rintro la user ⟨other, mem, from_, before⟩
      rcases List.mem_cons.mp mem with rfl | later
      · exact stays' la user (gone la user from_ before)
      · exact gone' la user ⟨other, later, from_, before⟩
    · exact fun la user none_there => stays' la user (stays la user none_there)

end

/-- The tables of one directory below it. -/
def PmmState.TableOf (s : PmmState) (r f : Nat) : Prop :=
  ∃ g < userDirs, Valid (s.mem r g) ∧ (ptePage (s.mem r g) = f ∨
    ∃ j < 512, Valid (s.mem (ptePage (s.mem r g)) j) ∧ ptePage (s.mem (ptePage (s.mem r g)) j) = f)

/-- What `exit_mmap` is for: no entry is left, each table is given back once and empty, and a frame
once if its count has come to zero. -/
structure ExitedClean (s u : PmmState) (dirs : Finset Nat) (r : Nat) : Prop where
  roots : ∀ g < userDirs, ¬ Valid (u.mem r g)
  leaves : ∀ la < USERTOP, ∀ pt, s.leafTable r la = some pt → ¬ Valid (u.mem pt (PTX la))
  frames : ∀ f, ¬ s.IsTable dirs f → u.returned.count f = s.returned.count f +
    if 0 < s.uses dirs f ∧ u.ref f = 0 then 1 else 0
  tables : ∀ f, s.TableOf r f → u.returned.count f = s.returned.count f + 1
  empty : ∀ f, s.TableOf r f → s.returned.count f < u.returned.count f →
    ∀ k < 512, ¬ Valid (u.mem f k)

section
variable {s c u : PmmState} {dirs : Finset Nat} {place : Nat → Option Place} {r f g k : Nat}

theorem table_of_place (placed : Placed s dirs place) (dir : r ∈ dirs) (table : s.TableOf r f) :
    ∃ g < userDirs, Valid (s.mem r g) ∧ ((place f = some (.mid r g) ∧ ptePage (s.mem r g) = f) ∨
      ∃ j < 512, place f = some (.leaf r g j) ∧ Valid (s.mem (ptePage (s.mem r g)) j) ∧
        ptePage (s.mem (ptePage (s.mem r g)) j) = f) := by
  obtain ⟨g, low, valid, leads⟩ := table
  have middle := placed.step r _ g _ (placed.top r dir) (top_child low) valid
  rcases leads with rfl | ⟨j, small, valid', rfl⟩
  · exact ⟨g, low, valid, Or.inl ⟨middle, rfl⟩⟩
  · exact ⟨g, low, valid, Or.inr ⟨j, small, placed.step _ _ j _ middle (mid_child small) valid', valid', rfl⟩⟩

/- The directories are not changed by the unmapping. -/
theorem unmapped_tables (unmapping : Unmapping s c dirs place) (placed : Placed s dirs place)
    (dir : r ∈ dirs) : c.mem r = s.mem r ∧ ∀ g < userDirs, Valid (s.mem r g) →
      c.mem (ptePage (s.mem r g)) = s.mem (ptePage (s.mem r g)) := by
  refine ⟨unmapping.inner r _ (placed.top r dir) nofun, ?_⟩
  intro g low valid
  exact unmapping.inner _ _ (placed.step r _ g _ (placed.top r dir) (top_child low) valid) nofun

theorem unmapped_of (ok : TablesOk c dirs place) (none_left : ∀ la < USERTOP, c.translate r la = none) :
    Unmapped c place r := by
  intro t i j here k low valid
  obtain ⟨dir, low_i, low_j, found⟩ := leaf_found ok.placed here
  obtain ⟨la, user, one, two, last⟩ := user_address low_i low_j low
  have mapped := none_left la user
  rw [translate_entry (found la one two), last] at mapped
  unfold entryMap at mapped
  rw [if_pos valid] at mapped
  cases mapped

theorem emptied_clean (ok : TablesOk s dirs place) (dir : r ∈ dirs) (unmapping : Unmapping s c dirs place)
    (unmapped : Unmapped c place r) (exiting : Exiting c u place)
    (emptied : ∀ g < userDirs, Valid (s.mem r g) → Emptied u r g (ptePage (s.mem r g))) :
    ExitedClean s u dirs r := by
  have placed := ok.placed
  obtain ⟨same_root, same_mid⟩ := unmapped_tables unmapping placed dir
  have leaf_empty : ∀ t i j, place t = some (.leaf r i j) → ∀ k < 512, ¬ Valid (u.mem t k) := by
    intro t i j here k low valid
    rw [exiting_entry exiting valid] at valid
    exact unmapped t i j here k low valid
  have empty : ∀ f, s.TableOf r f → ∀ k < 512, ¬ Valid (u.mem f k) := by
    intro f table k low
    obtain ⟨g, user, valid, ⟨_, leads⟩ | ⟨j, _, here, _⟩⟩ := table_of_place placed dir table
    · rw [← leads]
      exact (emptied g user valid).2 k low
    · exact leaf_empty f g j here k low
  refine ⟨?_, ?_, ?_, ?_, fun f table _ => empty f table⟩
  · intro g low
    by_cases valid : Valid (s.mem r g)
    · exact (emptied g low valid).1
    · intro still
      rw [exiting_entry exiting still, same_root] at still
      exact valid still
  · intro la user pt leads
    exact leaf_empty pt _ _ (leaf_place placed dir user leads) _ ptx_lt
  · intro f data
    have none_there : place f = none := by
      by_contra there
      exact data ((placed_table placed f).mp there)
    have uncleared : ¬ Cleared c u place f := by
      rintro ⟨t, x, i, y, here, child, valid, leads, _⟩
      have below := unmapping.ok.placed.step t x i y here child valid
      rw [leads, none_there] at below
      cases below
    rw [exiting.kept f uncleared, unmapping.returned f, exiting.ref, unmapping.ok.counted f none_there]
    simp only [none_there, true_and, Nat.cast_eq_zero]
  · intro f table
    have there : place f ≠ none := by
      obtain ⟨g, _, _, ⟨here, _⟩ | ⟨j, _, here, _⟩⟩ := table_of_place placed dir table <;> simp [here]
    have cleared : Cleared c u place f := by
      obtain ⟨g, user, valid, ⟨_, leads⟩ | ⟨j, small, _, valid', leads⟩⟩ :=
        table_of_place placed dir table
      · refine ⟨r, _, g, _, placed.top r dir, top_child user, ?_, ?_, (emptied g user valid).1⟩
        · rw [same_root]
          exact valid
        · rw [same_root]
          exact leads
      · have middle := placed.step r _ g _ (placed.top r dir) (top_child user) valid
        refine ⟨_, _, j, _, middle, mid_child small, ?_, ?_, (emptied g user valid).2 j small⟩
        · rw [same_mid g user valid]
          exact valid'
        · rw [same_mid g user valid]
          exact leads
    rw [exiting.cleared f cleared, unmapping.returned f, if_neg fun all => there all.1]

theorem clean_emptied {g : Nat} (clean : ExitedClean s u dirs r) (low : g < userDirs)
    (valid : Valid (s.mem r g)) : Emptied u r g (ptePage (s.mem r g)) := by
  have table : s.TableOf r (ptePage (s.mem r g)) := ⟨g, low, valid, Or.inl rfl⟩
  refine ⟨clean.roots g low, clean.empty _ table ?_⟩
  rw [clean.tables _ table]
  exact Nat.lt_succ_self _

end

/-- `exit_mmap` leaves no entry and gives back each table once, and only empty ones, exactly if in each
gigabyte that has tables, the first VMA all of whose 2 MB slots are still in use at its turn has all
the tables that are left there. -/
theorem tables_returned_once_exactly_when {dirs : Finset Nat} {s t : PmmState} {es : List PtEvent} {r : Nat}
    {list : List Vma} (blank : Blank s dirs) (run : Run (PtStep dirs) s es t) (dir : r ∈ dirs)
    (proper : ∀ vma ∈ list, vma.Proper)
    (covered : ∀ la < USERTOP, t.translate r la ≠ none →
      ∃ vma ∈ list, vma.vmStart ≤ la ∧ la < vma.vmEnd) :
    ∃ u, exitMmap r list t = .ok ((), u) ∧ (ExitedClean t u dirs r ↔
      ∀ g < userDirs, Valid (t.mem r g) →
        FreedBy (t.slots (ptePage (t.mem r g))) (windows list g)) := by
  obtain ⟨_, place, ok⟩ := run_ok (blank_ok blank) run
  obtain ⟨c, ran, unmapping, gone, stays⟩ := unmap_all_run (unmapping_refl ok) dir proper
  have nothing : ∀ la < USERTOP, c.translate r la = none := by
    intro la user
    by_cases mapped : t.translate r la = none
    · exact stays la user mapped
    · exact gone la user (covered la user mapped)
  have unmapped := unmapped_of unmapping.ok nothing
  obtain ⟨u, ran', exiting, emptied⟩ :=
    exit_all_run unmapping.ok.placed unmapped dir proper exiting_refl
  obtain ⟨same_root, same_mid⟩ := unmapped_tables unmapping ok.placed dir
  have freed : ∀ g < userDirs, Valid (t.mem r g) → (Emptied u r g (ptePage (t.mem r g)) ↔
      FreedBy (t.slots (ptePage (t.mem r g))) (windows list g)) := by
    intro g low valid
    have law := emptied g low (by rw [same_root]; exact valid)
    rw [same_root, if_pos valid] at law
    have slots : c.slots (ptePage (t.mem r g)) = t.slots (ptePage (t.mem r g)) := by
      unfold PmmState.slots
      rw [same_mid g low valid]
    rw [slots] at law
    exact law
  refine ⟨u, (run_bind ran).trans ran', ?_, ?_⟩
  · intro clean g low valid
    exact (freed g low valid).mp (clean_emptied clean low valid)
  · intro all
    exact emptied_clean ok dir unmapping unmapped exiting
      fun g low valid => (freed g low valid).mpr (all g low valid)

/- A page mapped in two slots of one gigabyte, each in a VMA of its own. -/
def twoSlots : List PtEvent := [⟨.alloc, [some 5], .page (some 5)⟩,
  ⟨.insert 0 5 0x800000 0x1E, [some 6, some 7], .code 0⟩, ⟨.insert 0 5 0xC00000 0x1E, [some 8], .code 0⟩]

def twoVmas : List Vma := [⟨0x800000, 0x801000⟩, ⟨0xC00000, 0xC01000⟩]

theorem blank_pages : Blank blankPages {0} := by
  refine ⟨?_, ?_, ?_, fun f _ => rfl⟩
  · intro r mem
    rw [Finset.mem_singleton.mp mem]
    decide
  · exact fun r _ i _ => zero_invalid
  · decide

theorem two_vmas_proper : ∀ vma ∈ twoVmas, vma.Proper := by
  unfold Vma.Proper
  decide

theorem blank_map : blankPages.pageMap {0} = fun _ _ => none := by
  funext r v
  unfold PmmState.pageMap
  split
  · apply translate_none
    unfold PmmState.leafTable
    rw [table_of_invalid zero_invalid]
    rfl
  · rfl

/- What the run leaves in the map lies in the VMAs. -/
theorem two_slots_covered {t : PmmState} (run : Run (PtStep {0}) blankPages twoSlots t) :
    ∀ la < USERTOP, t.translate 0 la ≠ none → ∃ vma ∈ twoVmas, vma.vmStart ≤ la ∧ la < vma.vmEnd := by
  have mapped := (run_ok (blank_ok blank_pages) run).1
  rw [blank_map] at mapped
  intro la user some_page
  have here : t.pageMap {0} 0 (PPN la) = t.translate 0 la := map_here (Finset.mem_singleton_self 0) user
  rw [← here] at some_page
  cases mapped with
  | call first rest =>
  cases rest with
  | call second rest =>
  cases rest with
  | call third rest =>
  cases rest
  have same := first
  have low := second.resolve_left fun failed => absurd failed.1 (by decide)
  have high := third.resolve_left fun failed => absurd failed.1 (by decide)
  rw [high.2, low.2, same] at some_page
  unfold PageMap.set at some_page
  rw [Function.update_self, Function.update_self] at some_page
  by_cases last : PPN la = PPN 0xC00000
  · refine ⟨⟨0xC00000, 0xC01000⟩, List.mem_cons_of_mem _ List.mem_cons_self, ?_⟩
    rw [ppn_eq, ppn_eq] at last
    dsimp only
    omega
  · rw [Function.update_of_ne last] at some_page
    by_cases one : PPN la = PPN 0x800000
    · refine ⟨⟨0x800000, 0x801000⟩, List.mem_cons_self, ?_⟩
      rw [ppn_eq, ppn_eq] at one
      dsimp only
      omega
    · rw [Function.update_of_ne one] at some_page
      exact absurd rfl some_page

theorem two_slots_run : ∃ t, Run (PtStep {0}) blankPages twoSlots t ∧
    ∃ u, exitMmap 0 twoVmas t = .ok ((), u) ∧ (ExitedClean t u {0} 0 ↔
      ∀ g < userDirs, Valid (t.mem 0 g) → FreedBy (t.slots (ptePage (t.mem 0 g))) (windows twoVmas g)) := by
  have done : (replay (ptReplay {0}) blankPages twoSlots).isSome := by
    decide +kernel
  obtain ⟨t, ran⟩ := Option.isSome_iff_exists.mp done
  have run : Run (PtStep {0}) blankPages twoSlots t :=
    run_mono (fun s e t => pt_replay_step) (replay_run ran)
  exact ⟨t, run, tables_returned_once_exactly_when blank_pages run (Finset.mem_singleton_self 0)
    two_vmas_proper (two_slots_covered run)⟩

/- The first VMA takes the table of the gigabyte away from the second. -/
theorem two_vmas_leak : ∃ t u, Run (PtStep {0}) blankPages twoSlots t ∧
    exitMmap 0 twoVmas t = .ok ((), u) ∧ ¬ ExitedClean t u {0} 0 ∧
    u.returned.count 6 = 1 ∧ Valid (u.mem 6 6) ∧ u.returned.count 8 = 0 := by
  have seen : (replay (ptReplay {0}) blankPages twoSlots).any (fun t =>
      match exitMmap 0 twoVmas t with
      | .ok (_, u) => decide ((Valid (t.mem 0 0) ∧ ptePage (t.mem 0 0) = 6 ∧ t.returned = []) ∧
          u.returned.count 6 = 1 ∧ Valid (u.mem 6 6) ∧ u.returned.count 8 = 0)
      | .error _ => false) = true := by
    decide +kernel
  obtain ⟨t, ran, left⟩ := (Option.any_eq_true _ _).mp seen
  have run : Run (PtStep {0}) blankPages twoSlots t :=
    run_mono (fun s e t => pt_replay_step) (replay_run ran)
  cases ended : exitMmap 0 twoVmas t with
  | error e =>
    rw [ended] at left
    cases left
  | ok r =>
    rw [ended] at left
    obtain ⟨⟨root, leads, fresh⟩, once, still, leaked⟩ := of_decide_eq_true left
    refine ⟨t, r.2, run, ended, ?_, once, still, leaked⟩
    intro clean
    have table : t.TableOf 0 6 := ⟨0, by decide, root, Or.inl leads⟩
    have none_before : t.returned.count 6 = 0 := by
      rw [fresh]
      rfl
    exact clean.empty 6 table (by omega) 6 (by decide) still

end Ucore.PageTable
