import Ucore.Mm.BuddyPmmRounding

/- The numbers of the nodes, as the search of an allocation, `get_index` and `PARENT` know them. -/
namespace Ucore.BuddyPmm
open Words Blocks BuddyTree

structure Place where
  index : Nat
  offset : Nat
  size : Nat
  deriving DecidableEq, Repr

/- A step of the search in `buddy_alloc_pages`. -/
def Place.child (p : Place) : Side → Place
  | .left => ⟨leftLeaf p.index, p.offset, p.size / 2⟩
  | .right => ⟨rightLeaf p.index, p.offset + p.size / 2, p.size / 2⟩

def Place.walk (p : Place) (path : List Side) : Place := path.foldl Place.child p

def place (total : Nat) (path : List Side) : Place := Place.walk ⟨0, 0, total⟩ path

/-- Every block is found by its offset and size, `PARENT` undoes a step, a block has one node, and a release finds the node
of the allocation. -/
structure IndexRight (k : Nat) : Prop where
  found : ∀ path, 1 ≤ (place (2 ^ k) path).size → getIndex (place (2 ^ k) path).offset (place (2 ^ k) path).size (2 ^ k : Nat) =
    some (place (2 ^ k) path).index
  back : ∀ path side, parent ((place (2 ^ k) path).child side).index = (place (2 ^ k) path).index
  distinct : ∀ p q, 1 ≤ (place (2 ^ k) p).size → (place (2 ^ k) p).size = (place (2 ^ k) q).size →
    (place (2 ^ k) p).offset = (place (2 ^ k) q).offset → p = q
  released : ∀ nodes log2n b index offset, 1 ≤ log2n →
    descend nodes log2n (log2 (2 ^ k : Nat) + 1) 0 0 = (b + 1, index, offset) →
    getIndex offset (2 ^ b : Nat) (2 ^ k : Nat) = some index

section
variable {k n : Nat} {side : Side} {path p q : List Side}

/- A path from the root, read from its end. -/
def climb (path : List Side) : Context := (path.map fun side => (side, Tree.free)).reverse

theorem climb_concat : climb (path ++ [side]) = (side, .free) :: climb path := by
  unfold climb
  rw [List.map_append, List.reverse_append]
  rfl

theorem climb_length : (climb path).length = path.length := by
  unfold climb
  rw [List.length_reverse, List.length_map]

theorem place_concat (total : Nat) : place total (path ++ [side]) = (place total path).child side := by
  unfold place Place.walk
  rw [List.foldl_append]
  rfl

theorem place_size (total : Nat) : (place total path).size = total / 2 ^ path.length := by
  induction path using List.reverseRecOn with
  | nil => exact (Nat.div_one total).symm
  | append_singleton path side ih =>
    have half : ((place total path).child side).size = (place total path).size / 2 := by cases side <;> rfl
    rw [place_concat, half, ih, Nat.div_div_eq_div_mul, List.length_append]
    rfl

/- There is a block at the end of a path as long as the tree is deep enough. -/
theorem block_iff : 1 ≤ (place (2 ^ k) path).size ↔ path.length ≤ k := by
  rw [place_size, Nat.one_le_div_iff (Nat.two_pow_pos _)]
  exact Nat.pow_le_pow_iff_right (by decide)

theorem place_hole (inside : path.length ≤ k) : place (2 ^ k) path =
    ⟨holeIndex (climb path), holeOffset (k - path.length) (climb path), 2 ^ (k - path.length)⟩ := by
  induction path using List.reverseRecOn with
  | nil => rfl
  | append_singleton path side ih =>
    rw [List.length_append, List.length_singleton] at inside
    obtain ⟨m, order⟩ : ∃ m, k = path.length + 1 + m := ⟨k - (path.length + 1), by omega⟩
    have above : k - path.length = m + 1 := by omega
    have here : k - (path.length + 1) = m := by omega
    have half : 2 ^ (m + 1) / 2 = 2 ^ m := by omega
    rw [place_concat, ih (by omega), climb_concat, List.length_append, List.length_singleton, above, here]
    cases side with
    | left => simp only [Place.child, left_leaf_eq, half, holeIndex, holeOffset]
    | right => simp only [Place.child, right_leaf_eq, half, holeIndex, holeOffset]

theorem parent_child (index : Nat) : parent (leftLeaf index) = index ∧ parent (rightLeaf index) = index := by
  unfold parent
  rw [Nat.shiftRight_eq_div_pow, Nat.shiftRight_eq_div_pow, left_leaf_eq, right_leaf_eq]
  omega

theorem walk_within (inside : path.length ≤ k) (index offset : Nat) :
    offset ≤ (Place.walk ⟨index, offset, 2 ^ k⟩ path).offset ∧
      (Place.walk ⟨index, offset, 2 ^ k⟩ path).offset < offset + 2 ^ k := by
  induction path generalizing k index offset with
  | nil => exact ⟨Nat.le_refl _, Nat.lt_add_of_pos_right (Nat.two_pow_pos k)⟩
  | cons side path ih =>
    obtain ⟨m, rfl⟩ : ∃ m, k = m + 1 := ⟨k - 1, by rw [List.length_cons] at inside; omega⟩
    have half : 2 ^ (m + 1) / 2 = 2 ^ m := by omega
    have rest : path.length ≤ m := by
      rw [List.length_cons] at inside
      omega
    unfold Place.walk at ih ⊢
    rw [List.foldl_cons]
    cases side with
    | left =>
      have low := ih rest (leftLeaf index) offset
      simp only [Place.child, half]
      omega
    | right =>
      have high := ih rest (rightLeaf index) (offset + 2 ^ m)
      simp only [Place.child, half]
      omega

/- Where two paths part, one goes to the lower half and the other to the upper one. -/
theorem walk_distinct (inside : p.length ≤ k) (same : p.length = q.length) {i j offset : Nat}
    (meet : (Place.walk ⟨i, offset, 2 ^ k⟩ p).offset = (Place.walk ⟨j, offset, 2 ^ k⟩ q).offset) : p = q := by
  induction p generalizing k q i j offset with
  | nil => exact (List.eq_nil_of_length_eq_zero same.symm).symm
  | cons side p ih =>
    obtain ⟨side', q, rfl⟩ := List.exists_cons_of_length_pos (show 0 < q.length by rw [← same]; exact Nat.succ_pos _)
    obtain ⟨m, rfl⟩ : ∃ m, k = m + 1 := ⟨k - 1, by rw [List.length_cons] at inside; omega⟩
    rw [List.length_cons] at inside
    rw [List.length_cons, List.length_cons] at same
    have half : 2 ^ (m + 1) / 2 = 2 ^ m := by omega
    have fits : p.length ≤ m := by omega
    have fits' : q.length ≤ m := by omega
    have step : ∀ (i : Nat) (side : Side) (path : List Side), Place.walk ⟨i, offset, 2 ^ (m + 1)⟩ (side :: path) =
        Place.walk (Place.child ⟨i, offset, 2 ^ (m + 1)⟩ side) path := fun _ _ _ => rfl
    rw [step, step] at meet
    cases side with
    | left =>
      cases side' with
      | left =>
        simp only [Place.child, half] at meet
        rw [ih fits (by omega) meet]
      | right =>
        simp only [Place.child, half] at meet
        have low := walk_within fits (leftLeaf i) offset
        have high := walk_within fits' (rightLeaf j) (offset + 2 ^ m)
        omega
    | right =>
      cases side' with
      | left =>
        simp only [Place.child, half] at meet
        have high := walk_within fits (rightLeaf i) (offset + 2 ^ m)
        have low := walk_within fits' (leftLeaf j) offset
        omega
      | right =>
        simp only [Place.child, half] at meet
        rw [ih fits (by omega) meet]

theorem place_distinct (block : 1 ≤ (place (2 ^ k) p).size) (sizes : (place (2 ^ k) p).size = (place (2 ^ k) q).size)
    (offsets : (place (2 ^ k) p).offset = (place (2 ^ k) q).offset) : p = q := by
  have inside := block_iff.mp block
  have inside' := block_iff.mp (sizes ▸ block)
  rw [place_hole inside, place_hole inside'] at sizes
  have lengths := Nat.pow_right_injective (Nat.le_refl 2) sizes
  exact walk_distinct inside (by omega) offsets

/- From 2^31 on the total is not positive as an `int`, and the loop is not entered for a page. -/
theorem large_total_root (large : 31 ≤ k) (offset : Int) : getIndex offset 1 (2 ^ k : Nat) = some 0 := by
  obtain ⟨m, rfl⟩ : ∃ m, k = m + 31 := ⟨k - 31, by omega⟩
  have power : 2 ^ (m + 31) = 2 ^ m * 2147483648 := Nat.pow_add 2 m 31
  have low : i32 ((2 ^ (m + 31) : Nat) : Int) ≤ 0 := by
    unfold i32
    rcases Nat.mod_two_eq_zero_or_one (2 ^ m) with even | odd <;> omega
  have one : i32 1 = 1 := by decide
  unfold getIndex
  rw [getIndexLoop, if_neg (by rw [one]; omega)]

theorem hole_index_pos {c : Context} (below : c ≠ []) : 0 < holeIndex c := by
  obtain ⟨⟨side, sibling⟩, c, rfl⟩ := List.exists_cons_of_ne_nil below
  cases side <;> exact Nat.succ_pos _

theorem large_total_wrong (large : 31 ≤ k) : ¬ IndexRight k := by
  intro right
  have inside : (List.replicate k Side.left).length ≤ k := (List.length_replicate).le
  have found := right.found (List.replicate k .left) (block_iff.mpr inside)
  have last : k - (List.replicate k Side.left).length = 0 := by
    rw [List.length_replicate]
    omega
  rw [place_hole inside, last] at found
  have root := large_total_root large (holeOffset 0 (climb (List.replicate k .left)) : Nat)
  have index := Option.some.inj (root.symm.trans found)
  have below : climb (List.replicate k Side.left) ≠ [] := by
    rw [← List.length_pos_iff, climb_length, List.length_replicate]
    omega
  exact (hole_index_pos below).ne index

theorem small_total_right (small : k ≤ 30) : IndexRight k where
  found path block := by
    have inside := block_iff.mp block
    have order : k - path.length + (climb path).length = k := by
      rw [climb_length]
      omega
    have found := @get_index_hole (k - path.length) (climb path) (by omega)
    rw [order] at found
    rw [place_hole inside]
    exact found
  back path side := by
    obtain ⟨left, right⟩ := parent_child (place (2 ^ k) path).index
    cases side with
    | left => exact left
    | right => exact right
  distinct p q := place_distinct
  released nodes log2n b index offset positive run := by
    obtain ⟨m, rfl⟩ : ∃ m, log2n = m + 1 := ⟨log2n - 1, by omega⟩
    rw [log2_power small] at run
    by_cases larger : m ≤ k
    · obtain ⟨b', c, run', length, _⟩ := @descend_hole k m nodes [] larger
      obtain ⟨same, rfl, rfl⟩ : b + 1 = b' + 1 ∧ index = holeIndex c ∧ offset = holeOffset b' c := by
        simpa [holeIndex, holeOffset] using run.symm.trans run'
      obtain rfl : b = b' := Nat.succ.inj same
      obtain rfl : b + c.length = k := length
      exact get_index_hole small
    · rw [descend, if_neg (by omega)] at run
      obtain ⟨rfl, rfl, rfl⟩ : k = b ∧ 0 = index ∧ 0 = offset := by simpa using run
      exact @get_index_hole k [] small

theorem index_right_iff : IndexRight k ↔ k ≤ 30 :=
  ⟨fun right => Nat.le_of_not_lt fun large => large_total_wrong large right, small_total_right⟩

/- The lower half of 2^31 pages is node 1, and the root is found. -/
theorem lower_half_not_found : (place (2 ^ 31) [.left]) = ⟨1, 0, 2 ^ 30⟩ ∧ getIndex 0 (2 ^ 30) (2 ^ 31) = some 0 ∧
    ¬ ∀ k, IndexRight k :=
  ⟨by decide, by decide, fun all => large_total_wrong (Nat.le_refl 31) (all 31)⟩

end
end Ucore.BuddyPmm
