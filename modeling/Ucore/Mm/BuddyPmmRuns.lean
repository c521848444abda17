import Ucore.Mm.BuddyPmmTree

/- What one call of the buddy allocator does to the tree of blocks. -/
namespace Ucore.BuddyPmm
open Words Blocks BuddyTree

theorem get_index_walk (c : Context) {fuel m m' o : Nat} (inside : o < 2 ^ m) (smaller : m' ≤ m) :
    getIndexLoop (fuel + c.length) 0 ((holeOffset m c + o : Nat) : Int) ((2 ^ m' : Nat) : Int)
        ((2 ^ (m + c.length) : Nat) : Int) =
      getIndexLoop fuel (holeIndex c) (o : Int) ((2 ^ m' : Nat) : Int) ((2 ^ m : Nat) : Int) := by
  induction c generalizing fuel m o with
  | nil => simp [holeOffset, holeIndex]
  | cons frame c ih =>
    obtain ⟨side, sibling⟩ := frame
    have double : 2 ^ (m + 1) = 2 * 2 ^ m := by omega
    have steps : fuel + (c.length + 1) = fuel + 1 + c.length := by omega
    have order : m + (c.length + 1) = m + 1 + c.length := by omega
    have larger : ((2 ^ (m + 1) : Nat) : Int) > ((2 ^ m' : Nat) : Int) := by
      have : 2 ^ m' ≤ 2 ^ m := Nat.pow_le_pow_right (by decide) smaller
      have := Nat.two_pow_pos m
      omega
    have half : ((2 ^ (m + 1) : Nat) : Int) >>> (1 : Nat) = ((2 ^ m : Nat) : Int) := by
      rw [Int.shiftRight_eq_div_pow]
      omega
    cases side with
    | left =>
      have low : (o : Int) < ((2 ^ m : Nat) : Int) := by omega
      have above := @ih (fuel + 1) (m + 1) o (by omega) (by omega)
      simp only [holeOffset, holeIndex, List.length_cons, steps, order]
      rw [above, getIndexLoop, if_pos larger, half, if_pos low, left_leaf_eq]
    | right =>
      have high : ¬ ((2 ^ m + o : Nat) : Int) < ((2 ^ m : Nat) : Int) := by omega
      have rest : ((2 ^ m + o : Nat) : Int) - ((2 ^ m : Nat) : Int) = o := by omega
      have above := @ih (fuel + 1) (m + 1) (2 ^ m + o) (by omega) (by omega)
      simp only [holeOffset, holeIndex, List.length_cons, steps, order, Nat.add_assoc]
      simp only [Nat.add_assoc] at above
      rw [above, getIndexLoop, if_pos larger, half, if_neg high, rest, right_leaf_eq]

theorem hole_offset_lt (m : Nat) (c : Context) : holeOffset m c + 2 ^ m ≤ 2 ^ (m + c.length) := by
  induction c generalizing m with
  | nil => simp [holeOffset]
  | cons frame c ih =>
    obtain ⟨side, sibling⟩ := frame
    have above := ih (m + 1)
    have double : 2 ^ (m + 1) = 2 * 2 ^ m := by omega
    have order : m + (c.length + 1) = m + 1 + c.length := by omega
    have := Nat.two_pow_pos m
    cases side with
    | left => simp only [holeOffset, List.length_cons, order]; omega
    | right => simp only [holeOffset, List.length_cons, order]; omega

theorem get_index_hole {m : Nat} {c : Context} (small : m + c.length ≤ 30) :
    getIndex (holeOffset m c : Nat) (2 ^ m : Nat) (2 ^ (m + c.length) : Nat) =
      some (holeIndex c) := by
  have bound := power_lt_int small
  have offset := hole_offset_lt m c
  have positive := Nat.two_pow_pos m
  have steps : (33 : Nat) = (33 - c.length - 1) + 1 + c.length := by omega
  have walk := @get_index_walk c ((33 - c.length - 1) + 1) m m 0 positive (Nat.le_refl m)
  unfold getIndex
  rw [i32_exact (by omega) (by omega), i32_exact (by omega) (by omega),
    i32_exact (by omega) (by omega), steps]
  simp only [Nat.add_zero] at walk
  rw [walk, getIndexLoop, if_neg (Int.lt_irrefl _)]

/- The nodes that `buddy_init_memmap` writes are those of one free block. -/
theorem fresh_of_levels {nodes : Nodes} {height : Nat}
    (levels : ∀ j, j + 1 < 2 ^ (height + 1) →
      nodes j = ⟨height - (j + 1).log2, height - (j + 1).log2⟩) {i k : Nat}
    (depth : (i + 1).log2 + k = height) : Fresh nodes i k := by
  have here : i + 1 < 2 ^ (height + 1) := by
    have : i + 1 < 2 ^ ((i + 1).log2 + 1) := Nat.lt_log2_self
    have : 2 ^ ((i + 1).log2 + 1) ≤ 2 ^ (height + 1) := Nat.pow_le_pow_right (by decide) (by omega)
    omega
  have value : height - (i + 1).log2 = k := by omega
  have root := levels i here
  rw [value] at root
  induction k generalizing i with
  | zero => exact root
  | succ k ih =>
    have childLevel : ∀ j, j + 1 = 2 * (i + 1) ∨ j + 1 = 2 * (i + 1) + 1 →
        (j + 1).log2 = (i + 1).log2 + 1 := by
      intro j child
      have low : 2 ^ (i + 1).log2 ≤ i + 1 := Nat.log2_self_le (by omega)
      have high : i + 1 < 2 ^ ((i + 1).log2 + 1) := Nat.lt_log2_self
      exact (Nat.log2_eq_iff (by omega)).mpr ⟨by omega, by omega⟩
    have child : ∀ j, j + 1 = 2 * (i + 1) ∨ j + 1 = 2 * (i + 1) + 1 → Fresh nodes j k := by
      intro j child
      have level := childLevel j child
      have inside : j + 1 < 2 ^ (height + 1) := by
        have : j + 1 < 2 ^ ((j + 1).log2 + 1) := Nat.lt_log2_self
        have : 2 ^ ((j + 1).log2 + 1) ≤ 2 ^ (height + 1) :=
          Nat.pow_le_pow_right (by decide) (by omega)
        omega
      have root := levels j inside
      rw [show height - (j + 1).log2 = k by omega] at root
      exact ih (by omega) inside (by omega) root
    exact ⟨root, child (2 * i + 1) (by omega), child (2 * i + 2) (by omega)⟩

end Ucore.BuddyPmm
