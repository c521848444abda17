import Ucore.Mm.BuddyPmm

/- The arithmetic of buddy_pmm.c: child and parent indices, rounding, logarithms. -/
namespace Ucore.BuddyPmm
open Words

@[simp] theorem left_leaf_eq (index : Nat) : leftLeaf index = 2 * index + 1 := by
  unfold leftLeaf
  rw [← Nat.shiftLeft_add_eq_or_of_lt (by decide), Nat.shiftLeft_eq]
  omega

@[simp] theorem right_leaf_eq (index : Nat) : rightLeaf index = 2 * index + 2 := by
  unfold rightLeaf
  rw [Nat.shiftLeft_eq]
  omega

@[simp] theorem parent_left_leaf (index : Nat) : parent (2 * index + 1) = index := by
  unfold parent
  rw [Nat.shiftRight_eq_div_pow]
  omega

@[simp] theorem parent_right_leaf (index : Nat) : parent (2 * index + 2) = index := by
  unfold parent
  rw [Nat.shiftRight_eq_div_pow]
  omega

theorem is_power_of_two_iff {x : Nat} (positive : 0 < x) :
    isPowerOf2 x = true ↔ ∃ k, x = 2 ^ k := by
  unfold isPowerOf2
  rw [decide_eq_true_iff, Nat.and_sub_one_eq_zero_iff_isPowerOfTwo (by omega)]
  rfl

theorem log2_loop_power {fuel k : Nat} (enough : k ≤ fuel) (i : Nat) :
    log2Loop fuel ((2 ^ k : Nat) : Int) i = i + k := by
  induction fuel generalizing k i with
  | zero =>
    obtain rfl : k = 0 := by omega
    rfl
  | succ fuel ih =>
    unfold log2Loop
    cases k with
    | zero => simp
    | succ k =>
      have large : ((2 ^ (k + 1) : Nat) : Int) > 1 := by
        have := Nat.two_pow_pos k
        have : 2 ^ (k + 1) = 2 * 2 ^ k := by omega
        omega
      have half : ((2 ^ (k + 1) : Nat) : Int) >>> (1 : Nat) = ((2 ^ k : Nat) : Int) := by
        rw [Int.shiftRight_eq_div_pow]
        have : 2 ^ (k + 1) = 2 * 2 ^ k := by omega
        omega
      rw [if_pos large, half, ih (by omega)]
      omega

theorem power_lt_int {k : Nat} (small : k ≤ 30) : 2 ^ k < 2147483648 :=
  Nat.pow_lt_pow_right (a := 2) (n := 31) (by decide) (by omega)

theorem log2_power {k : Nat} (small : k ≤ 30) : log2 ((2 ^ k : Nat) : Int) = k := by
  have := power_lt_int small
  unfold log2
  have : 0 < 2 ^ k := Nat.two_pow_pos k
  rw [i32_exact (by omega) (by omega), log2_loop_power (by omega)]
  omega

/- Bit `i` of `y` tells whether one of the `m` bits of `x` from `i` on is set. -/
def Covers (x y m : Nat) : Prop := ∀ i, y.testBit i = true ↔ ∃ d < m, x.testBit (i + d) = true

theorem smear_covers {x y m : Nat} (covers : Covers x y m) : Covers x (smear y m) (2 * m) := by
  intro i
  unfold smear
  rw [Nat.testBit_or, Nat.testBit_shiftRight, Bool.or_eq_true, covers i, covers (m + i)]
  constructor
  · intro found
    rcases found with ⟨d, low, set⟩ | ⟨d, low, set⟩
    · exact ⟨d, by omega, set⟩
    · exact ⟨m + d, by omega, by rwa [← Nat.add_assoc, Nat.add_comm i m]⟩
  · intro ⟨d, low, set⟩
    by_cases near : d < m
    · exact Or.inl ⟨d, near, set⟩
    · exact Or.inr ⟨d - m, by omega, by rwa [show m + i + (d - m) = i + d by omega]⟩

theorem smeared_value {x y : Nat} (positive : 0 < x) (fits : x < wordSize)
    (covers : Covers x y 32) : y + 1 = 2 ^ (x.log2 + 1) := by
  have top : x.log2 < 32 := (Nat.log2_lt (by omega)).mpr fits
  have ones : y = 2 ^ (x.log2 + 1) - 1 := by
    apply Nat.eq_of_testBit_eq
    intro i
    rw [Nat.testBit_two_pow_sub_one, Bool.eq_iff_iff, covers i, decide_eq_true_iff]
    constructor
    · intro ⟨d, _, set⟩
      have : i + d ≤ x.log2 := by
        by_contra high
        have : x < 2 ^ (i + d) := (Nat.log2_lt (by omega)).mp (by omega)
        rw [Nat.testBit_lt_two_pow this] at set
        cases set
      omega
    · intro low
      refine ⟨x.log2 - i, by omega, ?_⟩
      rw [show i + (x.log2 - i) = x.log2 by omega]
      exact Nat.testBit_log2 (by omega)
  have := Nat.two_pow_pos (x.log2 + 1)
  omega

theorem fixsize_value {x : Nat} (positive : 0 < x) (fits : x < wordSize) :
    fixsize x = u32 (2 ^ (x.log2 + 1) : Nat) := by
  have first : Covers x x 1 := by
    intro i
    simp
  unfold fixsize
  rw [smeared_value positive fits
    (smear_covers (smear_covers (smear_covers (smear_covers (smear_covers first)))))]

theorem fixsize_power (x : Nat) (fits : x < wordSize) :
    fixsize x = 0 ∨ ∃ k, k ≤ 31 ∧ fixsize x = 2 ^ k := by
  by_cases positive : 0 < x
  · rw [fixsize_value positive fits]
    have top : x.log2 < 32 := (Nat.log2_lt (by omega)).mpr fits
    by_cases wraps : x.log2 = 31
    · exact Or.inl (by rw [wraps]; decide)
    · have : 2 ^ (x.log2 + 1) < wordSize :=
        Nat.pow_lt_pow_right (a := 2) (n := 32) (by decide) (by omega)
      exact Or.inr ⟨x.log2 + 1, by omega, u32_of_nat this⟩
  · obtain rfl : x = 0 := by omega
    exact Or.inr ⟨0, by decide, by decide⟩

theorem round_up_power {n : Nat} (positive : 0 < n) :
    roundUp n = 0 ∨ ∃ k, roundUp n = 2 ^ k := by
  unfold roundUp
  by_cases power : isPowerOf2 n = true
  · rw [if_pos power]
    exact Or.inr ((is_power_of_two_iff positive).mp power)
  · rw [if_neg power]
    rcases fixsize_power (u32 n) (u32_lt n) with zero | ⟨k, _, value⟩
    · exact Or.inl zero
    · exact Or.inr ⟨k, value⟩

/- The number of pages that `buddy_init_memmap` manages. -/
def managedSize (n : Nat) : Nat := if isPowerOf2 n then n else fixsize (u32 n) >>> 1

theorem managed_size_le (n : Nat) : managedSize n ≤ n := by
  unfold managedSize
  by_cases power : isPowerOf2 n = true
  · rw [if_pos power]
  · rw [if_neg power, Nat.shiftRight_eq_div_pow]
    have low : u32 (n : Int) ≤ n := by rw [u32_mod]; exact Nat.mod_le _ _
    by_cases zero : u32 (n : Int) = 0
    · rw [zero]
      exact Nat.zero_le _
    · rw [fixsize_value (by omega) (u32_lt _), u32_mod]
      have : 2 ^ (u32 (n : Int)).log2 ≤ u32 (n : Int) := Nat.log2_self_le zero
      have : 2 ^ ((u32 (n : Int)).log2 + 1) % wordSize ≤ 2 ^ ((u32 (n : Int)).log2 + 1) :=
        Nat.mod_le _ _
      omega

theorem total_size_power {n : Nat} (positive : 0 < n) :
    u32 (managedSize n) = 0 ∨ ∃ k ≤ 31, managedSize n = 2 ^ k ∧ u32 (managedSize n) = 2 ^ k := by
  unfold managedSize
  by_cases power : isPowerOf2 n = true
  · rw [if_pos power]
    obtain ⟨k, value⟩ := (is_power_of_two_iff positive).mp power
    by_cases small : k ≤ 31
    · have : 2 ^ k < wordSize := Nat.pow_lt_pow_right (a := 2) (n := 32) (by decide) (by omega)
      exact Or.inr ⟨k, small, value, by rw [value, u32_of_nat this]⟩
    · refine Or.inl ?_
      have : 2 ^ k = 2 ^ (k - 32) * wordSize := by
        have : 2 ^ k = 2 ^ (k - 32) * 2 ^ 32 := by rw [← Nat.pow_add]; congr 1; omega
        exact this
      rw [value, u32_mod, this, Nat.mul_mod_left]
  · rw [if_neg power, Nat.shiftRight_eq_div_pow]
    rcases fixsize_power (u32 n) (u32_lt n) with zero | ⟨k, small, value⟩
    · rw [zero]
      exact Or.inl (by decide)
    · rw [value]
      cases k with
      | zero => exact Or.inl (by decide)
      | succ k =>
        have half : 2 ^ (k + 1) / 2 ^ 1 = 2 ^ k := by omega
        have : 2 ^ k < wordSize := Nat.pow_lt_pow_right (a := 2) (n := 32) (by decide) (by omega)
        rw [half]
        exact Or.inr ⟨k, by omega, rfl, u32_of_nat this⟩

section Levels
variable {nodes : Nodes} {height : Nat}

theorem log2_succ {n : Nat} (positive : 0 < n) :
    (n + 1).log2 = n.log2 + if isPowerOf2 (n + 1) then 1 else 0 := by
  have low : 2 ^ n.log2 ≤ n := Nat.log2_self_le (by omega)
  have high : n < 2 ^ (n.log2 + 1) := Nat.lt_log2_self
  by_cases power : isPowerOf2 (n + 1) = true
  · rw [if_pos power]
    obtain ⟨k, value⟩ := (is_power_of_two_iff (by omega)).mp power
    have atLeast : n.log2 < k := (Nat.pow_lt_pow_iff_right (a := 2) (by decide)).mp (by omega)
    have atMost : k ≤ n.log2 + 1 := (Nat.pow_le_pow_iff_right (a := 2) (by decide)).mp (by omega)
    rw [value, Nat.log2_two_pow]
    omega
  · rw [if_neg power]
    have ne : n + 1 ≠ 2 ^ (n.log2 + 1) := by
      intro same
      exact power ((is_power_of_two_iff (by omega)).mpr ⟨_, same⟩)
    exact (Nat.log2_eq_iff (by omega)).mpr ⟨by simp; omega, by simp; omega⟩

theorem init_tree_at {blockSize i k : Nat}
    (start : (if isPowerOf2 (i + 1) then blockSize - 1 else blockSize) = height - (i + 1).log2)
    (j : Nat) : initTree nodes blockSize i k j =
      if i ≤ j ∧ j < i + k then ⟨height - (j + 1).log2, height - (j + 1).log2⟩ else nodes j := by
  induction k generalizing nodes blockSize i with
  | zero =>
    have outside : ¬ (i ≤ j ∧ j < i + 0) := by omega
    rw [if_neg outside]
    rfl
  | succ k ih =>
    have next : (if isPowerOf2 (i + 1 + 1) then height - (i + 1).log2 - 1
        else height - (i + 1).log2) = height - (i + 1 + 1).log2 := by
      have := log2_succ (n := i + 1) (by omega)
      rw [this]
      split <;> omega
    simp only [initTree, start]
    rw [ih next]
    by_cases here : j = i
    · subst j
      simp
    · by_cases inside : i ≤ j ∧ j < i + (k + 1)
      · rw [if_pos (by omega), if_pos inside]
      · rw [if_neg (by omega), if_neg inside, Function.update_of_ne here]

end Levels

end Ucore.BuddyPmm
