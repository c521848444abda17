import Mathlib

/- A wheel divided among the elements of a list, in their order: each has as many of the numbers as it weighs. -/
namespace Wheel
variable {α : Type*} {w : α → Nat} {xs pre post : List α} {p : α} {n : Nat}

def weight (w : α → Nat) (xs : List α) : Nat := (xs.map w).sum

/-- The element that has the number. -/
def spin (w : α → Nat) : List α → Nat → Option α
  | [], _ => none
  | x :: xs, n => if n < w x then some x else spin w xs (n - w x)

theorem weight_cons (x : α) (xs : List α) : weight w (x :: xs) = w x + weight w xs := by
  unfold weight
  rw [List.map_cons, List.sum_cons]

theorem weight_append (xs ys : List α) : weight w (xs ++ ys) = weight w xs + weight w ys := by
  unfold weight
  rw [List.map_append, List.sum_append]

theorem spin_none : spin w xs n = none ↔ weight w xs ≤ n := by
  induction xs generalizing n with
  | nil => exact iff_of_true rfl (Nat.zero_le n)
  | cons x xs ih =>
    unfold spin
    rw [weight_cons]
    split_ifs with here
    · exact iff_of_false nofun (by omega)
    · rw [ih]
      omega

theorem spin_mem (found : spin w xs n = some p) : p ∈ xs := by
  induction xs generalizing n with
  | nil => cases found
  | cons x xs ih =>
    unfold spin at found
    split_ifs at found
    · exact Option.some.inj found ▸ List.mem_cons_self
    · exact List.mem_cons_of_mem x (ih found)

/- An element has the numbers from the weight before it on. -/
theorem spin_iff (nodup : (pre ++ p :: post).Nodup) :
    spin w (pre ++ p :: post) n = some p ↔ weight w pre ≤ n ∧ n < weight w pre + w p := by
  induction pre generalizing n with
  | nil =>
    change (if n < w p then some p else spin w post (n - w p)) = some p ↔ 0 ≤ n ∧ n < 0 + w p
    split_ifs with here
    · exact iff_of_true rfl (by omega)
    · refine iff_of_false (fun found => (List.nodup_cons.mp nodup).1 (spin_mem found)) (by omega)
  | cons x pre ih =>
    obtain ⟨fresh, nodup⟩ := List.nodup_cons.mp nodup
    have other : x ≠ p := fun same => fresh (same ▸ List.mem_append_right _ List.mem_cons_self)
    change (if n < w x then some x else spin w (pre ++ p :: post) (n - w x)) = some p ↔ _
    rw [weight_cons]
    split_ifs with here
    · exact iff_of_false (fun found => other (Option.some.inj found)) (by omega)
    · rw [ih nodup]
      omega

/- How many of the numbers below `m` leave a remainder in an interval. -/
theorem card_remainders {m s a t : Nat} (inside : a + t ≤ s) :
    t * (m / s) ≤ ((Finset.range m).filter fun r => a ≤ r % s ∧ r % s < a + t).card ∧
      ((Finset.range m).filter fun r => a ≤ r % s ∧ r % s < a + t).card ≤ t * ((m + s - 1) / s) := by
  rcases Nat.eq_zero_or_pos t with rfl | positive
  · rw [Nat.zero_mul, Nat.zero_mul]
    refine ⟨Nat.zero_le _, Nat.le_of_eq (Finset.card_eq_zero.mpr (Finset.filter_eq_empty_iff.mpr fun r _ => ?_))⟩
    omega
  have large : 0 < s := by omega
  have maps : ∀ r ∈ (Finset.range m).filter (fun r => a ≤ r % s ∧ r % s < a + t), r % s ∈ Finset.Ico a (a + t) := by
    intro r mem
    exact Finset.mem_Ico.mpr (Finset.mem_filter.mp mem).2
  -- the numbers with one of the remainders
  have fiber : ∀ v ∈ Finset.Ico a (a + t),
      (((Finset.range m).filter fun r => a ≤ r % s ∧ r % s < a + t).filter fun r => r % s = v).card =
        m / s + if v % s < m % s then 1 else 0 := by
    intro v mem
    obtain ⟨low, high⟩ := Finset.mem_Ico.mp mem
    rw [← Nat.count_modEq_card m large, Nat.count_eq_card_filter_range, Finset.filter_filter]
    congr 1
    apply Finset.filter_congr
    intro r _
    unfold Nat.ModEq
    rw [Nat.mod_eq_of_lt (show v < s by omega)]
    omega
  have ceiling : m / s + 1 ≤ (m + s - 1) / s ∨ m % s = 0 ∧ m / s ≤ (m + s - 1) / s := by
    have split := Nat.div_add_mod m s
    by_cases whole : m % s = 0
    · exact .inr ⟨whole, Nat.div_le_div_right (by omega)⟩
    · left
      rw [Nat.le_div_iff_mul_le large, Nat.add_mul, Nat.mul_comm]
      omega
  rw [Finset.card_eq_sum_card_fiberwise maps, Finset.sum_congr rfl fiber]
  have size : (Finset.Ico a (a + t)).card = t := by rw [Nat.card_Ico]; omega
  constructor
  · have low := Finset.card_nsmul_le_sum (Finset.Ico a (a + t)) (fun v => m / s + if v % s < m % s then 1 else 0) (m / s)
      fun v _ => Nat.le_add_right _ _
    rwa [size, smul_eq_mul] at low
  · have high := Finset.sum_le_card_nsmul (Finset.Ico a (a + t)) (fun v => m / s + if v % s < m % s then 1 else 0)
      ((m + s - 1) / s) fun v _ => ?_
    · rwa [size, smul_eq_mul] at high
    · rcases ceiling with more | ⟨whole, enough⟩
      · split_ifs <;> omega
      · rw [whole, if_neg (Nat.not_lt_zero _)]
        exact enough

end Wheel
