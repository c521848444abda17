import Mathlib

/- Linear congruential generators modulo a power of two. With a multiplier that is 1 modulo 4 and an odd
   increment, 2^k steps take each of the 2^k values exactly once. -/
namespace FullPeriod
variable {a c k : Nat}

/-- `1 + a + ... + a^(n-1)`. -/
def powers (a n : Nat) : Nat := ∑ i ∈ Finset.range n, a ^ i

def step (a c k : Nat) (x : Nat) : Nat := (a * x + c) % 2 ^ k

theorem powers_succ (n : Nat) : powers a (n + 1) = a * powers a n + 1 := by
  unfold powers
  rw [Finset.sum_range_succ', Finset.mul_sum, pow_zero]
  simp [pow_succ, Nat.mul_comm]

theorem powers_add (m n : Nat) : powers a (m + n) = powers a m + a ^ m * powers a n := by
  unfold powers
  rw [Finset.sum_range_add, Finset.mul_sum]
  simp [pow_add]

theorem power_from_powers (one : a % 4 = 1) (n : Nat) : a ^ n = (a - 1) * powers a n + 1 := by
  induction n with
  | zero => simp [powers]
  | succ n ih =>
    have split : a = (a - 1) + 1 := by omega
    calc a ^ (n + 1) = a * ((a - 1) * powers a n + 1) := by rw [pow_succ, Nat.mul_comm, ← ih]
      _ = (a - 1) * (a * powers a n) + a := by ring
      _ = (a - 1) * (a * powers a n) + ((a - 1) + 1) := by rw [← split]
      _ = (a - 1) * powers a (n + 1) + 1 := by rw [powers_succ]; ring

theorem pow_mod_four (one : a % 4 = 1) (n : Nat) : a ^ n % 4 = 1 := by
  simp [Nat.pow_mod, one]

theorem powers_parity (one : a % 4 = 1) (n : Nat) : powers a n % 2 = n % 2 := by
  induction n with
  | zero => simp [powers]
  | succ n ih =>
    have odd : a % 2 = 1 := by omega
    rw [powers_succ, Nat.add_mod, Nat.mul_mod, odd, ih]
    omega

theorem odd_dvd {m o : Nat} (odd : o % 2 = 1) : 2 ^ k ∣ m * o ↔ 2 ^ k ∣ m := by
  have coprime : Nat.Coprime (2 ^ k) o := Nat.Coprime.pow_left k ((Nat.coprime_two_left).mpr (Nat.odd_iff.mpr odd))
  exact ⟨coprime.dvd_of_dvd_mul_right, fun divides => Dvd.dvd.mul_right divides o⟩

/- By halving: the sum of the first `2 * m` powers is the sum of the first `m`, twice, times something odd. -/
theorem powers_dvd (one : a % 4 = 1) (n : Nat) : 2 ^ k ∣ powers a n ↔ 2 ^ k ∣ n := by
  induction k generalizing n with
  | zero => simp
  | succ k ih =>
    have parity := powers_parity one n
    rcases Nat.even_or_odd' n with ⟨m, even | odd⟩
    · have four := pow_mod_four one m
      have half : powers a n = 2 * (powers a m * ((a ^ m + 1) / 2)) := by
        have double : a ^ m + 1 = 2 * ((a ^ m + 1) / 2) := by omega
        calc powers a n = powers a m * (a ^ m + 1) := by rw [even, Nat.two_mul, powers_add]; ring
          _ = powers a m * (2 * ((a ^ m + 1) / 2)) := by rw [← double]
          _ = 2 * (powers a m * ((a ^ m + 1) / 2)) := by ring
      rw [half, even, pow_succ, Nat.mul_comm (2 ^ k), Nat.mul_dvd_mul_iff_left (by decide),
        Nat.mul_dvd_mul_iff_left (by decide), odd_dvd (by omega), ih]
    · have two : 2 ∣ 2 ^ (k + 1) := Dvd.intro_left _ rfl
      constructor
      · intro divides
        have := two.trans divides
        omega
      · intro divides
        have := two.trans divides
        omega

theorem iterate_step (one : a % 4 = 1) (n x : Nat) :
    (step a c k)^[n + 1] x = (x + powers a (n + 1) * ((a - 1) * x + c)) % 2 ^ k := by
  have split : a = (a - 1) + 1 := by omega
  have closed : ∀ n, (step a c k)^[n + 1] x = (a ^ (n + 1) * x + powers a (n + 1) * c) % 2 ^ k := by
    intro n
    induction n with
    | zero => simp [step, powers]
    | succ n ih =>
      rw [Function.iterate_succ_apply', ih]
      unfold step
      rw [Nat.add_mod, Nat.mul_mod, Nat.mod_mod, ← Nat.mul_mod, ← Nat.add_mod, powers_succ (n + 1), pow_succ a (n + 1)]
      congr 1
      ring
  rw [closed, power_from_powers one]
  congr 1
  ring

/- Two of the values are equal only where the step counts differ by a multiple of the modulus. -/
theorem iterate_injective (one : a % 4 = 1) (odd : c % 2 = 1) {x i j : Nat} (order : i ≤ j)
    (same : (step a c k)^[i + 1] x = (step a c k)^[j + 1] x) : 2 ^ k ∣ j - i := by
  rw [iterate_step one, iterate_step one] at same
  have increment : ((a - 1) * x + c) % 2 = 1 := by
    have even : (a - 1) % 2 = 0 := by omega
    rw [Nat.add_mod, Nat.mul_mod, even, Nat.zero_mul]
    omega
  have unit := pow_mod_four one (i + 1)
  have shift : powers a (j + 1) = powers a (i + 1) + a ^ (i + 1) * powers a (j - i) := by
    rw [← powers_add]
    congr 1
    omega
  have grows : powers a (i + 1) ≤ powers a (j + 1) := by
    rw [shift]
    exact Nat.le_add_right _ _
  have divides := (Nat.modEq_iff_dvd' (Nat.add_le_add_left (Nat.mul_le_mul_right _ grows) x)).mp same
  rw [Nat.add_sub_add_left, ← Nat.sub_mul, odd_dvd increment, shift, Nat.add_sub_cancel_left, Nat.mul_comm,
    odd_dvd (by omega), powers_dvd one] at divides
  exact divides

/-- The values of one period are the numbers below the modulus. -/
theorem period_values (one : a % 4 = 1) (odd : c % 2 = 1) (x : Nat) :
    (Finset.range (2 ^ k)).image (fun i => (step a c k)^[i + 1] x) = Finset.range (2 ^ k) := by
  apply Finset.eq_of_subset_of_card_le
  · intro y mem
    obtain ⟨i, -, value⟩ := Finset.mem_image.mp mem
    rw [Finset.mem_range, ← value, Function.iterate_succ_apply']
    exact Nat.mod_lt _ (Nat.two_pow_pos k)
  · have injective : Set.InjOn (fun i => (step a c k)^[i + 1] x) (Finset.range (2 ^ k)) := by
      intro i below j above same
      have low := Finset.mem_range.mp below
      have high := Finset.mem_range.mp above
      rcases Nat.le_total i j with order | order
      · have divides := iterate_injective one odd order same
        have := Nat.eq_zero_of_dvd_of_lt divides (by omega)
        omega
      · have divides := iterate_injective one odd order same.symm
        have := Nat.eq_zero_of_dvd_of_lt divides (by omega)
        omega
    rw [Finset.card_image_of_injOn injective]

/-- How often a property holds in one period. -/
theorem period_count (one : a % 4 = 1) (odd : c % 2 = 1) (x : Nat) (P : Nat → Prop) [DecidablePred P] :
    ((Finset.range (2 ^ k)).filter fun i => P ((step a c k)^[i + 1] x)).card = ((Finset.range (2 ^ k)).filter P).card := by
  have values := period_values (k := k) one odd x
  have injective : Set.InjOn (fun i => (step a c k)^[i + 1] x) (Finset.range (2 ^ k)) := by
    apply Finset.card_image_iff.mp
    rw [values]
  rw [← Finset.card_image_of_injOn (injective.mono fun i mem => (Finset.mem_filter.mp mem).1), ← Finset.filter_image, values]

/- The numbers whose upper part has a property, each with all its lower parts. -/
theorem card_upper {low total : Nat} (positive : 0 < low) (P : Nat → Prop) [DecidablePred P] :
    ((Finset.range (low * total)).filter fun s => P (s / low)).card = low * ((Finset.range total).filter P).card := by
  have upper : ∀ {l u : Nat}, l < low → (l + low * u) / low = u := by
    intro l u small
    rw [Nat.add_mul_div_left _ _ positive, Nat.div_eq_of_lt small, Nat.zero_add]
  have digits : (Finset.range (low * total)).filter (fun s => P (s / low)) =
      (Finset.range low ×ˢ (Finset.range total).filter P).image fun d => d.1 + low * d.2 := by
    ext s
    rw [Finset.mem_filter, Finset.mem_image, Finset.mem_range]
    constructor
    · rintro ⟨inside, here⟩
      refine ⟨(s % low, s / low), ?_, Nat.mod_add_div s low⟩
      rw [Finset.mem_product, Finset.mem_range, Finset.mem_filter, Finset.mem_range]
      exact ⟨Nat.mod_lt s positive, Nat.div_lt_of_lt_mul inside, here⟩
    · rintro ⟨⟨l, u⟩, mem, rfl⟩
      rw [Finset.mem_product, Finset.mem_range, Finset.mem_filter, Finset.mem_range] at mem
      obtain ⟨small, large, here⟩ := mem
      dsimp only at small large here ⊢
      rw [upper small]
      refine ⟨?_, here⟩
      calc l + low * u < low + low * u := Nat.add_lt_add_right small _
        _ = low * (u + 1) := by ring
        _ ≤ low * total := Nat.mul_le_mul_left _ large
  rw [digits, Finset.card_image_of_injOn, Finset.card_product, Finset.card_range]
  rintro ⟨l, u⟩ mem ⟨l', u'⟩ mem' same
  have small := Finset.mem_range.mp (Finset.mem_product.mp mem).1
  have small' := Finset.mem_range.mp (Finset.mem_product.mp mem').1
  dsimp only at small small' same
  have above : u = u' := by
    rw [← upper (u := u) small, ← upper (u := u') small', same]
  subst above
  rw [Nat.add_right_cancel same]

end FullPeriod
