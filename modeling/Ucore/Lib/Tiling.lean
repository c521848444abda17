import Mathlib

/- An area of addresses divided into blocks, each with a length, that do not overlap. -/
namespace Tiling
variable {B : Finset Nat} {len len' : Nat → Nat} {Area Area' : Nat → Prop} {a b k p x : Nat}

structure Tiles (B : Finset Nat) (len : Nat → Nat) (Area : Nat → Prop) : Prop where
  positive : ∀ a ∈ B, 0 < len a
  apart : ∀ a ∈ B, ∀ b ∈ B, a < b → a + len a ≤ b
  covered : ∀ x, (∃ a ∈ B, a ≤ x ∧ x < a + len a) ↔ Area x

theorem Tiles.congr (tiles : Tiles B len Area) (same : ∀ a ∈ B, len' a = len a) : Tiles B len' Area := by
  refine ⟨fun a mem => ?_, fun a ma b mb less => ?_, fun x => ?_⟩
  · rw [same a mem]
    exact tiles.positive a mem
  · rw [same a ma]
    exact tiles.apart a ma b mb less
  · rw [← tiles.covered x]
    constructor
    · rintro ⟨a, mem, inside⟩
      exact ⟨a, mem, by rwa [same a mem] at inside⟩
    · rintro ⟨a, mem, inside⟩
      exact ⟨a, mem, by rwa [same a mem]⟩

/- No block starts inside another. -/
theorem Tiles.start (tiles : Tiles B len Area) (ma : a ∈ B) (mb : b ∈ B) (low : a ≤ b) (high : b < a + len a) : a = b := by
  by_contra ne
  have := tiles.apart a ma b mb (by omega)
  omega

theorem Tiles.start_in (tiles : Tiles B len Area) (ma : a ∈ B) : Area a :=
  (tiles.covered a).mp ⟨a, ma, Nat.le_refl a, Nat.lt_add_of_pos_right (tiles.positive a ma)⟩

theorem Tiles.last_in (tiles : Tiles B len Area) (ma : a ∈ B) : Area (a + len a - 1) := by
  have positive := tiles.positive a ma
  exact (tiles.covered _).mp ⟨a, ma, by omega, by omega⟩

/- Every address of the area is in exactly one block. -/
theorem Tiles.unique (tiles : Tiles B len Area) (here : Area x) : ∃! a, a ∈ B ∧ a ≤ x ∧ x < a + len a := by
  obtain ⟨a, ma, low, high⟩ := (tiles.covered x).mpr here
  refine ⟨a, ⟨ma, low, high⟩, fun b ⟨mb, low', high'⟩ => ?_⟩
  rcases Nat.lt_trichotomy b a with less | same | less
  · have := tiles.apart b mb a ma less
    omega
  · exact same
  · have := tiles.apart a ma b mb less
    omega

/- Two neighbours become one block. -/
theorem Tiles.join (tiles : Tiles B len Area) (ma : a ∈ B) (mb : b ∈ B) (meet : a + len a = b)
    (at_a : len' a = len a + len b) (others : ∀ c ∈ B, c ≠ a → c ≠ b → len' c = len c) :
    Tiles (B.erase b) len' Area := by
  have pos_a := tiles.positive a ma
  have pos_b := tiles.positive b mb
  refine ⟨fun c mem => ?_, fun c mc d md less => ?_, fun x => ?_⟩
  · obtain ⟨other, old⟩ := Finset.mem_erase.mp mem
    by_cases here : c = a
    · rw [here, at_a]
      omega
    · rw [others c old here other]
      exact tiles.positive c old
  · obtain ⟨other, old⟩ := Finset.mem_erase.mp mc
    obtain ⟨other', old'⟩ := Finset.mem_erase.mp md
    by_cases here : c = a
    · subst here
      have first := tiles.apart c ma d old' less
      have second : b < d := by omega
      have := tiles.apart b mb d old' second
      rw [at_a]
      omega
    · rw [others c old here other]
      exact tiles.apart c old d old' less
  · rw [← tiles.covered x]
    constructor
    · rintro ⟨c, mem, low, high⟩
      obtain ⟨other, old⟩ := Finset.mem_erase.mp mem
      by_cases here : c = a
      · subst here
        rw [at_a] at high
        by_cases first : x < c + len c
        · exact ⟨c, ma, low, first⟩
        · exact ⟨b, mb, by omega, by omega⟩
      · rw [others c old here other] at high
        exact ⟨c, old, low, high⟩
    · rintro ⟨c, mem, low, high⟩
      by_cases second : c = b
      · subst second
        exact ⟨a, Finset.mem_erase.mpr ⟨by omega, ma⟩, by omega, by rw [at_a]; omega⟩
      · by_cases here : c = a
        · subst here
          exact ⟨c, Finset.mem_erase.mpr ⟨by omega, ma⟩, low, by rw [at_a]; omega⟩
        · exact ⟨c, Finset.mem_erase.mpr ⟨second, mem⟩, low, by rw [others c mem here second]; exact high⟩

/- A block becomes two. -/
theorem Tiles.split (tiles : Tiles B len Area) (ma : a ∈ B) (positive : 0 < k) (less : k < len a) (at_a : len' a = k)
    (at_rest : len' (a + k) = len a - k) (others : ∀ c ∈ B, c ≠ a → len' c = len c) :
    Tiles (insert (a + k) B) len' Area := by
  have new : ∀ c ∈ B, c ≠ a + k := by
    rintro _ mem rfl
    have := tiles.start ma mem (Nat.le_add_right a k) (by omega)
    omega
  refine ⟨fun c mem => ?_, fun c mc d md before => ?_, fun x => ?_⟩
  · rcases Finset.mem_insert.mp mem with rfl | old
    · rw [at_rest]
      omega
    · by_cases here : c = a
      · rw [here, at_a]
        exact positive
      · rw [others c old here]
        exact tiles.positive c old
  · rcases Finset.mem_insert.mp mc with rfl | old
    · rcases Finset.mem_insert.mp md with rfl | old'
      · omega
      · have := tiles.apart a ma d old' (by omega)
        rw [at_rest]
        omega
    · rcases Finset.mem_insert.mp md with rfl | old'
      · by_cases here : c = a
        · rw [here, at_a]
        · rw [others c old here]
          by_cases after : a < c
          · have := tiles.apart a ma c old after
            omega
          · have := tiles.apart c old a ma (by omega)
            omega
      · have apart := tiles.apart c old d old' before
        by_cases here : c = a
        · subst here
          rw [at_a]
          omega
        · rw [others c old here]
          exact apart
  · rw [← tiles.covered x]
    constructor
    · rintro ⟨c, mem, low, high⟩
      rcases Finset.mem_insert.mp mem with rfl | old
      · rw [at_rest] at high
        exact ⟨a, ma, by omega, by omega⟩
      · by_cases here : c = a
        · subst here
          rw [at_a] at high
          exact ⟨c, ma, low, by omega⟩
        · rw [others c old here] at high
          exact ⟨c, old, low, high⟩
    · rintro ⟨c, mem, low, high⟩
      by_cases here : c = a
      · subst here
        by_cases first : x < c + k
        · exact ⟨c, Finset.mem_insert_of_mem ma, low, by rw [at_a]; exact first⟩
        · exact ⟨c + k, Finset.mem_insert_self .., by omega, by rw [at_rest]; omega⟩
      · exact ⟨c, Finset.mem_insert_of_mem mem, low, by rw [others c mem here]; exact high⟩

/- A new block outside of the area. -/
theorem Tiles.extend (tiles : Tiles B len Area) (positive : 0 < len' p) (outside : ∀ x, p ≤ x → x < p + len' p → ¬ Area x)
    (others : ∀ c ∈ B, len' c = len c) (area : ∀ x, Area' x ↔ Area x ∨ p ≤ x ∧ x < p + len' p) :
    Tiles (insert p B) len' Area' := by
  refine ⟨fun c mem => ?_, fun c mc d md before => ?_, fun x => ?_⟩
  · rcases Finset.mem_insert.mp mem with rfl | old
    · exact positive
    · rw [others c old]
      exact tiles.positive c old
  · rcases Finset.mem_insert.mp mc with rfl | old
    · rcases Finset.mem_insert.mp md with rfl | old'
      · omega
      · by_contra inside
        exact outside d (by omega) (by omega) (tiles.start_in old')
    · rw [others c old]
      rcases Finset.mem_insert.mp md with rfl | old'
      · by_contra inside
        exact outside d (Nat.le_refl d) (by omega) ((tiles.covered d).mp ⟨c, old, by omega, by omega⟩)
      · exact tiles.apart c old d old' before
  · rw [area x, ← tiles.covered x]
    constructor
    · rintro ⟨c, mem, low, high⟩
      rcases Finset.mem_insert.mp mem with rfl | old
      · exact .inr ⟨low, high⟩
      · exact .inl ⟨c, old, low, by rwa [others c old] at high⟩
    · rintro (⟨c, old, low, high⟩ | inside)
      · exact ⟨c, Finset.mem_insert_of_mem old, low, by rwa [others c old]⟩
      · exact ⟨p, Finset.mem_insert_self .., inside⟩

end Tiling
