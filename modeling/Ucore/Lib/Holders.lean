import Mathlib.Data.Finset.Card

/- How many of the live parties point to a thing, when one joins and when one leaves. -/
namespace Holders
variable {P R : Type*} [DecidableEq P] [DecidableEq R] {live : Finset P} {points : P → R} {p child : P}
  {f : R}

theorem card_joined (new : child ∉ live) (g : R) :
    ((insert child live).filter fun p => Function.update points child f p = g).card =
      (live.filter fun p => points p = g).card + if g = f then 1 else 0 := by
  have others : (live.filter fun p => Function.update points child f p = g) =
      live.filter fun p => points p = g := by
    apply Finset.filter_congr
    intro p mem
    have ne : p ≠ child := fun same => new (same ▸ mem)
    rw [Function.update_of_ne ne]
  rw [Finset.filter_insert, Function.update_self, others]
  by_cases same : f = g
  · rw [if_pos same, if_pos same.symm, Finset.card_insert_of_notMem]
    exact fun mem => new (Finset.mem_filter.mp mem).1
  · rw [if_neg same, if_neg (Ne.symm same), Nat.add_zero]

theorem card_left (points : P → R) (mem : p ∈ live) (g : R) :
    ((live.erase p).filter fun q => points q = g).card + (if g = points p then 1 else 0) =
      (live.filter fun q => points q = g).card := by
  rw [Finset.filter_erase]
  by_cases same : g = points p
  · have inside : p ∈ live.filter fun q => points q = g := Finset.mem_filter.mpr ⟨mem, same.symm⟩
    rw [if_pos same, Finset.card_erase_add_one inside]
  · have outside : p ∉ live.filter fun q => points q = g :=
      fun inside => same (Finset.mem_filter.mp inside).2.symm
    rw [if_neg same, Finset.erase_eq_of_notMem outside, Nat.add_zero]

/- One party turns from a thing to another. -/
theorem card_moved {points' : P → R} (mem : p ∈ live) (others : ∀ q ∈ live, q ≠ p → points' q = points q)
    (g : R) : (live.filter fun q => points' q = g).card + (if points p = g then 1 else 0) =
      (live.filter fun q => points q = g).card + if points' p = g then 1 else 0 := by
  have rest : ((live.erase p).filter fun q => points' q = g) = (live.erase p).filter fun q => points q = g := by
    apply Finset.filter_congr
    intro q inside
    rw [others q (Finset.mem_of_mem_erase inside) (Finset.ne_of_mem_erase inside)]
  have before := card_left points mem g
  have after := card_left points' mem g
  rw [rest] at after
  simp only [eq_comm (a := g)] at before after
  omega

end Holders
