import Mathlib.Data.Set.Card

/- A count of the parties that are of a kind, when one of them changes. -/
namespace Counting
variable {P A : Type*} [DecidableEq P] {f : P → A} {D : A → Bool} {n : Int} {p : P} {a : A}

omit [DecidableEq P] in
/-- `n` counts the parties of kind `D`. -/
structure Counts (D : A → Bool) (f : P → A) (n : Int) : Prop where
  finite : {q | D (f q) = true}.Finite
  card : n = {q | D (f q) = true}.ncard

omit [DecidableEq P] in
theorem Counts.positive (counts : Counts D f n) : 0 < n ↔ ∃ q, D (f q) = true := by
  rw [counts.card, Int.natCast_pos, Set.ncard_pos counts.finite]
  exact Iff.rfl

omit [DecidableEq P] in
theorem none_counts (nobody : ∀ q, D (f q) = false) : Counts D f 0 := by
  have empty : {q | D (f q) = true} = ∅ := by
    ext q
    simp [nobody q]
  refine ⟨empty ▸ Set.finite_empty, ?_⟩
  rw [empty, Set.ncard_empty]
  rfl

theorem Counts.kept (counts : Counts D f n) (same : D a = D (f p)) : Counts D (Function.update f p a) n := by
  have set : {q | D (Function.update f p a q) = true} = {q | D (f q) = true} := by
    ext q
    by_cases here : q = p
    · subst here
      simp [same]
    · simp [here]
  exact ⟨set ▸ counts.finite, set ▸ counts.card⟩

theorem Counts.joined (counts : Counts D f n) (before : D (f p) = false) (after : D a = true) :
    Counts D (Function.update f p a) (n + 1) := by
  have set : {q | D (Function.update f p a q) = true} = insert p {q | D (f q) = true} := by
    ext q
    by_cases here : q = p
    · subst here
      simp [after]
    · simp [here]
  have fresh : p ∉ {q | D (f q) = true} := fun inside => absurd (before.symm.trans inside) Bool.noConfusion
  refine ⟨set ▸ counts.finite.insert p, ?_⟩
  rw [set, Set.ncard_insert_of_notMem fresh counts.finite, counts.card]
  rfl

theorem Counts.left (counts : Counts D f n) (before : D (f p) = true) (after : D a = false) :
    Counts D (Function.update f p a) (n - 1) := by
  have set : {q | D (Function.update f p a q) = true} = {q | D (f q) = true} \ {p} := by
    ext q
    by_cases here : q = p
    · subst here
      simp [after]
    · simp [here]
  have one := Set.ncard_sdiff_singleton_add_one (show p ∈ {q | D (f q) = true} from before) counts.finite
  refine ⟨set ▸ counts.finite.sdiff, ?_⟩
  rw [set, counts.card]
  omega

end Counting
