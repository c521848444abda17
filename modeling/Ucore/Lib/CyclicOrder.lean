import Mathlib

/- A finite set arranged in a circle by its order: each element is followed by the next larger one, and the largest by the
   smallest. -/
namespace CyclicOrder
variable {N : Type} [LinearOrder N] {F : Finset N} {next next' : N → N} {a b c p q r : N}

def Follows (F : Finset N) (a b : N) : Prop :=
  a < b ∧ (∀ c ∈ F, c ≤ a ∨ b ≤ c) ∨ b ≤ a ∧ ∀ c ∈ F, b ≤ c ∧ c ≤ a

structure Circle (F : Finset N) (next : N → N) : Prop where
  mem : ∀ a ∈ F, next a ∈ F
  follows : ∀ a ∈ F, Follows F a (next a)

/- The place of `b` is behind `p`, before `q`. -/
def Between (p b q : N) : Prop := p < b ∧ b < q ∨ q ≤ p ∧ (p < b ∨ b < q)

theorem follows_mono {G : Finset N} (sub : G ⊆ F) (follows : Follows F a b) : Follows G a b := by
  rcases follows with ⟨less, apart⟩ | ⟨back, ends⟩
  · exact .inl ⟨less, fun c mem => apart c (sub mem)⟩
  · exact .inr ⟨back, fun c mem => ends c (sub mem)⟩

theorem follows_left_unique (ma : a ∈ F) (mp : p ∈ F) (first : Follows F a q) (second : Follows F p q) : a = p := by
  rcases first with ⟨less, apart⟩ | ⟨back, ends⟩
  · rcases second with ⟨less', apart'⟩ | ⟨back', ends'⟩
    · have one := apart p mp
      have two := apart' a ma
      rcases one with one | one <;> rcases two with two | two <;> order
    · have one := ends' a ma
      order
  · rcases second with ⟨less', apart'⟩ | ⟨back', ends'⟩
    · have one := ends p mp
      order
    · have one := ends p mp
      have two := ends' a ma
      order

theorem Circle.congr (circle : Circle F next) (same : ∀ a ∈ F, next' a = next a) : Circle F next' :=
  ⟨fun a mem => by rw [same a mem]; exact circle.mem a mem, fun a mem => by rw [same a mem]; exact circle.follows a mem⟩

/- How many elements lie on the way from `a` to `b`. -/
def distance (F : Finset N) (a b : N) : Nat :=
  if a ≤ b then (F.filter fun c => a < c ∧ c ≤ b).card else (F.filter fun c => a < c ∨ c ≤ b).card

theorem distance_le (F : Finset N) (a b : N) : distance F a b ≤ F.card := by
  unfold distance
  split_ifs
  · exact Finset.card_filter_le ..
  · exact Finset.card_filter_le ..

/- A step brings every other element closer. -/
theorem closer (circle : Circle F next) (ma : a ∈ F) (mb : b ∈ F) (ne : a ≠ b) :
    distance F (next a) b < distance F a b := by
  have mem := circle.mem a ma
  unfold distance
  rcases circle.follows a ma with ⟨less, apart⟩ | ⟨back, ends⟩
  · rcases lt_or_gt_of_ne ne with before | after
    · have reach : next a ≤ b := (apart b mb).resolve_left (by order)
      rw [if_pos reach, if_pos before.le]
      refine Finset.card_lt_card (Finset.ssubset_iff_of_subset ?_ |>.mpr ⟨next a, ?_, ?_⟩)
      · exact Finset.monotone_filter_right _ fun c _ inside => ⟨less.trans inside.1, inside.2⟩
      · exact Finset.mem_filter.mpr ⟨mem, less, reach⟩
      · exact fun inside => lt_irrefl _ (Finset.mem_filter.mp inside).2.1
    · rw [if_neg (by order), if_neg (by order)]
      refine Finset.card_lt_card (Finset.ssubset_iff_of_subset ?_ |>.mpr ⟨next a, ?_, ?_⟩)
      · exact Finset.monotone_filter_right _ fun c _ inside => inside.imp_left less.trans
      · exact Finset.mem_filter.mpr ⟨mem, .inl less⟩
      · intro inside
        rcases (Finset.mem_filter.mp inside).2 with one | one <;> order
  · have low := ends b mb
    rw [if_pos low.1, if_neg (by order)]
    refine Finset.card_lt_card (Finset.ssubset_iff_of_subset ?_ |>.mpr ⟨next a, ?_, ?_⟩)
    · exact Finset.monotone_filter_right _ fun c _ inside => .inr inside.2
    · exact Finset.mem_filter.mpr ⟨mem, .inr low.1⟩
    · exact fun inside => lt_irrefl _ (Finset.mem_filter.mp inside).2.1

/- Going round meets every element. -/
theorem reaches (circle : Circle F next) (mb : b ∈ F) (ma : a ∈ F) : ∃ k, next^[k] a = b := by
  induction measure : distance F a b using Nat.strong_induction_on generalizing a with
  | _ n ih =>
    by_cases here : a = b
    · exact ⟨0, here⟩
    · obtain ⟨k, reached⟩ := ih _ (measure ▸ closer circle ma mb here) (circle.mem a ma) rfl
      exact ⟨k + 1, reached⟩

theorem stays (circle : Circle F next) (ma : a ∈ F) (k : Nat) : next^[k] a ∈ F := by
  induction k with
  | zero => exact ma
  | succ k ih =>
    rw [Function.iterate_succ_apply']
    exact circle.mem _ ih

/- The only descending link is that of the largest element. -/
theorem descends_iff (circle : Circle F next) (ma : a ∈ F) : next a ≤ a ↔ ∀ c ∈ F, c ≤ a := by
  rcases circle.follows a ma with ⟨less, _⟩ | ⟨back, ends⟩
  · exact ⟨fun back => by order, fun all => all _ (circle.mem a ma)⟩
  · exact ⟨fun _ c mem => (ends c mem).2, fun _ => back⟩

/- A new element has its place somewhere. -/
theorem place_exists (circle : Circle F next) (some_there : F.Nonempty) (new : b ∉ F) :
    ∃ p ∈ F, Between p b (next p) := by
  have apart : ∀ {c}, c ∈ F → c ≠ b := fun mem same => new (same ▸ mem)
  by_cases lower : (F.filter (· < b)).Nonempty
  · obtain ⟨p, mem, largest⟩ := (F.filter (· < b)).exists_max_image id lower
    obtain ⟨mp, below⟩ := Finset.mem_filter.mp mem
    refine ⟨p, mp, ?_⟩
    rcases circle.follows p mp with ⟨less, _⟩ | ⟨back, _⟩
    · have ne := apart (circle.mem p mp)
      by_cases under : next p < b
      · have one : next p ≤ p := largest _ (Finset.mem_filter.mpr ⟨circle.mem p mp, under⟩)
        order
      · exact .inl ⟨below, by order⟩
    · exact .inr ⟨back, .inl below⟩
  · obtain ⟨p, mp, largest⟩ := F.exists_max_image id some_there
    refine ⟨p, mp, .inr ⟨largest _ (circle.mem p mp), .inr ?_⟩⟩
    have mem := circle.mem p mp
    have ne := apart mem
    by_contra above
    exact lower ⟨next p, Finset.mem_filter.mpr ⟨mem, by order⟩⟩

theorem follows_insert_other (circle : Circle F next) (mp : p ∈ F) (place : Between p b (next p)) (ma : a ∈ F) (ne : a ≠ p) :
    Follows (insert b F) a (next a) := by
  have mem := circle.mem a ma
  rcases circle.follows a ma with ⟨less, apart⟩ | ⟨back, ends⟩
  · refine .inl ⟨less, fun c there => ?_⟩
    rcases Finset.mem_insert.mp there with rfl | old
    · by_contra inside
      obtain ⟨above, below⟩ := not_or.mp inside
      have one := apart p mp
      rcases circle.follows p mp with ⟨less', apart'⟩ | ⟨back', ends'⟩
      · have two := apart' a ma
        rcases place with place | place <;> rcases one with one | one <;> rcases two with two | two <;> order
      · have two := ends' a ma
        have three := ends' _ mem
        rcases place with place | ⟨_, place | place⟩ <;> order
    · exact apart c old
  · refine .inr ⟨back, fun c there => ?_⟩
    rcases Finset.mem_insert.mp there with rfl | old
    · have one := ends p mp
      have two := ends _ (circle.mem p mp)
      rcases circle.follows p mp with ⟨less', _⟩ | ⟨_, ends'⟩
      · rcases place with place | place
        · constructor <;> order
        · order
      · have three := ends' a ma
        order
    · exact ends c old

/- `b` is put behind `p`. -/
theorem circle_insert (circle : Circle F next) (mp : p ∈ F) (new : b ∉ F) (place : Between p b (next p))
    (at_p : next' p = b) (at_b : next' b = next p) (others : ∀ a ∈ F, a ≠ p → next' a = next a) :
    Circle (insert b F) next' := by
  have after := circle.mem p mp
  refine ⟨fun a mem => ?_, fun a mem => ?_⟩
  · rcases Finset.mem_insert.mp mem with rfl | old
    · rw [at_b]
      exact Finset.mem_insert_of_mem after
    · by_cases here : a = p
      · rw [here, at_p]
        exact Finset.mem_insert_self ..
      · rw [others a old here]
        exact Finset.mem_insert_of_mem (circle.mem a old)
  · rcases Finset.mem_insert.mp mem with rfl | old
    · rw [at_b]
      rcases circle.follows p mp with ⟨less, apart⟩ | ⟨back, ends⟩
      · rcases place with ⟨low, high⟩ | place
        · refine .inl ⟨high, fun c there => ?_⟩
          rcases Finset.mem_insert.mp there with rfl | old
          · exact .inl le_rfl
          · exact (apart c old).imp_left fun below => by order
        · order
      · rcases place with place | ⟨_, low | high⟩
        · order
        · refine .inr ⟨by order, fun c there => ?_⟩
          rcases Finset.mem_insert.mp there with rfl | old
          · exact ⟨by order, le_rfl⟩
          · exact ⟨(ends c old).1, by have := ends c old; order⟩
        · refine .inl ⟨high, fun c there => ?_⟩
          rcases Finset.mem_insert.mp there with rfl | old
          · exact .inl le_rfl
          · exact .inr (ends c old).1
    · by_cases here : a = p
      · subst here
        rw [at_p]
        rcases circle.follows a mp with ⟨less, apart⟩ | ⟨back, ends⟩
        · rcases place with ⟨low, high⟩ | place
          · refine .inl ⟨low, fun c there => ?_⟩
            rcases Finset.mem_insert.mp there with rfl | old
            · exact .inr le_rfl
            · exact (apart c old).imp_right fun above => by order
          · order
        · rcases place with place | ⟨_, low | high⟩
          · order
          · refine .inl ⟨low, fun c there => ?_⟩
            rcases Finset.mem_insert.mp there with rfl | old
            · exact .inr le_rfl
            · exact .inl (ends c old).2
          · refine .inr ⟨by order, fun c there => ?_⟩
            rcases Finset.mem_insert.mp there with rfl | old
            · exact ⟨le_rfl, by order⟩
            · exact ⟨by have := ends c old; order, (ends c old).2⟩
      · rw [others a old here]
        exact follows_insert_other circle mp place old here

/- What follows `p` is taken out. -/
theorem circle_erase (circle : Circle F next) (mp : p ∈ F) (ne : next p ≠ p) (at_p : next' p = next (next p))
    (others : ∀ a ∈ F, a ≠ p → next' a = next a) : Circle (F.erase (next p)) next' := by
  have mq := circle.mem p mp
  have mr := circle.mem _ mq
  have later : Follows (F.erase (next p)) p (next (next p)) := by
    rcases circle.follows p mp with ⟨less, apart⟩ | ⟨back, ends⟩
    · rcases circle.follows _ mq with ⟨less', apart'⟩ | ⟨back', ends'⟩
      · refine .inl ⟨by order, fun c there => ?_⟩
        obtain ⟨other, old⟩ := Finset.mem_erase.mp there
        rcases apart c old with one | one
        · exact .inl one
        · rcases apart' c old with two | two
          · order
          · exact .inr two
      · refine .inr ⟨(ends' p mp).1, fun c there => ?_⟩
        obtain ⟨other, old⟩ := Finset.mem_erase.mp there
        have one := ends' c old
        rcases apart c old with two | two
        · exact ⟨one.1, two⟩
        · order
    · rcases circle.follows _ mq with ⟨less', apart'⟩ | ⟨back', ends'⟩
      · refine .inr ⟨(ends _ mr).2, fun c there => ?_⟩
        obtain ⟨other, old⟩ := Finset.mem_erase.mp there
        have one := ends c old
        rcases apart' c old with two | two
        · order
        · exact ⟨two, one.2⟩
      · have one := ends' p mp
        order
  refine ⟨fun a mem => ?_, fun a mem => ?_⟩
  · obtain ⟨other, old⟩ := Finset.mem_erase.mp mem
    by_cases here : a = p
    · rw [here, at_p]
      refine Finset.mem_erase.mpr ⟨fun same => ?_, mr⟩
      rcases circle.follows _ mq with ⟨less, _⟩ | ⟨_, ends⟩
      · order
      · have one := ends p mp
        rw [same] at one
        order
    · rw [others a old here]
      refine Finset.mem_erase.mpr ⟨fun same => here ?_, circle.mem a old⟩
      exact follows_left_unique old mp (same ▸ circle.follows a old) (circle.follows p mp)
  · obtain ⟨other, old⟩ := Finset.mem_erase.mp mem
    by_cases here : a = p
    · rw [here, at_p]
      exact later
    · rw [others a old here]
      exact follows_mono (Finset.erase_subset ..) (circle.follows a old)

end CyclicOrder
