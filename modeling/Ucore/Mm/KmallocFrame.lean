import Ucore.Mm.KmallocRuns

/- `bigblocks` plays no part in the free list, and `find_order`. -/
namespace Ucore.Slob
open Words
variable {b cur fuel fuel' n prev size units k : Nat} {h t : Heap} {answers left : List Nat} {big : List BigBlock}

def withBig (big : List BigBlock) (h : Heap) : Heap := { h with bigblocks := big }

def resultBig (big : List BigBlock) (r : Option Nat × List Nat × Heap) : Option Nat × List Nat × Heap :=
  (r.1, r.2.1, withBig big r.2.2)

theorem take_big : takeBlock units 0 prev cur (withBig big h) =
    ((takeBlock units 0 prev cur h).1, withBig big (takeBlock units 0 prev cur h).2) := by
  unfold takeBlock
  dsimp only
  rw [if_pos rfl, if_pos rfl]
  dsimp only
  change (if h.units cur = units then _ else _) = _
  split_ifs <;> rfl

theorem find_big : slobFind b (withBig big h) fuel cur = slobFind b h fuel cur := by
  induction fuel generalizing cur with
  | zero => rfl
  | succ fuel ih =>
    unfold slobFind
    rw [ih]
    rfl

theorem merge_big : slobMerge b cur (withBig big h) = withBig big (slobMerge b cur h) := by
  have after : ∀ n, mergeAfter b n (withBig big h) = withBig big (mergeAfter b n h) := by
    intro n
    unfold mergeAfter
    change (if b + h.units b * SLOB_UNIT = n then _ else _) = _
    split_ifs <;> rfl
  have before : ∀ g, mergeBefore b cur (withBig big g) = withBig big (mergeBefore b cur g) := by
    intro g
    unfold mergeBefore
    change (if cur + g.units cur * SLOB_UNIT = b then _ else _) = _
    split_ifs <;> rfl
  unfold slobMerge
  rw [after, before]
  rfl

theorem free_big : slobFree fuel b size (withBig big h) = (slobFree fuel b size h).map (withBig big) := by
  unfold slobFree
  by_cases none_given : b = 0
  · rw [if_pos none_given, if_pos none_given]
    rfl
  rw [if_neg none_given, if_neg none_given]
  dsimp only
  have sized : (if size ≠ 0 then { withBig big h with units := Function.update (withBig big h).units b (slobUnits size) }
      else withBig big h) =
        withBig big (if size ≠ 0 then { h with units := Function.update h.units b (slobUnits size) } else h) := by
    split_ifs <;> rfl
  rw [sized]
  generalize (if size ≠ 0 then { h with units := Function.update h.units b (slobUnits size) } else h) = g
  rw [find_big, Option.map_map]
  change Option.map _ (slobFind b g fuel g.slobfree) = _
  congr 1
  funext cur
  exact merge_big

theorem loop_big (small : size ≠ PAGE_SIZE) : slobLoop size units 0 fuel answers prev cur (withBig big h) =
    (slobLoop size units 0 fuel answers prev cur h).map (resultBig big) := by
  induction fuel generalizing answers prev cur h with
  | zero => rfl
  | succ fuel ih =>
    by_cases room : units ≤ h.units cur
    · rw [loop_take room, loop_take (show units ≤ (withBig big h).units cur from room), take_big]
      rfl
    by_cases round : cur = h.slobfree
    · rw [loop_grow small room round, loop_grow small (show ¬ units ≤ (withBig big h).units cur from room) round]
      unfold slobGrow
      cases answers with
      | nil => rfl
      | cons page answers =>
        dsimp only
        split_ifs with lack
        · rfl
        · rw [free_big]
          cases slobFree fuel page PAGE_SIZE h with
          | none => rfl
          | some t => exact ih
    · rw [loop_next room round, loop_next (show ¬ units ≤ (withBig big h).units cur from room) round]
      exact ih

theorem alloc_big (small : size < 4080) : slobAlloc fuel size 0 answers (withBig big h) =
    (slobAlloc fuel size 0 answers h).map (resultBig big) := by
  unfold slobAlloc
  rw [if_pos (by unfold SLOB_UNIT PAGE_SIZE; omega), if_pos (by unfold SLOB_UNIT PAGE_SIZE; omega)]
  exact loop_big (by unfold PAGE_SIZE; omega)

/- Where the size is what the block has, nothing is set. -/
theorem free_sized (same : h.units b = slobUnits size) : slobFree fuel b size h = slobFree fuel b 0 h := by
  have set : (if size ≠ 0 then { h with units := Function.update h.units b (slobUnits size) } else h) = h := by
    rw [← same, Function.update_eq_self]
    exact ite_self h
  unfold slobFree
  dsimp only
  rw [set, if_neg (show ¬ (0 : Nat) ≠ 0 from not_not.mpr rfl)]

theorem find_order_le (n k : Nat) : findOrder n ≤ k ↔ n < 4097 * 2 ^ k := by
  induction k generalizing n with
  | zero =>
    unfold findOrder
    split_ifs with above
    · exact iff_of_false (Nat.not_succ_le_zero _) (by omega)
    · exact iff_of_true (Nat.le_refl 0) (by omega)
  | succ k ih =>
    have positive := Nat.two_pow_pos k
    unfold findOrder
    split_ifs with above
    · have half : ((n : Int) / 2) = (n / 2 : Nat) := by omega
      rw [half, Nat.add_le_add_iff_right, ih, Nat.pow_succ]
      omega
    · refine iff_of_true (Nat.zero_le _) ?_
      rw [Nat.pow_succ]
      omega

/- The bits that are lost reach up to 4096 times the order's power. -/
theorem run_covers_iff (n : Nat) : n ≤ PAGE_SIZE <<< findOrder n ↔ ∀ k, ¬ (4096 * 2 ^ k < n ∧ n < 4097 * 2 ^ k) := by
  rw [Nat.shiftLeft_eq]
  constructor
  · rintro covered k ⟨above, below⟩
    have order := (find_order_le n k).mpr below
    have := Nat.pow_le_pow_right (n := 2) (by decide) order
    unfold PAGE_SIZE at covered
    omega
  · intro clear
    have := (find_order_le n (findOrder n)).mp (Nat.le_refl _)
    have := clear (findOrder n)
    unfold PAGE_SIZE
    omega

/- From 2^31 on the size does not fit the parameter. -/
theorem whole_run_iff (size : Nat) : size ≤ PAGE_SIZE <<< findOrder (i32 size) ↔
    size < 2 ^ 31 ∧ ∀ k, ¬ (4096 * 2 ^ k < size ∧ size < 4097 * 2 ^ k) := by
  by_cases fits : size < 2 ^ 31
  · rw [i32_exact (by omega) (by omega), run_covers_iff]
    exact (and_iff_right fits).symm
  · refine iff_of_false (fun covered => ?_) fun holds => fits holds.1
    by_cases low : i32 size ≤ 4096
    · have none_halved : findOrder (i32 size) = 0 := by
        unfold findOrder
        exact if_neg (by omega)
      rw [none_halved] at covered
      unfold PAGE_SIZE at covered
      omega
    · obtain ⟨v, value⟩ := Int.eq_ofNat_of_zero_le (show 0 ≤ i32 size by omega)
      have most : i32 size < 2 ^ 31 := by
        unfold i32
        omega
      have beyond : size ≠ 2 ^ 31 := by
        rintro rfl
        exact low (by decide)
      have order : findOrder (i32 size) ≤ 19 := by
        rw [value, find_order_le]
        omega
      have := Nat.pow_le_pow_right (n := 2) (by decide) order
      rw [Nat.shiftLeft_eq] at covered
      unfold PAGE_SIZE at covered
      omega

end Ucore.Slob
