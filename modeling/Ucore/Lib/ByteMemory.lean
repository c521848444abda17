import Mathlib

/- A memory as a map from addresses to what is there, and sequences that lie in it. -/
namespace ByteMemory
variable {α : Type}

/-- The memory with `src` from `addr` on. -/
def put (s : Nat → Option α) (addr : Nat) (src : List α) : Nat → Option α :=
  fun a => if addr ≤ a ∧ a < addr + src.length then src[a - addr]? else s a

/-- `src` lies from `addr` on. -/
def Has (s : Nat → Option α) (addr : Nat) (src : List α) : Prop :=
  ∀ j < src.length, s (addr + j) = src[j]?

variable {s : Nat → Option α} {addr a : Nat} {src x y : List α}

theorem put_nil : put s addr [] = s := by
  funext a
  apply if_neg
  rw [List.length_nil]
  omega

theorem put_outside (outside : a < addr ∨ addr + src.length ≤ a) : put s addr src a = s a := by
  apply if_neg
  omega

/- Two that do not meet, in either order. -/
theorem put_comm {low : Nat} (apart : low + x.length ≤ addr) :
    put (put s low x) addr y = put (put s addr y) low x := by
  funext a
  by_cases high : addr ≤ a
  · rw [put_outside (s := put s addr y) (by omega)]
    unfold put
    rw [if_neg (show ¬ (low ≤ a ∧ a < low + x.length) by omega)]
  · rw [put_outside (by omega)]
    unfold put
    rw [if_neg (show ¬ (addr ≤ a ∧ a < addr + y.length) by omega)]

theorem put_append : put (put s addr x) (addr + x.length) y = put s addr (x ++ y) := by
  funext a
  unfold put
  rw [List.length_append]
  by_cases high : addr + x.length ≤ a ∧ a < addr + x.length + y.length
  · rw [if_pos high, if_pos (by omega), List.getElem?_append_right (by omega), Nat.sub_sub]
  · rw [if_neg high]
    by_cases low : addr ≤ a ∧ a < addr + x.length
    · rw [if_pos low, if_pos (by omega), List.getElem?_append_left (by omega)]
    · rw [if_neg low, if_neg (by omega)]

theorem put_has : Has (put s addr src) addr src := by
  intro j inside
  unfold put
  rw [if_pos (by omega), Nat.add_sub_cancel_left]

theorem has_append : Has s addr (x ++ y) ↔ Has s addr x ∧ Has s (addr + x.length) y := by
  constructor
  · intro whole
    refine ⟨fun j inside => ?_, fun j inside => ?_⟩
    · rw [whole j (by rw [List.length_append]; omega), List.getElem?_append_left inside]
    · rw [Nat.add_assoc, whole _ (by rw [List.length_append]; omega), List.getElem?_append_right (by omega),
        Nat.add_sub_cancel_left]
  · rintro ⟨low, high⟩ j inside
    rw [List.length_append] at inside
    by_cases first : j < x.length
    · rw [low j first, List.getElem?_append_left first]
    · have later := high (j - x.length) (by omega)
      rwa [Nat.add_assoc, Nat.add_sub_of_le (not_lt.mp first), ← List.getElem?_append_right (not_lt.mp first)] at later

/- What lies elsewhere stays. -/
theorem has_put {low : Nat} (has : Has s low x) (apart : low + x.length ≤ addr ∨ addr + src.length ≤ low) :
    Has (put s addr src) low x := by
  intro j inside
  rw [put_outside (by omega), has j inside]

/- Pieces one behind the other, of which each has its place. -/
theorem has_flatten (pieces : List (List α)) : ∀ {addr : Nat}, Has s addr pieces.flatten →
    ∀ i (inside : i < pieces.length), Has s (addr + (pieces.take i).flatten.length) pieces[i] := by
  induction pieces with
  | nil => nofun
  | cons first rest ih =>
    intro addr has i inside
    rw [List.flatten_cons] at has
    obtain ⟨here, later⟩ := has_append.mp has
    cases i with
    | zero => exact here
    | succ n =>
      rw [List.take_succ_cons, List.flatten_cons, List.length_append, ← Nat.add_assoc]
      exact ih later n (Nat.lt_of_succ_lt_succ inside)

end ByteMemory
