import Mathlib

/- Doubly linked lists that end in null pointers, and what pushing and unlinking an
   element leave of one. -/
namespace TwoWay
variable {N : Type*} {next back next' back' : N → Option N} {prev start : Option N} {p : N} {xs ys : List N}

/-- From `start` on, `next` runs through the elements of the list and `back` runs the other way; in front
of the first one is `prev`. -/
def Listed (next back : N → Option N) : Option N → Option N → List N → Prop
  | _, start, [] => start = none
  | prev, start, x :: xs => start = some x ∧ back x = prev ∧ Listed next back (some x) (next x) xs

theorem listed_congr (sameNext : ∀ x ∈ xs, next' x = next x) (sameBack : ∀ x ∈ xs, back' x = back x)
    (listed : Listed next back prev start xs) : Listed next' back' prev start xs := by
  induction xs generalizing prev start with
  | nil => exact listed
  | cons x xs ih =>
    obtain ⟨first, before, rest⟩ := listed
    refine ⟨first, (sameBack x (List.mem_cons_self ..)).trans before, ?_⟩
    rw [sameNext x (List.mem_cons_self ..)]
    exact ih (fun y mem => sameNext y (List.mem_cons_of_mem _ mem))
      (fun y mem => sameBack y (List.mem_cons_of_mem _ mem)) rest

theorem listed_head (listed : Listed next back prev start xs) : start = xs.head? := by
  cases xs with
  | nil => exact listed
  | cons x xs => exact listed.1

theorem listed_push (fresh : p ∉ xs) (nextSelf : next' p = start) (backSelf : back' p = prev)
    (nextKept : ∀ x ∈ xs, next' x = next x) (backHead : ∀ x, start = some x → back' x = some p)
    (backKept : ∀ x ∈ xs, start ≠ some x → back' x = back x) (nodup : xs.Nodup)
    (listed : Listed next back prev start xs) : Listed next' back' prev (some p) (p :: xs) := by
  refine ⟨rfl, backSelf, ?_⟩
  rw [nextSelf]
  cases xs with
  | nil => exact listed
  | cons x xs =>
    obtain ⟨first, _, rest⟩ := listed
    have outside : ∀ y ∈ xs, y ≠ x := by
      rintro y mem rfl
      exact (List.nodup_cons.mp nodup).1 mem
    refine ⟨first, backHead x first, ?_⟩
    rw [nextKept x (List.mem_cons_self ..)]
    refine listed_congr (fun y mem => nextKept y (List.mem_cons_of_mem _ mem)) (fun y mem => ?_) rest
    refine backKept y (List.mem_cons_of_mem _ mem) fun same => ?_
    rw [first] at same
    exact outside y mem (Option.some.inj same).symm

/- The neighbours of an element. -/
theorem listed_next (listed : Listed next back prev start (xs ++ p :: ys)) : next p = ys.head? := by
  induction xs generalizing prev start with
  | nil => exact listed_head listed.2.2
  | cons x xs ih => exact ih listed.2.2

theorem listed_back (listed : Listed next back prev start (xs ++ p :: ys)) :
    back p = xs.getLast?.or prev := by
  induction xs generalizing prev start with
  | nil => exact listed.2.1
  | cons x xs ih =>
    rw [ih listed.2.2]
    cases xs with
    | nil => rfl
    | cons y xs =>
      rw [List.getLast?_cons_cons]
      cases last : (y :: xs).getLast? with
      | none => cases List.getLast?_eq_none_iff.mp last
      | some z => rfl

theorem listed_unlink (listed : Listed next back prev start (xs ++ p :: ys)) (nodup : (xs ++ p :: ys).Nodup)
    (outside : ∀ x ∈ xs ++ p :: ys, prev ≠ some x)
    (nextKept : ∀ x ∈ xs ++ ys, back p ≠ some x → next' x = next x)
    (nextOver : ∀ x ∈ xs, back p = some x → next' x = next p)
    (backKept : ∀ x ∈ xs ++ ys, next p ≠ some x → back' x = back x)
    (backOver : ∀ x ∈ ys, next p = some x → back' x = back p) :
    Listed next' back' prev (if xs = [] then next p else start) (xs ++ ys) := by
  induction xs generalizing prev start with
  | nil =>
    obtain ⟨_, before, rest⟩ := listed
    rw [if_pos rfl]
    have notBack : ∀ x ∈ ys, back p ≠ some x := by
      intro x mem same
      rw [before] at same
      exact outside x (List.mem_cons_of_mem _ mem) same
    cases ys with
    | nil => exact rest
    | cons y ys =>
      obtain ⟨first, _, rest'⟩ := rest
      have distinct := (List.nodup_cons.mp (List.nodup_cons.mp nodup).2).1
      refine ⟨first, (backOver y (List.mem_cons_self ..) first).trans before, ?_⟩
      have mem_tail : ∀ x ∈ ys, x ∈ y :: ys := fun x mem => List.mem_cons_of_mem _ mem
      rw [nextKept y (List.mem_cons_self ..) (notBack y (List.mem_cons_self ..))]
      refine listed_congr (fun x mem => nextKept x (mem_tail x mem) (notBack x (mem_tail x mem)))
        (fun x mem => backKept x (mem_tail x mem) fun same => ?_) rest'
      rw [first] at same
      rw [Option.some.inj same] at distinct
      exact distinct mem
  | cons x xs ih =>
    obtain ⟨first, before, rest⟩ := listed
    obtain ⟨fresh, tailNodup⟩ := List.nodup_cons.mp nodup
    rw [if_neg (List.cons_ne_nil _ _)]
    have after : next p = ys.head? := listed_next rest
    have tail := ih rest tailNodup (fun y mem same => fresh (Option.some.inj same ▸ mem))
      (fun y mem => nextKept y (List.mem_cons_of_mem _ mem))
      (fun y mem => nextOver y (List.mem_cons_of_mem _ mem))
      (fun y mem => backKept y (List.mem_cons_of_mem _ mem))
    refine ⟨first, ?_, ?_⟩
    · rw [backKept x (List.mem_cons_self ..) ?_]
      · exact before
      · rw [after]
        intro head
        exact fresh (List.mem_append_right _ (List.mem_cons_of_mem _ (List.mem_of_head? head)))
    · have back_p := listed_back rest
      cases xs with
      | nil =>
        rw [nextOver x (List.mem_cons_self ..) back_p]
        exact tail
      | cons z zs =>
        have last : back p ≠ some x := by
          rw [back_p]
          intro same
          cases ends : (z :: zs).getLast? with
          | none => cases List.getLast?_eq_none_iff.mp ends
          | some w =>
            rw [ends] at same
            cases same
            exact fresh (List.mem_append_left _ (List.mem_of_getLast? ends))
        rw [nextKept x (List.mem_cons_self ..) last]
        exact tail

end TwoWay
