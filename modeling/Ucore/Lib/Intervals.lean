import Mathlib

/- Lists of half-open intervals that are in order and apart from each other: the lookup of a point,
   and where a new interval goes. -/
namespace Intervals
variable {ι α : Type} [LinearOrder α] (lo hi : ι → α)

def Covers (i : ι) (x : α) : Prop := lo i ≤ x ∧ x < hi i

def Apart (i j : ι) : Prop := hi i ≤ lo j ∨ hi j ≤ lo i

structure InOrder (l : List ι) : Prop where
  sorted : l.Pairwise fun low high => hi low ≤ lo high
  proper : ∀ i ∈ l, lo i < hi i

/- The intervals that a new one comes after, and the others. -/
def before (new : ι) (l : List ι) : List ι := l.takeWhile fun old => lo old ≤ lo new

def after (new : ι) (l : List ι) : List ι := l.dropWhile fun old => lo old ≤ lo new

def place (new : ι) (l : List ι) : List ι := before lo new l ++ new :: after lo new l

variable {lo hi} {l : List ι} {i j new : ι} {x : α}

theorem before_append_after : before lo new l ++ after lo new l = l := List.takeWhile_append_dropWhile

theorem place_perm : (place lo new l).Perm (new :: l) := by
  have middle : (place lo new l).Perm (new :: (before lo new l ++ after lo new l)) := List.perm_middle
  rwa [before_append_after] at middle

theorem head_after {next : ι} (mem : next ∈ (after lo new l).head?) : lo new < lo next := by
  have ends := List.head?_dropWhile_not (fun old => decide (lo old ≤ lo new)) l
  unfold after at mem
  rw [Option.mem_def.mp mem] at ends
  simpa using ends

instance : Std.Symm (Apart lo hi) := ⟨fun _ _ => Or.symm⟩

theorem Apart.not_covers (apart : Apart lo hi i j) (covers : Covers lo hi i x) : ¬ Covers lo hi j x := by
  rintro ⟨above, below⟩
  rcases apart with left | right
  · exact absurd (covers.2.trans_le (left.trans above)) (lt_irrefl x)
  · exact absurd (below.trans_le (right.trans covers.1)) (lt_irrefl x)

namespace InOrder

theorem nil : InOrder lo hi [] := ⟨.nil, nofun⟩

theorem apart (order : InOrder lo hi l) (iMem : i ∈ l) (jMem : j ∈ l) (different : i ≠ j) : Apart lo hi i j :=
  (order.sorted.imp (S := Apart lo hi) Or.inl).forall iMem jMem different

theorem unique (order : InOrder lo hi l) (iMem : i ∈ l) (jMem : j ∈ l) (iCovers : Covers lo hi i x)
    (jCovers : Covers lo hi j x) : i = j := by
  by_contra different
  exact (order.apart iMem jMem different).not_covers iCovers jCovers

theorem find_iff {covers : ι → Bool} (meaning : ∀ k, covers k = true ↔ Covers lo hi k x) (order : InOrder lo hi l) :
    l.find? covers = some i ↔ i ∈ l ∧ Covers lo hi i x := by
  constructor
  · intro found
    exact ⟨List.mem_of_find?_eq_some found, (meaning i).mp (List.find?_some found)⟩
  · rintro ⟨mem, iCovers⟩
    cases found : l.find? covers with
    | none => exact absurd ((meaning i).mpr iCovers) (List.find?_eq_none.mp found i mem)
    | some j =>
      have jCovers := (meaning j).mp (List.find?_some found)
      rw [order.unique mem (List.mem_of_find?_eq_some found) iCovers jCovers]

/-- The same intervals are in the same places. -/
theorem eq_of_perm {l' : List ι} (order : InOrder lo hi l) (order' : InOrder lo hi l') (perm : l.Perm l') : l = l' := by
  refine perm.eq_of_pairwise (fun a b aMem bMem ab ba => ?_) order.sorted order'.sorted
  have a_proper := order.proper a aMem
  have b_proper := order'.proper b bMem
  exact absurd (a_proper.trans_le (ab.trans (b_proper.le.trans ba))) (lt_irrefl _)

theorem parts (order : InOrder lo hi l) (new : ι) : InOrder lo hi (before lo new l) ∧ InOrder lo hi (after lo new l) :=
  ⟨⟨order.sorted.sublist (List.takeWhile_sublist _), fun i mem => order.proper i (List.takeWhile_subset _ mem)⟩,
    ⟨order.sorted.sublist (List.dropWhile_sublist _), fun i mem => order.proper i (List.dropWhile_subset _ mem)⟩⟩

/-- Where the neighbour below ends before the new interval, so do all those before it. -/
theorem before_below (order : InOrder lo hi l) (below : ∀ prev ∈ (before lo new l).getLast?, hi prev ≤ lo new) :
    ∀ old ∈ before lo new l, hi old ≤ lo new := by
  intro old mem
  obtain ⟨earlier, last, whole⟩ := List.eq_nil_or_concat (before lo new l) |>.resolve_left (List.ne_nil_of_mem mem)
  have inner := (order.parts new).1
  rw [whole, List.concat_eq_append] at mem below inner
  have last_below : hi last ≤ lo new := below last (by simp)
  rcases List.mem_append.mp mem with far | near
  · have old_last := (List.pairwise_append.mp inner.sorted).2.2 old far last (.head _)
    have last_proper := inner.proper last (by simp)
    exact old_last.trans (last_proper.le.trans last_below)
  · rwa [List.mem_singleton.mp near]

theorem after_above (order : InOrder lo hi l) (above : ∀ next ∈ (after lo new l).head?, hi new ≤ lo next) :
    ∀ old ∈ after lo new l, hi new ≤ lo old := by
  intro old mem
  have inner := (order.parts new).2
  cases whole : after lo new l with
  | nil =>
    rw [whole] at mem
    cases mem
  | cons next rest =>
    rw [whole] at mem inner above
    have next_above : hi new ≤ lo next := above next rfl
    rcases List.mem_cons.mp mem with rfl | later
    · exact next_above
    · have next_old := (List.pairwise_cons.mp inner.sorted).1 old later
      exact next_above.trans ((inner.proper next (.head _)).le.trans next_old)

theorem place (order : InOrder lo hi l) (proper : lo new < hi new)
    (below : ∀ prev ∈ (before lo new l).getLast?, hi prev ≤ lo new)
    (above : ∀ next ∈ (after lo new l).head?, hi new ≤ lo next) : InOrder lo hi (place lo new l) := by
  obtain ⟨beforeOrder, afterOrder⟩ := order.parts new
  have lows := order.before_below below
  have highs := order.after_above above
  refine ⟨List.pairwise_append.mpr ⟨beforeOrder.sorted, List.pairwise_cons.mpr ⟨highs, afterOrder.sorted⟩, ?_⟩, ?_⟩
  · intro low lowMem high highMem
    rcases List.mem_cons.mp highMem with rfl | later
    · exact lows low lowMem
    · exact (lows low lowMem).trans (proper.le.trans (highs high later))
  · intro old mem
    rcases List.mem_append.mp mem with early | late
    · exact beforeOrder.proper old early
    · rcases List.mem_cons.mp late with rfl | later
      · exact proper
      · exact afterOrder.proper old later

/-- The two neighbours stand for all the intervals. -/
theorem neighbours_iff (order : InOrder lo hi l) (proper : lo new < hi new) :
    ((∀ prev ∈ (before lo new l).getLast?, hi prev ≤ lo new) ∧ ∀ next ∈ (after lo new l).head?, hi new ≤ lo next) ↔
      ∀ old ∈ l, Apart lo hi new old := by
  constructor
  · rintro ⟨below, above⟩ old mem
    have whole : before lo new l ++ after lo new l = l := before_append_after
    rw [← whole] at mem
    rcases List.mem_append.mp mem with early | late
    · exact Or.inr (order.before_below below old early)
    · exact Or.inl (order.after_above above old late)
  · intro apart
    constructor
    · intro prev mem
      have prevMem := List.mem_of_getLast? mem
      have starts : lo prev ≤ lo new := by simpa using List.mem_takeWhile_imp prevMem
      rcases apart prev (List.takeWhile_subset _ prevMem) with left | right
      · exact absurd (proper.trans_le (left.trans starts)) (lt_irrefl _)
      · exact right
    · intro next mem
      have starts := head_after mem
      have nextMem : next ∈ after lo new l := List.mem_of_mem_head? mem
      have next_proper := order.proper next (List.dropWhile_subset _ nextMem)
      rcases apart next (List.dropWhile_subset _ nextMem) with left | right
      · exact left
      · exact absurd (next_proper.trans_le (right.trans starts.le)) (lt_irrefl _)

end InOrder
end Intervals
