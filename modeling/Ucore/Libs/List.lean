import Ucore.Lib.CircularList

/- libs/list.h. An entry is either a list head kept in a variable or the link field
   of the structure with the given number. -/
namespace Ucore
open CircularList

inductive Entry where
  | listHead
  | link (i : Nat)
  deriving DecidableEq, Repr

abbrev ListLinks := Links Entry

def listInit (L : ListLinks) (elm : Entry) : ListLinks :=
  { next := Function.update L.next elm elm, prev := Function.update L.prev elm elm }

/-- `__list_add`. -/
def listInsert (L : ListLinks) (elm prev next : Entry) : ListLinks := L.splice elm prev next

/-- `__list_del`. -/
def listUnlink (L : ListLinks) (prev next : Entry) : ListLinks := L.bypass prev next

def listAddAfter (L : ListLinks) (listelm elm : Entry) : ListLinks :=
  listInsert L elm listelm (L.next listelm)

def listAdd (L : ListLinks) (listelm elm : Entry) : ListLinks := listAddAfter L listelm elm

def listAddBefore (L : ListLinks) (listelm elm : Entry) : ListLinks :=
  listInsert L elm (L.prev listelm) listelm

def listDel (L : ListLinks) (listelm : Entry) : ListLinks :=
  listUnlink L (L.prev listelm) (L.next listelm)

def listEmpty (L : ListLinks) (list : Entry) : Bool := L.next list = list

section Surgery
variable {L : ListLinks} {slack : Entry → Prop} {head : Entry} {pre post : List Entry}
  {a elm : Entry}

theorem list_init_ring (L : ListLinks) (slack : Entry → Prop) (head : Entry) :
    IsRing (listInit L head) slack head [] where
  nodup := by simp
  chain := by simp [Adjacent, listInit]

theorem list_empty_iff (ring : IsRing L slack head post) : listEmpty L head = true ↔ post = [] := by
  have ring : IsRing L slack head ([] ++ post) := ring
  cases post with
  | nil => simpa [listEmpty] using (ring_neighbours ring rfl (b := head) (by simp)).1
  | cons x post =>
    have fwd : L.next head = x := (ring_neighbours ring rfl (by simp)).1
    have ne : x ≠ head := by
      rintro rfl
      exact (List.nodup_cons.mp ring.nodup).1 (by simp)
    simp [listEmpty, fwd, ne]

theorem list_add_ring (ring : IsRing L slack head (pre ++ post))
    (before : (head :: pre).getLast? = some a) (fresh : elm ∉ head :: (pre ++ post)) :
    IsRing (listAdd L a elm) slack head (pre ++ elm :: post) := by
  have after : (post ++ [head]).head? = some (L.next a) := by
    obtain ⟨b, hb⟩ : ∃ b, (post ++ [head]).head? = some b := by cases post <;> simp
    rw [hb, (ring_neighbours ring before hb).1]
  exact splice_ring ring before after fresh

theorem list_add_before_ring {b : Entry} (ring : IsRing L slack head (pre ++ post))
    (after : (post ++ [head]).head? = some b) (straight : L.prev b = b → pre = [] ∧ post = [])
    (fresh : elm ∉ head :: (pre ++ post)) :
    IsRing (listAddBefore L b elm) slack head (pre ++ elm :: post) := by
  obtain ⟨a, before⟩ : ∃ a, (head :: pre).getLast? = some a := by
    cases h : (head :: pre).getLast? <;> simp_all
  have back : L.prev b = a := by
    rcases (ring_neighbours ring before after).2 with back | ⟨_, self⟩
    · exact back
    · obtain ⟨rfl, rfl⟩ := straight self
      simp_all
  have := splice_ring ring before after fresh
  simpa only [listAddBefore, listInsert, back] using this

theorem list_del_ring (ring : IsRing L slack head (pre ++ elm :: post))
    (straight : L.prev elm ≠ elm) : IsRing (listDel L elm) slack head (pre ++ post) := by
  obtain ⟨a, before⟩ : ∃ a, (head :: pre).getLast? = some a := by
    cases h : (head :: pre).getLast? <;> simp_all
  have back : L.prev elm = a := by
    rcases (ring_neighbours ring before (b := elm) (by simp)).2 with back | ⟨_, self⟩
    · exact back
    · exact absurd self straight
  have cutAfter : IsRing L slack head ((pre ++ [elm]) ++ post) := by simpa using ring
  have last : (head :: (pre ++ [elm])).getLast? = some elm := by
    rw [← List.cons_append, List.getLast?_append]; simp
  obtain ⟨b, after⟩ : ∃ b, (post ++ [head]).head? = some b := by cases post <;> simp
  have fwd : L.next elm = b := (ring_neighbours cutAfter last after).1
  have := bypass_ring ring before after
  simpa only [listDel, listUnlink, back, fwd] using this

end Surgery

end Ucore
