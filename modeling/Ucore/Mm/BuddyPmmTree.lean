import Ucore.Mm.BuddyPmmArith
import Ucore.Lib.BuddyTree

/- The node array of buddy_pmm.c as a tree of blocks. The code's size of a node is one
   more than its order; the nodes below a block, free or used, are those of free blocks. -/
namespace Ucore.BuddyPmm
open Words Blocks BuddyTree

def Fresh (nodes : Nodes) : Nat → Nat → Prop
  | i, 0 => nodes i = ⟨0, 0⟩
  | i, k + 1 => nodes i = ⟨k + 1, k + 1⟩ ∧ Fresh nodes (2 * i + 1) k ∧ Fresh nodes (2 * i + 2) k

def FreshBelow (nodes : Nodes) (i : Nat) : Nat → Prop
  | 0 => True
  | k + 1 => Fresh nodes (2 * i + 1) k ∧ Fresh nodes (2 * i + 2) k

def Holds (nodes : Nodes) : Nat → Nat → Tree → Prop
  | i, k, .free => Fresh nodes i k
  | i, k, .used => nodes i = ⟨0, 0⟩ ∧ FreshBelow nodes i k
  | _, 0, .split _ _ => False
  | i, k + 1, .split l r =>
      nodes i = ⟨value k l, value k r⟩ ∧ Holds nodes (2 * i + 1) k l ∧
        Holds nodes (2 * i + 2) k r ∧ ¬ (l = .free ∧ r = .free)

/- The ancestors of a hole hold its context, but for the fields that describe the hole. -/
def HoldsAround (nodes : Nodes) : Nat → Context → Prop
  | _, [] => True
  | k, (.left, sibling) :: c =>
      (nodes (holeIndex c)).rightMax = value k sibling ∧
        Holds nodes (2 * holeIndex c + 2) k sibling ∧ HoldsAround nodes (k + 1) c
  | k, (.right, sibling) :: c =>
      (nodes (holeIndex c)).leftMax = value k sibling ∧
        Holds nodes (2 * holeIndex c + 1) k sibling ∧ HoldsAround nodes (k + 1) c

section Frames
variable {nodes nodes' : Nodes} {i k : Nat} {t : Tree} {c : Context}

theorem holds_free : Holds nodes i k .free ↔ Fresh nodes i k := by cases k <;> rfl

theorem holds_used : Holds nodes i k .used ↔ nodes i = ⟨0, 0⟩ ∧ FreshBelow nodes i k := by
  cases k <;> rfl

theorem fresh_iff : Fresh nodes i k ↔ nodes i = ⟨k, k⟩ ∧ FreshBelow nodes i k := by
  cases k <;> simp [Fresh, FreshBelow]

theorem fresh_congr (same : ∀ j, Under i j → nodes' j = nodes j) (fresh : Fresh nodes i k) :
    Fresh nodes' i k := by
  induction k generalizing i with
  | zero => exact (same i .here).trans fresh
  | succ k ih =>
    obtain ⟨root, left, right⟩ := fresh
    exact ⟨(same i .here).trans root, ih (fun j under => same j (under_left_child under)) left,
      ih (fun j under => same j (under_right_child under)) right⟩

theorem fresh_below_congr (same : ∀ j, Under i j → i ≠ j → nodes' j = nodes j)
    (fresh : FreshBelow nodes i k) : FreshBelow nodes' i k := by
  cases k with
  | zero => trivial
  | succ k =>
    constructor
    · apply fresh_congr _ fresh.1
      intro j under
      have := under_le under
      exact same j (under_left_child under) (by omega)
    · apply fresh_congr _ fresh.2
      intro j under
      have := under_le under
      exact same j (under_right_child under) (by omega)

theorem holds_congr (same : ∀ j, Under i j → nodes' j = nodes j) (holds : Holds nodes i k t) :
    Holds nodes' i k t := by
  induction k generalizing i t with
  | zero =>
    cases t with
    | free => exact fresh_congr same holds
    | used => exact ⟨(same i .here).trans holds.1, trivial⟩
    | split l r => exact holds.elim
  | succ k ih =>
    cases t with
    | free => exact fresh_congr same holds
    | used =>
      exact ⟨(same i .here).trans holds.1, fresh_below_congr (fun j under _ => same j under) holds.2⟩
    | split l r =>
      obtain ⟨root, left, right, busy⟩ := holds
      exact ⟨(same i .here).trans root, ih (fun j under => same j (under_left_child under)) left,
        ih (fun j under => same j (under_right_child under)) right, busy⟩

theorem holds_around_congr (same : ∀ j, ¬ Under (holeIndex c) j → nodes' j = nodes j)
    (around : HoldsAround nodes k c) : HoldsAround nodes' k c := by
  induction c generalizing k with
  | nil => trivial
  | cons frame c ih =>
    obtain ⟨side, sibling⟩ := frame
    cases side with
    | left =>
      obtain ⟨field, holds, around⟩ := around
      have above : ¬ Under (2 * holeIndex c + 1) (holeIndex c) := by
        intro under
        have := under_le under
        omega
      refine ⟨?_, ?_, ?_⟩
      · rw [same (holeIndex c) above, field]
      · exact holds_congr (fun j right => same j fun left => siblings_apart left right) holds
      · exact ih (fun j outside => same j fun left => outside (under_left_child left)) around
    | right =>
      obtain ⟨field, holds, around⟩ := around
      have above : ¬ Under (2 * holeIndex c + 2) (holeIndex c) := by
        intro under
        have := under_le under
        omega
      refine ⟨?_, ?_, ?_⟩
      · rw [same (holeIndex c) above, field]
      · exact holds_congr (fun j left => same j fun right => siblings_apart left right) holds
      · exact ih (fun j outside => same j fun right => outside (under_right_child right)) around

/- A parent that names the values of its two halves holds the joined tree. -/
theorem holds_join {l r : Tree} (root : nodes i = ⟨value k l, value k r⟩)
    (left : Holds nodes (2 * i + 1) k l) (right : Holds nodes (2 * i + 2) k r) :
    Holds nodes i (k + 1) (join l r) := by
  by_cases idle : l = .free ∧ r = .free
  · obtain ⟨rfl, rfl⟩ := idle
    rw [value_free] at root
    exact ⟨root, holds_free.mp left, holds_free.mp right⟩
  · rw [join_eq_split idle]
    exact ⟨root, left, right, idle⟩

/- A subtree that is not handed out has two halves: a free one is read as two free halves. -/
theorem holds_halves (holds : Holds nodes i (k + 1) t) (idle : t ≠ .used) : ∃ l r, join l r = t ∧
    nodes i = ⟨value k l, value k r⟩ ∧ Holds nodes (2 * i + 1) k l ∧ Holds nodes (2 * i + 2) k r := by
  cases t with
  | free =>
    refine ⟨.free, .free, rfl, ?_, holds_free.mpr holds.2.1, holds_free.mpr holds.2.2⟩
    simpa using holds.1
  | used => exact absurd rfl idle
  | split l r => exact ⟨l, r, join_eq_split holds.2.2.2, holds.1, holds.2.1, holds.2.2.1⟩

/- A write to the parent of a hole leaves the hole, its sibling and what is above. -/
theorem write_parent {p : Nat} {node : Node} :
    (∀ j, Under (2 * p + 1) j → Function.update nodes p node j = nodes j) ∧
    (∀ j, Under (2 * p + 2) j → Function.update nodes p node j = nodes j) ∧
    (∀ j, ¬ Under p j → Function.update nodes p node j = nodes j) := by
  refine ⟨?_, ?_, ?_⟩
  · intro j under
    have := under_le under
    exact Function.update_of_ne (by omega) _ _
  · intro j under
    have := under_le under
    exact Function.update_of_ne (by omega) _ _
  · intro j outside
    refine Function.update_of_ne ?_ _ _
    intro same
    exact outside (same ▸ .here)

end Frames

section Search
variable {nodes : Nodes} {m k : Nat} {t : Tree} {c : Context}

/- What the code finds at the node of a subtree that is larger than the request: the
   value of its right half, then that of its left half. -/
theorem descend_run (holds : Holds nodes (holeIndex c) k t) (around : HoldsAround nodes k c)
    (larger : m ≤ k) (room : m + 1 ≤ value k t) :
    ∃ c', descend nodes (m + 1) (k + 1) (holeIndex c) (holeOffset k c) =
        (m + 1, holeIndex c', holeOffset m c') ∧
      Holds nodes (holeIndex c') m .free ∧ HoldsAround nodes m c' ∧
      plug c' .free = plug c t ∧ m + c'.length = k + c.length := by
  induction k generalizing t c with
  | zero =>
    obtain rfl : m = 0 := by omega
    have full : value 0 t = 0 + 1 := by
      have := value_le 0 t
      omega
    obtain rfl := value_full.mp full
    exact ⟨c, by simp [descend], holds, around, rfl, rfl⟩
  | succ k ih =>
    by_cases reached : m = k + 1
    · subst m
      have full : value (k + 1) t = k + 1 + 1 := by
        have := value_le (k + 1) t
        omega
      obtain rfl := value_full.mp full
      exact ⟨c, by simp [descend], holds, around, rfl, rfl⟩
    · have idle : t ≠ .used := by
        rintro rfl
        simp at room
      obtain ⟨l, r, shape, root, left, right⟩ := holds_halves holds idle
      subst t
      have order : m + 1 < k + 1 + 1 := by omega
      rw [descend, if_pos order]
      simp only [root]
      by_cases fitsRight : m + 1 ≤ value k r
      · have half : 1 <<< (k + 1 - 1) = 2 ^ k := by rw [Nat.one_shiftLeft]; rfl
        have around' : HoldsAround nodes k ((.right, l) :: c) := ⟨by rw [root], left, around⟩
        obtain ⟨c', run, free, around', same, length⟩ := ih (c := (.right, l) :: c) right around'
          (by omega) fitsRight
        refine ⟨c', ?_, free, around', same, ?_⟩
        · rw [if_pos fitsRight, right_leaf_eq, half]
          exact run
        · simp only [List.length_cons] at length
          omega
      · have fitsLeft : m + 1 ≤ value k l := by
          rw [value_join] at room
          split at room <;> omega
        have around' : HoldsAround nodes k ((.left, r) :: c) := ⟨by rw [root], right, around⟩
        obtain ⟨c', run, free, around', same, length⟩ := ih (c := (.left, r) :: c) left around'
          (by omega) fitsLeft
        refine ⟨c', ?_, free, around', same, ?_⟩
        · rw [if_neg fitsRight, if_pos fitsLeft, left_leaf_eq]
          exact run
        · simp only [List.length_cons] at length
          omega

/- Where the root does not offer enough, the search ends there. -/
theorem descend_fails (holds : Holds nodes 0 k t) (smaller : m < k) (scarce : value k t < m + 1) :
    descend nodes (m + 1) (k + 1) 0 0 = (k + 1, 0, 0) := by
  obtain ⟨k, rfl⟩ : ∃ j, k = j + 1 := ⟨k - 1, by omega⟩
  have order : k + 1 + 1 > m + 1 := by omega
  have fields : (nodes 0).leftMax < m + 1 ∧ (nodes 0).rightMax < m + 1 := by
    cases t with
    | free => simp at scarce; omega
    | used => simp [(holds_used.mp holds).1]
    | split l r =>
      simp only [value] at scarce
      rw [holds.1]
      simp only
      omega
  rw [descend, if_pos order, if_neg (by omega), if_neg (by omega)]

/- Every used block is the hole of a context. -/
theorem block_context {b : Block} (holds : Holds nodes (holeIndex c) k t)
    (around : HoldsAround nodes k c) (mem : b ∈ blocks k (holeOffset k c) t) :
    ∃ m c', b = ⟨holeOffset m c', 2 ^ m⟩ ∧ Holds nodes (holeIndex c') m .used ∧
      HoldsAround nodes m c' ∧ plug c' .used = plug c t ∧ m + c'.length = k + c.length := by
  induction k generalizing t c with
  | zero =>
    cases t with
    | free => simp at mem
    | used =>
      obtain rfl : b = ⟨holeOffset 0 c, 2 ^ 0⟩ := by simpa using mem
      exact ⟨0, c, rfl, holds, around, rfl, rfl⟩
    | split l r => exact holds.elim
  | succ k ih =>
    cases t with
    | free => simp at mem
    | used =>
      obtain rfl : b = ⟨holeOffset (k + 1) c, 2 ^ (k + 1)⟩ := by simpa using mem
      exact ⟨k + 1, c, rfl, holds, around, rfl, rfl⟩
    | split l r =>
      obtain ⟨root, left, right, busy⟩ := holds
      rw [blocks] at mem
      rcases List.mem_append.mp mem with mem | mem
      · have around' : HoldsAround nodes k ((.left, r) :: c) := ⟨by rw [root], right, around⟩
        obtain ⟨m, c', block, used, around', same, length⟩ := ih (c := (.left, r) :: c) left around' mem
        refine ⟨m, c', block, used, around', ?_, ?_⟩
        · rw [same, plug, join_eq_split busy]
        · simp only [List.length_cons] at length
          omega
      · have around' : HoldsAround nodes k ((.right, l) :: c) := ⟨by rw [root], left, around⟩
        obtain ⟨m, c', block, used, around', same, length⟩ := ih (c := (.right, l) :: c) right around' mem
        refine ⟨m, c', block, used, around', ?_, ?_⟩
        · rw [same, plug, join_eq_split busy]
        · simp only [List.length_cons] at length
          omega

theorem ascend_alloc_run {fuel : Nat} (holds : Holds nodes (holeIndex c) k t)
    (around : HoldsAround nodes k c) (busy : t ≠ .free) (enough : holeIndex c ≤ fuel) :
    Holds (ascendAlloc fuel nodes (holeIndex c) (value k t)) 0 (k + c.length) (plug c t) := by
  induction c generalizing nodes k t fuel with
  | nil =>
    cases fuel with
    | zero => exact holds
    | succ fuel => exact holds
  | cons frame c ih =>
    obtain ⟨side, sibling⟩ := frame
    have order : k + (c.length + 1) = k + 1 + c.length := by omega
    have busy' : join t sibling ≠ .free ∧ join sibling t ≠ .free := by
      simp [join_eq_free, busy]
    cases side with
    | left =>
      obtain ⟨fuel, rfl⟩ : ∃ f, fuel = f + 1 := ⟨fuel - 1, by simp only [holeIndex] at enough; omega⟩
      obtain ⟨field, other, around⟩ := around
      obtain ⟨keepHole, keepOther, keepAround⟩ :=
        @write_parent nodes (holeIndex c) ⟨value k t, value k sibling⟩
      have joined : Holds (Function.update nodes (holeIndex c) ⟨value k t, value k sibling⟩)
          (holeIndex c) (k + 1) (join t sibling) :=
        holds_join (by simp) (holds_congr keepHole holds) (holds_congr keepOther other)
      have notFull : ¬ (value k sibling = k + 1 ∧ value k t = k + 1) := by
        simp [value_full, busy]
      have next := ih joined (holds_around_congr keepAround around) busy'.1
        (by simp only [holeIndex] at enough; omega : holeIndex c ≤ fuel)
      rw [value_join, if_neg notFull, Nat.max_comm] at next
      simp only [holeIndex, ascendAlloc, List.length_cons, plug, parent_left_leaf, left_leaf_eq,
        Nat.succ_pos, ↓reduceIte, field, order]
      exact next
    | right =>
      obtain ⟨fuel, rfl⟩ : ∃ f, fuel = f + 1 := ⟨fuel - 1, by simp only [holeIndex] at enough; omega⟩
      obtain ⟨field, other, around⟩ := around
      obtain ⟨keepOther, keepHole, keepAround⟩ :=
        @write_parent nodes (holeIndex c) ⟨value k sibling, value k t⟩
      have joined : Holds (Function.update nodes (holeIndex c) ⟨value k sibling, value k t⟩)
          (holeIndex c) (k + 1) (join sibling t) :=
        holds_join (by simp) (holds_congr keepOther other) (holds_congr keepHole holds)
      have notFull : ¬ (value k t = k + 1 ∧ value k sibling = k + 1) := by
        simp [value_full, busy]
      have next := ih joined (holds_around_congr keepAround around) busy'.2
        (by simp only [holeIndex] at enough; omega : holeIndex c ≤ fuel)
      rw [value_join, if_neg notFull] at next
      have odd : 2 * holeIndex c + 2 ≠ 2 * holeIndex c + 1 := by omega
      simp only [holeIndex, ascendAlloc, List.length_cons, plug, parent_right_leaf, left_leaf_eq,
        Nat.succ_pos, ↓reduceIte, field, order, odd, gt_iff_lt]
      exact next

theorem ascend_free_run {fuel : Nat} (holds : Holds nodes (holeIndex c) k t)
    (around : HoldsAround nodes k c) (enough : holeIndex c ≤ fuel) :
    Holds (ascendFree fuel nodes (holeIndex c) (k + 1) (value k t)) 0 (k + c.length) (plug c t) := by
  induction c generalizing nodes k t fuel with
  | nil =>
    cases fuel with
    | zero => exact holds
    | succ fuel => exact holds
  | cons frame c ih =>
    obtain ⟨side, sibling⟩ := frame
    have order : k + (c.length + 1) = k + 1 + c.length := by omega
    cases side with
    | left =>
      obtain ⟨fuel, rfl⟩ : ∃ f, fuel = f + 1 := ⟨fuel - 1, by simp only [holeIndex] at enough; omega⟩
      obtain ⟨field, other, around⟩ := around
      obtain ⟨keepHole, keepOther, keepAround⟩ :=
        @write_parent nodes (holeIndex c) ⟨value k t, value k sibling⟩
      have joined : Holds (Function.update nodes (holeIndex c) ⟨value k t, value k sibling⟩)
          (holeIndex c) (k + 1) (join t sibling) :=
        holds_join (by simp) (holds_congr keepHole holds) (holds_congr keepOther other)
      have next := ih joined (holds_around_congr keepAround around)
        (by simp only [holeIndex] at enough; omega : holeIndex c ≤ fuel)
      rw [value_join] at next
      simp only [holeIndex, ascendFree, List.length_cons, plug, parent_left_leaf, left_leaf_eq,
        Nat.succ_pos, ↓reduceIte, field, order]
      exact next
    | right =>
      obtain ⟨fuel, rfl⟩ : ∃ f, fuel = f + 1 := ⟨fuel - 1, by simp only [holeIndex] at enough; omega⟩
      obtain ⟨field, other, around⟩ := around
      obtain ⟨keepOther, keepHole, keepAround⟩ :=
        @write_parent nodes (holeIndex c) ⟨value k sibling, value k t⟩
      have joined : Holds (Function.update nodes (holeIndex c) ⟨value k sibling, value k t⟩)
          (holeIndex c) (k + 1) (join sibling t) :=
        holds_join (by simp) (holds_congr keepOther other) (holds_congr keepHole holds)
      have next := ih joined (holds_around_congr keepAround around)
        (by simp only [holeIndex] at enough; omega : holeIndex c ≤ fuel)
      rw [value_join] at next
      have odd : 2 * holeIndex c + 2 ≠ 2 * holeIndex c + 1 := by omega
      simp only [holeIndex, ascendFree, List.length_cons, plug, parent_right_leaf, left_leaf_eq,
        Nat.succ_pos, ↓reduceIte, field, order, odd, gt_iff_lt]
      exact next

end Search

end Ucore.BuddyPmm
