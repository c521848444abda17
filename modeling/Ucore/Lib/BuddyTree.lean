import Ucore.Lib.Blocks

/- Binary trees of power-of-two blocks, and the place of a subtree in its tree. A tree
   of order `k` covers 2^k cells; its subtrees are numbered as in a binary heap. -/
namespace BuddyTree
open Blocks

inductive Tree where
  | free
  | used
  | split (left right : Tree)
  deriving DecidableEq, Repr

/- Two free halves are one free block. -/
def join : Tree → Tree → Tree
  | .free, .free => .free
  | l, r => .split l r

/- One more than the order of the largest free block, and 0 where nothing is free. -/
def value : Nat → Tree → Nat
  | k, .free => k + 1
  | _, .used => 0
  | 0, .split _ _ => 0
  | k + 1, .split l r => max (value k l) (value k r)

def blocks : Nat → Nat → Tree → List Block
  | _, _, .free => []
  | k, off, .used => [⟨off, 2 ^ k⟩]
  | 0, _, .split _ _ => []
  | k + 1, off, .split l r => blocks k off l ++ blocks k (off + 2 ^ k) r

@[simp] theorem value_free (k : Nat) : value k .free = k + 1 := by cases k <;> rfl
@[simp] theorem value_used (k : Nat) : value k .used = 0 := by cases k <;> rfl
@[simp] theorem blocks_free (k off : Nat) : blocks k off .free = [] := by cases k <;> rfl
@[simp] theorem blocks_used (k off : Nat) : blocks k off .used = [⟨off, 2 ^ k⟩] := by
  cases k <;> rfl

theorem join_eq_split {l r : Tree} (busy : ¬ (l = .free ∧ r = .free)) : join l r = .split l r := by
  cases l <;> cases r <;> simp_all [join]

theorem join_eq_free {l r : Tree} : join l r = .free ↔ l = .free ∧ r = .free := by
  cases l <;> cases r <;> simp [join]

theorem value_le (k : Nat) (t : Tree) : value k t ≤ k + 1 := by
  induction k generalizing t with
  | zero => cases t <;> simp [value]
  | succ k ih =>
    cases t with
    | free => simp
    | used => simp
    | split l r =>
      have := ih l
      have := ih r
      simp only [value]
      omega

theorem value_full {k : Nat} {t : Tree} : value k t = k + 1 ↔ t = .free := by
  cases t with
  | free => simp
  | used => simp
  | split l r =>
    cases k with
    | zero => simp [value]
    | succ k =>
      have := value_le k l
      have := value_le k r
      simp only [value, reduceCtorEq, iff_false]
      omega

theorem value_join (k : Nat) (l r : Tree) : value (k + 1) (join l r) =
    if value k r = k + 1 ∧ value k l = k + 1 then k + 2 else max (value k r) (value k l) := by
  simp only [value_full]
  by_cases idle : l = .free ∧ r = .free
  · rw [if_pos idle.symm, join_eq_free.mpr idle, value_free]
  · rw [if_neg fun both => idle both.symm, join_eq_split idle, Nat.max_comm]
    rfl

theorem blocks_join (k off : Nat) (l r : Tree) :
    blocks (k + 1) off (join l r) = blocks k off l ++ blocks k (off + 2 ^ k) r := by
  by_cases idle : l = .free ∧ r = .free
  · rw [join_eq_free.mpr idle, idle.1, idle.2]
    simp [blocks]
  · rw [join_eq_split idle, blocks]

/- The blocks of a tree lie in it, and those of its halves lie in the halves. -/
theorem blocks_ledger (k off : Nat) (t : Tree) : Ledger off (off + 2 ^ k) (blocks k off t) := by
  induction k generalizing off t with
  | zero =>
    cases t with
    | free => exact ledger_nil _ _
    | used => exact ledger_cons.mpr ⟨by simp, by simp [Block.Within], by simp, ledger_nil _ _⟩
    | split l r => exact ledger_nil _ _
  | succ k ih =>
    have size : 2 ^ (k + 1) = 2 ^ k + 2 ^ k := by omega
    have half : 0 < 2 ^ k := Nat.two_pow_pos k
    cases t with
    | free => exact ledger_nil _ _
    | used => exact ledger_cons.mpr ⟨by simp, by simp [Block.Within], by simp, ledger_nil _ _⟩
    | split l r =>
      have left := ih off l
      have right := ih (off + 2 ^ k) r
      simp only [blocks]
      constructor
      · intro b mem
        rcases List.mem_append.mp mem with mem | mem
        · exact left.positive b mem
        · exact right.positive b mem
      · intro b mem
        rcases List.mem_append.mp mem with mem | mem
        · have := left.within b mem
          simp only [Block.Within] at this ⊢
          omega
        · have := right.within b mem
          simp only [Block.Within] at this ⊢
          omega
      · apply List.pairwise_append.mpr
        refine ⟨left.apart, right.apart, ?_⟩
        intro a ma b mb
        have := left.within a ma
        have := right.within b mb
        simp only [Block.Within, Block.Apart] at *
        omega

theorem blocks_total_le (k off : Nat) (t : Tree) : total (blocks k off t) ≤ 2 ^ k := by
  induction k generalizing off t with
  | zero => cases t <;> simp [blocks]
  | succ k ih =>
    cases t with
    | free => simp
    | used => simp
    | split l r =>
      have left := ih off l
      have right := ih (off + 2 ^ k) r
      have size : 2 ^ (k + 1) = 2 ^ k + 2 ^ k := by omega
      rw [blocks, total_append]
      omega

/- No two halves that are free, and no halves of a cell. -/
def Proper : Nat → Tree → Prop
  | _, .free => True
  | _, .used => True
  | 0, .split _ _ => False
  | k + 1, .split l r => Proper k l ∧ Proper k r ∧ ¬ (l = .free ∧ r = .free)

/- Between `lo` and `hi` an aligned block of order `j` meets none of the blocks. -/
def Vacant (bs : List Block) (lo hi j : Nat) : Prop :=
  ∃ q, lo ≤ q * 2 ^ j ∧ q * 2 ^ j + 2 ^ j ≤ hi ∧ ∀ b ∈ bs, b.Apart ⟨q * 2 ^ j, 2 ^ j⟩

theorem proper_idle {k off : Nat} {t : Tree} (proper : Proper k t) (none_used : blocks k off t = []) : t = .free := by
  induction k generalizing off t with
  | zero =>
    cases t with
    | free => rfl
    | used => simp at none_used
    | split l r => exact proper.elim
  | succ k ih =>
    cases t with
    | free => rfl
    | used => simp at none_used
    | split l r =>
      obtain ⟨left, right, busy⟩ := proper
      rw [blocks, List.append_eq_nil_iff] at none_used
      exact absurd ⟨ih left none_used.1, ih right none_used.2⟩ busy

theorem vacant_order {bs : List Block} {off k j : Nat} (vacant : Vacant bs off (off + 2 ^ k) j) : j ≤ k := by
  obtain ⟨q, low, high, _⟩ := vacant
  exact (Nat.pow_le_pow_iff_right (a := 2) (by decide)).mp (by omega)

theorem vacant_nil {off k j : Nat} (aligned : 2 ^ k ∣ off) (small : j ≤ k) : Vacant [] off (off + 2 ^ k) j := by
  obtain ⟨q, place⟩ := (Nat.pow_dvd_pow 2 small).trans aligned
  have le : 2 ^ j ≤ 2 ^ k := Nat.pow_le_pow_right (by decide) small
  rw [Nat.mul_comm] at place
  exact ⟨q, by omega, by omega, fun b mem => absurd mem List.not_mem_nil⟩

theorem not_vacant_used {off k j : Nat} : ¬ Vacant [⟨off, 2 ^ k⟩] off (off + 2 ^ k) j := by
  rintro ⟨q, low, high, apart⟩
  have positive := Nat.two_pow_pos j
  rcases apart _ List.mem_cons_self with before | after
  · rw [stop_mk] at before
    dsimp only at before
    omega
  · rw [stop_mk] at after
    dsimp only at after
    omega

/- An aligned block of two halves lies in one of them, unless it is the whole. -/
theorem vacant_split {off k j : Nat} {l r : Tree} (aligned : 2 ^ (k + 1) ∣ off) (small : j ≤ k) :
    Vacant (blocks k off l ++ blocks k (off + 2 ^ k) r) off (off + 2 ^ (k + 1)) j ↔
      Vacant (blocks k off l) off (off + 2 ^ k) j ∨
        Vacant (blocks k (off + 2 ^ k) r) (off + 2 ^ k) (off + 2 ^ k + 2 ^ k) j := by
  have size : 2 ^ (k + 1) = 2 ^ k + 2 ^ k := by omega
  have ledger := blocks_ledger k off l
  have ledger' := blocks_ledger k (off + 2 ^ k) r
  constructor
  · rintro ⟨q, low, high, apart⟩
    obtain ⟨middle, half⟩ : 2 ^ j ∣ off + 2 ^ k :=
      Dvd.dvd.add ((Nat.pow_dvd_pow 2 (by omega)).trans aligned) (Nat.pow_dvd_pow 2 small)
    rw [Nat.mul_comm] at half
    by_cases first : q < middle
    · have : (q + 1) * 2 ^ j ≤ middle * 2 ^ j := Nat.mul_le_mul_right _ first
      rw [Nat.add_mul, Nat.one_mul] at this
      exact .inl ⟨q, low, by omega, fun b mem => apart b (List.mem_append_left _ mem)⟩
    · have : middle * 2 ^ j ≤ q * 2 ^ j := Nat.mul_le_mul_right _ (by omega)
      exact .inr ⟨q, by omega, by omega, fun b mem => apart b (List.mem_append_right _ mem)⟩
  · rintro (⟨q, low, high, apart⟩ | ⟨q, low, high, apart⟩)
    · refine ⟨q, low, by omega, fun b mem => ?_⟩
      rcases List.mem_append.mp mem with mem | mem
      · exact apart b mem
      · have inside := (ledger'.within b mem).1
        exact .inr (Nat.le_trans high inside)
    · refine ⟨q, by omega, by omega, fun b mem => ?_⟩
      rcases List.mem_append.mp mem with mem | mem
      · have inside := (ledger.within b mem).2
        exact .inl (Nat.le_trans inside low)
      · exact apart b mem

/- The value of a tree tells the orders of its vacant blocks. -/
theorem value_iff {k off : Nat} {t : Tree} (proper : Proper k t) (aligned : 2 ^ k ∣ off) (j : Nat) :
    j < value k t ↔ Vacant (blocks k off t) off (off + 2 ^ k) j := by
  induction k generalizing off t with
  | zero =>
    cases t with
    | free =>
      rw [value_free, blocks_free]
      exact ⟨fun small => vacant_nil aligned (by omega), fun vacant => Nat.lt_succ_of_le (vacant_order vacant)⟩
    | used =>
      rw [value_used, blocks_used]
      exact ⟨fun no => absurd no (Nat.not_lt_zero j), fun vacant => absurd vacant not_vacant_used⟩
    | split l r => exact proper.elim
  | succ k ih =>
    cases t with
    | free =>
      rw [value_free, blocks_free]
      exact ⟨fun small => vacant_nil aligned (by omega), fun vacant => Nat.lt_succ_of_le (vacant_order vacant)⟩
    | used =>
      rw [value_used, blocks_used]
      exact ⟨fun no => absurd no (Nat.not_lt_zero j), fun vacant => absurd vacant not_vacant_used⟩
    | split l r =>
      obtain ⟨left, right, busy⟩ := proper
      have half : 2 ^ k ∣ off := (Nat.pow_dvd_pow 2 (Nat.le_succ k)).trans aligned
      have first := ih left half
      have second := ih right (Dvd.dvd.add half (Nat.dvd_refl _))
      simp only [value, blocks]
      rw [lt_max_iff, first, second]
      by_cases small : j ≤ k
      · exact (vacant_split aligned small).symm
      · refine ⟨fun either => ?_, fun vacant => ?_⟩
        · rcases either with vacant | vacant
          · exact absurd (vacant_order vacant) small
          · exact absurd (vacant_order vacant) small
        · -- The whole is not vacant.
          obtain rfl : j = k + 1 := Nat.le_antisymm (vacant_order vacant) (by omega)
          obtain ⟨q, low, high, apart⟩ := vacant
          have ledger := blocks_ledger (k + 1) off (.split l r)
          have none_used : blocks (k + 1) off (.split l r) = [] := by
            refine List.eq_nil_iff_forall_not_mem.mpr fun b mem => ?_
            have inside := ledger.within b mem
            have positive := ledger.positive b mem
            have clear := apart b mem
            simp only [Block.Within, Block.Apart, Block.stop] at inside clear
            omega
          have idle := proper_idle (show Proper (k + 1) (.split l r) from ⟨left, right, busy⟩) none_used
          cases idle

theorem apart_inside {b : Block} {lo len x size : Nat} (apart : b.Apart ⟨lo, len⟩) (low : lo ≤ x)
    (high : x + size ≤ lo + len) : b.Apart ⟨x, size⟩ := by
  simp only [Block.Apart, Block.stop] at *
  omega

/- Blocks elsewhere do not matter. -/
theorem vacant_within {bs inner rest : List Block} {lo len j : Nat} (all : bs.Perm (inner ++ rest))
    (clear : ∀ b ∈ rest, b.Apart ⟨lo, len⟩) : Vacant bs lo (lo + len) j ↔ Vacant inner lo (lo + len) j := by
  constructor
  · rintro ⟨q, low, high, apart⟩
    exact ⟨q, low, high, fun b mem => apart b (all.mem_iff.mpr (List.mem_append_left _ mem))⟩
  · rintro ⟨q, low, high, apart⟩
    refine ⟨q, low, high, fun b mem => ?_⟩
    rcases List.mem_append.mp (all.mem_iff.mp mem) with mem | mem
    · exact apart b mem
    · exact apart_inside (clear b mem) low high

theorem swap_parts {bs first second rest : List Block} (all : bs.Perm (first ++ second ++ rest)) :
    bs.Perm (second ++ (first ++ rest)) := by
  rw [← List.append_assoc]
  exact all.trans (List.perm_append_comm.append_right _)

theorem right_clear {k off : Nat} {r : Tree} : ∀ b ∈ blocks k (off + 2 ^ k) r, b.Apart ⟨off, 2 ^ k⟩ := fun b mem =>
  .inr ((blocks_ledger k (off + 2 ^ k) r).within b mem).1

theorem left_clear {k off : Nat} {l : Tree} : ∀ b ∈ blocks k off l, b.Apart ⟨off + 2 ^ k, 2 ^ k⟩ := fun b mem =>
  .inl ((blocks_ledger k off l).within b mem).2

section Unique
variable {k off : Nat} {l r l' r' : Tree}

theorem halves_filter : (blocks k off l ++ blocks k (off + 2 ^ k) r).filter (·.base < off + 2 ^ k) = blocks k off l ∧
    (blocks k off l ++ blocks k (off + 2 ^ k) r).filter (¬ ·.base < off + 2 ^ k) = blocks k (off + 2 ^ k) r := by
  have left : ∀ b ∈ blocks k off l, b.base < off + 2 ^ k := by
    intro b mem
    have positive := (blocks_ledger k off l).positive b mem
    have inside := ((blocks_ledger k off l).within b mem).2
    unfold Block.stop at inside
    omega
  have right : ∀ b ∈ blocks k (off + 2 ^ k) r, ¬ b.base < off + 2 ^ k := by
    intro b mem
    exact Nat.not_lt.mpr ((blocks_ledger k (off + 2 ^ k) r).within b mem).1
  rw [List.filter_append, List.filter_append]
  constructor
  · rw [List.filter_eq_self.mpr fun b mem => decide_eq_true (left b mem),
      List.filter_eq_nil_iff.mpr fun b mem => by simpa using right b mem, List.append_nil]
  · rw [List.filter_eq_nil_iff.mpr fun b mem => by simpa using left b mem,
      List.filter_eq_self.mpr fun b mem => decide_eq_true (right b mem), List.nil_append]

theorem whole_not_in_halves : ⟨off, 2 ^ (k + 1)⟩ ∉ blocks (k + 1) off (.split l r) := by
  intro mem
  have size : 2 ^ (k + 1) = 2 ^ k + 2 ^ k := by omega
  have positive := Nat.two_pow_pos k
  rw [blocks] at mem
  rcases List.mem_append.mp mem with mem | mem
  · have inside := ((blocks_ledger k off l).within _ mem).2
    rw [stop_mk] at inside
    omega
  · have inside := ((blocks_ledger k (off + 2 ^ k) r).within _ mem).1
    dsimp only at inside
    omega

/- A tree is known by its used blocks. -/
theorem blocks_unique {t t' : Tree} (proper : Proper k t) (proper' : Proper k t')
    (same : (blocks k off t).Perm (blocks k off t')) : t = t' := by
  induction k generalizing off t t' with
  | zero =>
    cases t with
    | free =>
      rw [blocks_free] at same
      exact (proper_idle proper' same.symm.eq_nil).symm
    | used =>
      cases t' with
      | free => exact proper_idle proper (by rw [blocks_free] at same; exact same.eq_nil)
      | used => rfl
      | split l r => exact proper'.elim
    | split l r => exact proper.elim
  | succ k ih =>
    cases t with
    | free =>
      rw [blocks_free] at same
      exact (proper_idle proper' same.symm.eq_nil).symm
    | used =>
      cases t' with
      | free => exact proper_idle proper (by rw [blocks_free] at same; exact same.eq_nil)
      | used => rfl
      | split l r =>
        rw [blocks_used] at same
        exact absurd (same.mem_iff.mp List.mem_cons_self) whole_not_in_halves
    | split l r =>
      cases t' with
      | free => exact proper_idle proper (by rw [blocks_free] at same; exact same.eq_nil)
      | used =>
        rw [blocks_used] at same
        exact absurd (same.mem_iff.mpr List.mem_cons_self) whole_not_in_halves
      | split l' r' =>
        have first := same.filter (·.base < off + 2 ^ k)
        have second := same.filter (¬ ·.base < off + 2 ^ k)
        rw [blocks, blocks, halves_filter.1, halves_filter.1] at first
        rw [blocks, blocks, halves_filter.2, halves_filter.2] at second
        rw [ih proper.1 proper'.1 first, ih proper.2.1 proper'.2.1 second]

end Unique

inductive Side where
  | left
  | right
  deriving DecidableEq, Repr

/- The way from a subtree up to the root: which child it is, and its sibling. -/
abbrev Context := List (Side × Tree)

def plug : Context → Tree → Tree
  | [], t => t
  | (.left, sibling) :: c, t => plug c (join t sibling)
  | (.right, sibling) :: c, t => plug c (join sibling t)

def holeIndex : Context → Nat
  | [] => 0
  | (.left, _) :: c => 2 * holeIndex c + 1
  | (.right, _) :: c => 2 * holeIndex c + 2

/- `k` is the order of the hole. -/
def holeOffset : Nat → Context → Nat
  | _, [] => 0
  | k, (.left, _) :: c => holeOffset (k + 1) c
  | k, (.right, _) :: c => holeOffset (k + 1) c + 2 ^ k

/- The place of a hole among those of its order. -/
theorem hole_place (k : Nat) (c : Context) :
    ∃ q, q < 2 ^ c.length ∧ holeIndex c + 1 = 2 ^ c.length + q ∧ holeOffset k c = q * 2 ^ k := by
  induction c generalizing k with
  | nil => exact ⟨0, by decide, rfl, (Nat.zero_mul _).symm⟩
  | cons frame c ih =>
    obtain ⟨side, sibling⟩ := frame
    obtain ⟨q, less, index, offset⟩ := ih (k + 1)
    have double : 2 ^ (c.length + 1) = 2 * 2 ^ c.length := by omega
    rw [Nat.pow_succ, Nat.mul_comm (2 ^ k), ← Nat.mul_assoc, Nat.mul_comm q] at offset
    cases side with
    | left =>
      refine ⟨2 * q, ?_, ?_, offset⟩
      · rw [List.length_cons]
        omega
      · rw [List.length_cons, holeIndex]
        omega
    | right =>
      refine ⟨2 * q + 1, ?_, ?_, ?_⟩
      · rw [List.length_cons]
        omega
      · rw [List.length_cons, holeIndex]
        omega
      · rw [holeOffset, offset, Nat.add_mul, Nat.one_mul]

def contextBlocks : Nat → Context → List Block
  | _, [] => []
  | k, (.left, sibling) :: c =>
      blocks k (holeOffset (k + 1) c + 2 ^ k) sibling ++ contextBlocks (k + 1) c
  | k, (.right, sibling) :: c => blocks k (holeOffset (k + 1) c) sibling ++ contextBlocks (k + 1) c

theorem blocks_plug (k : Nat) (c : Context) (t : Tree) :
    (blocks (k + c.length) 0 (plug c t)).Perm (blocks k (holeOffset k c) t ++ contextBlocks k c) := by
  induction c generalizing k t with
  | nil => simp [plug, holeOffset, contextBlocks]
  | cons frame c ih =>
    obtain ⟨side, sibling⟩ := frame
    have order : k + (c.length + 1) = k + 1 + c.length := by omega
    cases side with
    | left =>
      have := ih (k + 1) (join t sibling)
      simp only [plug, holeOffset, contextBlocks, List.length_cons, order]
      rwa [blocks_join, List.append_assoc] at this
    | right =>
      have := ih (k + 1) (join sibling t)
      simp only [plug, holeOffset, contextBlocks, List.length_cons, order]
      rw [blocks_join] at this
      refine this.trans ?_
      rw [← List.append_assoc]
      exact List.perm_append_comm.append_right _

/- `j` is a node of the subtree at `i`. -/
inductive Under (i : Nat) : Nat → Prop where
  | here : Under i i
  | left {j : Nat} : Under i j → Under i (2 * j + 1)
  | right {j : Nat} : Under i j → Under i (2 * j + 2)

theorem under_le {i j : Nat} (under : Under i j) : i ≤ j := by
  induction under with
  | here => exact Nat.le_refl _
  | left _ ih => omega
  | right _ ih => omega

theorem under_trans {i j k : Nat} (first : Under i j) (second : Under j k) : Under i k := by
  induction second with
  | here => exact first
  | left _ ih => exact ih.left
  | right _ ih => exact ih.right

theorem under_left_child {i j : Nat} (under : Under (2 * i + 1) j) : Under i j :=
  under_trans Under.here.left under

theorem under_right_child {i j : Nat} (under : Under (2 * i + 2) j) : Under i j :=
  under_trans Under.here.right under

theorem under_parent {i j k : Nat} (under : Under i j) (child : j = 2 * k + 1 ∨ j = 2 * k + 2)
    (ne : i ≠ j) : Under i k := by
  cases under with
  | here => exact absurd rfl ne
  | @left m up =>
    obtain rfl : m = k := by omega
    exact up
  | @right m up =>
    obtain rfl : m = k := by omega
    exact up

theorem siblings_apart {i j : Nat} (left : Under (2 * i + 1) j) : ¬ Under (2 * i + 2) j := by
  induction left with
  | here =>
    intro right
    have := under_le right
    omega
  | @left j up ih =>
    intro right
    have := under_le up
    exact ih (under_parent right (Or.inl rfl) (by omega))
  | @right j up ih =>
    intro right
    have := under_le up
    exact ih (under_parent right (Or.inr rfl) (by omega))

end BuddyTree
