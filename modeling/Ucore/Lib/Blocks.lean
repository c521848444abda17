import Mathlib

/- Blocks of consecutive cells, given by a first cell and a length. A ledger is a
   list of blocks read as a multiset: its laws are stable under permutation. -/
namespace Blocks

structure Block where
  base : Nat
  size : Nat
  deriving DecidableEq, Repr

def Block.stop (b : Block) : Nat := b.base + b.size
def Block.Contains (b : Block) (i : Nat) : Prop := b.base ≤ i ∧ i < b.stop
def Block.Within (b : Block) (lo hi : Nat) : Prop := lo ≤ b.base ∧ b.stop ≤ hi
def Block.Apart (a b : Block) : Prop := a.stop ≤ b.base ∨ b.stop ≤ a.base

instance (a b : Block) : Decidable (a.Apart b) := inferInstanceAs (Decidable (_ ∨ _))
instance (b : Block) (lo hi : Nat) : Decidable (b.Within lo hi) :=
  inferInstanceAs (Decidable (_ ∧ _))

@[simp] theorem stop_mk (base size : Nat) : (Block.mk base size).stop = base + size := rfl

def total (bs : List Block) : Nat := (bs.map Block.size).sum

@[simp] theorem total_nil : total [] = 0 := rfl
@[simp] theorem total_cons (b : Block) (bs : List Block) : total (b :: bs) = b.size + total bs := by
  simp [total]
@[simp] theorem total_append (as bs : List Block) : total (as ++ bs) = total as + total bs := by
  simp [total]

theorem total_perm {as bs : List Block} (p : as.Perm bs) : total as = total bs :=
  (p.map Block.size).sum_eq

theorem apart_symm {a b : Block} (h : a.Apart b) : b.Apart a := Or.symm h

/- Every block is nonempty and inside the range, and no two share a cell. -/
structure Ledger (lo hi : Nat) (bs : List Block) : Prop where
  positive : ∀ b ∈ bs, 0 < b.size
  within : ∀ b ∈ bs, b.Within lo hi
  apart : bs.Pairwise Block.Apart

theorem ledger_nil (lo hi : Nat) : Ledger lo hi [] :=
  ⟨by simp, by simp, List.Pairwise.nil⟩

theorem ledger_perm {lo hi : Nat} {as bs : List Block} (p : as.Perm bs)
    (h : Ledger lo hi as) : Ledger lo hi bs where
  positive b mem := h.positive b (p.mem_iff.mpr mem)
  within b mem := h.within b (p.mem_iff.mpr mem)
  apart := (p.pairwise_iff apart_symm).mp h.apart

theorem ledger_cons {lo hi : Nat} {b : Block} {bs : List Block} :
    Ledger lo hi (b :: bs) ↔
      0 < b.size ∧ b.Within lo hi ∧ (∀ c ∈ bs, b.Apart c) ∧ Ledger lo hi bs := by
  constructor
  · intro h
    have ⟨first, rest⟩ := List.pairwise_cons.mp h.apart
    exact ⟨h.positive b (by simp), h.within b (by simp), first,
      fun c mem => h.positive c (by simp [mem]), fun c mem => h.within c (by simp [mem]), rest⟩
  · rintro ⟨positive, within, first, rest⟩
    refine ⟨?_, ?_, List.pairwise_cons.mpr ⟨first, rest.apart⟩⟩
    · intro c mem
      rcases List.mem_cons.mp mem with same | mem
      · exact same ▸ positive
      · exact rest.positive c mem
    · intro c mem
      rcases List.mem_cons.mp mem with same | mem
      · exact same ▸ within
      · exact rest.within c mem

theorem ledger_tail {lo hi : Nat} {b : Block} {bs : List Block}
    (h : Ledger lo hi (b :: bs)) : Ledger lo hi bs := (ledger_cons.mp h).2.2.2

theorem ledger_append_right {lo hi : Nat} {as bs : List Block}
    (h : Ledger lo hi (as ++ bs)) : Ledger lo hi bs where
  positive b mem := h.positive b (by simp [mem])
  within b mem := h.within b (by simp [mem])
  apart := (List.pairwise_append.mp h.apart).2.1

theorem ledger_append_apart {lo hi : Nat} {as bs : List Block} (h : Ledger lo hi (as ++ bs))
    {a b : Block} (ma : a ∈ as) (mb : b ∈ bs) : a.Apart b :=
  (List.pairwise_append.mp h.apart).2.2 a ma b mb

theorem length_le_total {lo hi : Nat} {bs : List Block} (h : Ledger lo hi bs) :
    bs.length ≤ total bs := by
  induction bs with
  | nil => simp
  | cons b bs ih =>
    have := h.positive b (by simp)
    have := ih (ledger_tail h)
    simp only [List.length_cons, total_cons]
    omega

def cells : List Block → Finset Nat
  | [] => ∅
  | b :: bs => Finset.Ico b.base b.stop ∪ cells bs

theorem mem_cells {bs : List Block} {i : Nat} : i ∈ cells bs ↔ ∃ b ∈ bs, b.Contains i := by
  induction bs with
  | nil => simp [cells]
  | cons b bs ih => simp [cells, ih, Block.Contains]

theorem card_cells {lo hi : Nat} {bs : List Block} (h : Ledger lo hi bs) : (cells bs).card = total bs := by
  induction bs with
  | nil => rfl
  | cons b bs ih =>
    obtain ⟨_, _, first, rest⟩ := ledger_cons.mp h
    have disjoint : Disjoint (Finset.Ico b.base b.stop) (cells bs) := by
      refine Finset.disjoint_left.mpr fun i here there => ?_
      obtain ⟨c, mem, low, high⟩ := mem_cells.mp there
      obtain ⟨low', high'⟩ := Finset.mem_Ico.mp here
      have apart := first c mem
      unfold Block.Apart at apart
      omega
    rw [cells, Finset.card_union_of_disjoint disjoint, ih rest, Nat.card_Ico, total_cons]
    unfold Block.stop
    omega

/- Blocks whose lengths add up to the whole range leave no cell of it. -/
theorem ledger_covers {lo size i : Nat} {bs : List Block} (h : Ledger lo (lo + size) bs) (full : total bs = size)
    (low : lo ≤ i) (high : i < lo + size) : ∃ b ∈ bs, b.Contains i := by
  have inside : cells bs ⊆ Finset.Ico lo (lo + size) := by
    intro j mem
    obtain ⟨b, mb, low, high⟩ := mem_cells.mp mem
    have within := h.within b mb
    unfold Block.Within at within
    exact Finset.mem_Ico.mpr ⟨by omega, by omega⟩
  have all : cells bs = Finset.Ico lo (lo + size) := by
    refine Finset.eq_of_subset_of_card_le inside ?_
    rw [card_cells h, full, Nat.card_Ico]
    omega
  exact mem_cells.mp (all ▸ Finset.mem_Ico.mpr ⟨low, high⟩)

/- Cutting a block in two and gluing two adjacent blocks are inverse moves. -/
theorem ledger_split {lo hi base m k : Nat} {bs : List Block} (hm : 0 < m) (hk : 0 < k)
    (h : Ledger lo hi (⟨base, m + k⟩ :: bs)) :
    Ledger lo hi (⟨base, m⟩ :: ⟨base + m, k⟩ :: bs) := by
  obtain ⟨_, within, first, rest⟩ := ledger_cons.mp h
  simp only [Block.Within, stop_mk] at within
  refine ledger_cons.mpr ⟨hm, ⟨within.1, by simp only [stop_mk]; omega⟩, ?_,
    ledger_cons.mpr ⟨hk, ⟨by simp only; omega, by simp only [stop_mk]; omega⟩, ?_, rest⟩⟩
  · intro c mem
    rcases List.mem_cons.mp mem with same | mem
    · subst c; exact Or.inl (Nat.le_refl _)
    · have := first c mem
      simp only [Block.Apart, stop_mk] at this ⊢
      omega
  · intro c mem
    have := first c mem
    simp only [Block.Apart, stop_mk] at this ⊢
    omega

theorem ledger_join {lo hi base m k : Nat} {bs : List Block}
    (h : Ledger lo hi (⟨base, m⟩ :: ⟨base + m, k⟩ :: bs)) :
    Ledger lo hi (⟨base, m + k⟩ :: bs) := by
  obtain ⟨hm, inM, firstM, tail⟩ := ledger_cons.mp h
  obtain ⟨hk, inK, firstK, rest⟩ := ledger_cons.mp tail
  simp only [Block.Within, stop_mk] at inM inK
  refine ledger_cons.mpr ⟨by simp only at hm ⊢; omega, ⟨inM.1, by simp only [stop_mk]; omega⟩,
    ?_, rest⟩
  intro c mem
  have hc := rest.positive c mem
  have left := firstM c (by simp [mem])
  have right := firstK c mem
  simp only [Block.Apart, Block.stop] at left right ⊢
  omega

def Block.shift (k : Nat) (b : Block) : Block := ⟨k + b.base, b.size⟩

theorem total_shift (k : Nat) (bs : List Block) : total (bs.map (Block.shift k)) = total bs := by
  induction bs with
  | nil => rfl
  | cons b bs ih => rw [List.map_cons, total_cons, total_cons, ih]; rfl

theorem ledger_shift {lo hi : Nat} {bs : List Block} (k : Nat) (h : Ledger lo hi bs) :
    Ledger (k + lo) (k + hi) (bs.map (Block.shift k)) := by
  induction bs with
  | nil => exact ledger_nil _ _
  | cons b bs ih =>
    obtain ⟨positive, within, first, rest⟩ := ledger_cons.mp h
    simp only [Block.Within, Block.stop] at within
    apply ledger_cons.mpr
    refine ⟨positive, ⟨by simp only [Block.shift]; omega, by simp only [Block.shift, stop_mk]; omega⟩,
      ?_, ih rest⟩
    intro c mem
    obtain ⟨d, md, rfl⟩ := List.mem_map.mp mem
    have := first d md
    simp only [Block.Apart, Block.shift, Block.stop] at this ⊢
    omega

theorem shift_apart {k x len : Nat} {b : Block} : (Block.shift k b).Apart ⟨k + x, len⟩ ↔ b.Apart ⟨x, len⟩ := by
  simp only [Block.Apart, Block.shift, Block.stop]
  omega

/- Blocks that are cut short at their end stay a ledger. -/
theorem ledger_shrink {lo hi : Nat} {bs : List Block} {f : Block → Block}
    (shorter : ∀ b ∈ bs, (f b).base = b.base ∧ 0 < b.size ∧ b.size ≤ (f b).size)
    (h : Ledger lo hi (bs.map f)) : Ledger lo hi bs := by
  induction bs with
  | nil => exact ledger_nil _ _
  | cons b bs ih =>
    obtain ⟨positive, within, first, rest⟩ := ledger_cons.mp h
    have shortB := shorter b (by simp)
    simp only [Block.Within, Block.stop] at within
    apply ledger_cons.mpr
    refine ⟨shortB.2.1, ⟨by omega, by simp only [Block.stop]; omega⟩, ?_,
      ih (fun c mem => shorter c (by simp [mem])) rest⟩
    intro c mem
    have apart := first (f c) (List.mem_map_of_mem mem)
    have shortC := shorter c (by simp [mem])
    simp only [Block.Apart, Block.stop] at apart ⊢
    omega

end Blocks
