import Ucore.Mm.KmallocFrame

/- Requests of every size: small blocks, and whole pages with a descriptor among the small blocks. -/
namespace Ucore.Slob
open Words CyclicOrder Tiling Transitions
variable {arena a b fuel fuel' size run n p x units : Nat} {F L P : Finset Nat} {g h t : Heap} {answers left growth : List Nat}
  {big : List BigBlock} {bb : BigBlock} {call : Call} {calls : List Call} {r : Option Nat × List Nat × Heap}

/-- `small` are the headers of the live small blocks, `pages` the pages of the free list. The large blocks are `bigblocks`. -/
structure Store where
  heap : Heap
  small : Finset Nat
  pages : Finset Nat

def runBytes (bb : BigBlock) : Nat := PAGE_SIZE <<< bb.order

def bases (big : List BigBlock) : Finset Nat := (big.map (·.base)).toFinset

/-- The bytes at `p` are whole pages apart from the arena and the pages `P`. -/
structure Outside (arena : Nat) (P : Finset Nat) (p n : Nat) : Prop where
  aligned : PAGE_SIZE ∣ p
  nonzero : p ≠ 0
  clear : p + n < arena ∨ arena + SLOB_UNIT < p
  pages : ∀ q ∈ P, p + n ≤ q ∨ q + PAGE_SIZE ≤ p

def RunsApart (big : List BigBlock) (p n : Nat) : Prop := ∀ bb ∈ big, p + n ≤ bb.pages ∨ bb.pages + runBytes bb ≤ p

def RunsBeside (a b : BigBlock) : Prop := a.pages + runBytes a ≤ b.pages ∨ b.pages + runBytes b ≤ a.pages

instance : Std.Symm RunsBeside := ⟨fun _ _ => Or.symm⟩

/- What `slob_alloc` is called with. -/
def header (size : Nat) : Nat := if size < PAGE_SIZE - SLOB_UNIT then size + SLOB_UNIT else sizeofBigblock

/-- What `alloc_pages` answers: one page, asked for if no free block has room, and the pages of a large block. Memory that is
in use is not given. -/
structure Fair (arena : Nat) (s : Store) (size : Nat) (growth : List Nat) (run : Nat) : Prop where
  once : growth.length ≤ 1
  asked : growth = [] ↔ ∃ a, Listed s.heap a ∧ slobUnits (header size) ≤ s.heap.units a
  page : ∀ p ∈ growth, p ≠ 0 → Outside arena s.pages p PAGE_SIZE ∧ RunsApart s.heap.bigblocks p PAGE_SIZE
  whole : run ≠ 0 → Outside arena (s.pages ∪ obtained growth) run (PAGE_SIZE <<< findOrder (i32 size)) ∧
    RunsApart s.heap.bigblocks run (PAGE_SIZE <<< findOrder (i32 size))

def Store.after (s : Store) (size : Nat) (growth : List Nat) (m : Option Nat) (t : Heap) : Store :=
  ⟨t, if size < PAGE_SIZE - SLOB_UNIT then s.small ∪ (m.map (· - SLOB_UNIT)).toFinset else s.small, s.pages ∪ obtained growth⟩

inductive SizeStep (arena : Nat) : Store → Call → Store → Prop
  | kmalloc {s : Store} {fuel size run : Nat} {growth left : List Nat} {m : Option Nat} {t : Heap} (low : 1 ≤ size)
      (fair : Fair arena s size growth run) (done : kmalloc fuel size (growth ++ [run]) s.heap = some (m, left, t)) :
      SizeStep arena s (.kmalloc size) (s.after size growth m t)
  | kfree {s : Store} {fuel b : Nat} {t : Heap} (mem : b ∈ s.small) (done : kfree fuel (b + SLOB_UNIT) s.heap = some t) :
      SizeStep arena s (.kfree (b + SLOB_UNIT)) ⟨t, s.small.erase b, s.pages⟩
  | kfreeBig {s : Store} {fuel : Nat} {bb : BigBlock} {t : Heap} (mem : bb ∈ s.heap.bigblocks)
      (done : kfree fuel bb.pages s.heap = some t) : SizeStep arena s (.kfree bb.pages) ⟨t, s.small, s.pages⟩

def empty (arena : Nat) : Store := ⟨(initial arena).heap, ∅, ∅⟩

/-- The memory that is in use: small blocks with their headers, descriptors and large blocks. -/
def Extent (s : Store) (a n : Nat) : Prop :=
  (a ∈ s.small ∪ bases s.heap.bigblocks ∧ n = bytes s.heap a) ∨ ∃ bb ∈ s.heap.bigblocks, a = bb.pages ∧ n = runBytes bb

/-- A live block with `n` bytes for its user. -/
def Usable (s : Store) (block n : Nat) : Prop :=
  (∃ b ∈ s.small, block = b + SLOB_UNIT ∧ n + SLOB_UNIT = bytes s.heap b) ∨ ∃ bb ∈ s.heap.bigblocks, block = bb.pages ∧ n = runBytes bb

/-- `block`, live in `t`, shares nothing with what was in use in `s`. -/
def Gives (s t : Store) (block n : Nat) : Prop := Usable t block n ∧ ∀ a m, Extent s a m → block + n ≤ a ∨ a + m ≤ block

/-- The call ends, with NULL or a new block that is large enough, and whole pages are asked for in sufficient number. -/
def HonoursSize (arena : Nat) (s : Store) (size : Nat) : Prop :=
  (PAGE_SIZE - SLOB_UNIT ≤ size → size ≤ PAGE_SIZE <<< findOrder (i32 size)) ∧
    ∀ growth run, Fair arena s size growth run →
      ∃ fuel m left t, kmalloc fuel size (growth ++ [run]) s.heap = some (m, left, t) ∧
        ∀ block, m = some block → ∃ n, size ≤ n ∧ Gives s (s.after size growth m t) block n

def Fits (size : Nat) : Prop :=
  size < 4064 ∨ 4080 ≤ size ∧ size < 2 ^ 31 ∧ ∀ k, ¬ (4096 * 2 ^ k < size ∧ size < 4097 * 2 ^ k)

/-- What holds between the calls. -/
structure Whole (arena : Nat) (s : Store) : Prop where
  sound : ∃ F g, Sound arena F (s.small ∪ bases s.heap.bigblocks) s.pages g ∧ s.heap = withBig s.heap.bigblocks g
  distinct : (s.heap.bigblocks.map (·.base)).Nodup
  apart : ∀ b ∈ s.small, b ∉ bases s.heap.bigblocks
  descriptors : ∀ b ∈ bases s.heap.bigblocks, s.heap.units b = slobUnits sizeofBigblock
  headers : ∀ b ∈ s.small, 2 ≤ s.heap.units b
  outside : ∀ bb ∈ s.heap.bigblocks, Outside arena s.pages bb.pages (runBytes bb)
  runs : s.heap.bigblocks.Pairwise RunsBeside

theorem Outside.not_area (outside : Outside arena P p n) (low : p ≤ x) (high : x < p + n) : ¬ Area arena P x := by
  rintro (⟨low', high'⟩ | ⟨q, mq, low', high'⟩)
  · rcases outside.clear with clear | clear <;> omega
  · rcases outside.pages q mq with clear | clear <;> omega

/- No block of the area reaches into other pages. -/
theorem Outside.block_apart (outside : Outside arena P p n) (some_bytes : 0 < n) (laid : Laid arena F L P h) (ma : a ∈ F ∪ L) :
    p + n ≤ a ∨ a + bytes h a ≤ p := by
  by_contra meet
  obtain ⟨before, behind⟩ := not_or.mp meet
  have positive := laid.positive ma
  exact outside.not_area (Nat.le_max_left p a) (by omega)
    ((laid.tiles.covered _).mp ⟨a, ma, Nat.le_max_right p a, by omega⟩)

theorem run_positive (order : Nat) : PAGE_SIZE ≤ PAGE_SIZE <<< order := by
  rw [Nat.shiftLeft_eq]
  exact Nat.le_mul_of_pos_right _ (Nat.two_pow_pos order)

theorem Outside.fresh (outside : Outside arena P p n) (page : PAGE_SIZE ≤ n) : Page arena p ∧ p ∉ P := by
  refine ⟨⟨outside.aligned, outside.nonzero, ?_⟩, fun mem => ?_⟩
  · rcases outside.clear with clear | clear
    · exact .inl (by omega)
    · exact .inr clear
  · unfold PAGE_SIZE at page
    rcases outside.pages p mem with clear | clear
    · omega
    · unfold PAGE_SIZE at clear
      omega

theorem Outside.more {Q : Finset Nat} (outside : Outside arena P p n) (others : ∀ q ∈ Q, p + n ≤ q ∨ q + PAGE_SIZE ≤ p) :
    Outside arena (P ∪ Q) p n := by
  refine ⟨outside.aligned, outside.nonzero, outside.clear, fun q mem => ?_⟩
  rcases Finset.mem_union.mp mem with old | new
  · exact outside.pages q old
  · exact others q new

theorem Outside.less {Q : Finset Nat} (outside : Outside arena P p n) (sub : Q ⊆ P) : Outside arena Q p n :=
  ⟨outside.aligned, outside.nonzero, outside.clear, fun q mem => outside.pages q (sub mem)⟩

theorem mem_obtained : p ∈ obtained growth ↔ p ∈ growth ∧ p ≠ 0 := by
  unfold obtained
  rw [Finset.mem_filter, List.mem_toFinset]

theorem header_small (small : size < 4080) : header size = size + SLOB_UNIT := if_pos small

theorem header_big (large : 4080 ≤ size) : header size = sizeofBigblock := if_neg (by unfold PAGE_SIZE SLOB_UNIT; omega)

/- The answers that are asked for are taken, and no others. -/
theorem fair_alloc {s : Store} (sound : Sound arena F (s.small ∪ bases s.heap.bigblocks) s.pages g)
    (away : arena ∉ s.small ∪ bases s.heap.bigblocks) (same : s.heap = withBig s.heap.bigblocks g)
    (fair : Fair arena s size growth run) (low : 17 ≤ header size) (high : header size < 4080) :
    ∃ fuel b t, slobAlloc fuel (header size) 0 (growth ++ [run]) g = some (b, [run], t) ∧
      Served arena (slobUnits (header size)) (s.small ∪ bases s.heap.bigblocks) s.pages g (growth ++ [run]) (b, [run], t) := by
  have fresh : ∀ p ∈ growth ++ [run], p ≠ 0 → Page arena p ∧ p ∉ s.pages := by
    intro p mem some_page
    rcases List.mem_append.mp mem with mem | mem
    · exact (fair.page p mem some_page).1.fresh (Nat.le_refl _)
    · obtain rfl := List.mem_singleton.mp mem
      exact ((fair.whole some_page).1.less Finset.subset_union_left).fresh (run_positive _)
  have room : growth = [] ↔ ∃ a ∈ F, slobUnits (header size) ≤ g.units a := by
    rw [fair.asked, same]
    exact exists_congr fun a => and_congr_left fun _ => (listed_iff sound : Listed g a ↔ a ∈ F)
  have once := fair.once
  rcases alloc_run sound away low high fresh with ⟨fuel, ⟨b, left, t⟩, done, served, taken⟩ | ⟨empty, _⟩
  · suffices is_left : left = [run] by
      subst is_left
      exact ⟨fuel, b, t, done, served⟩
    rw [← room] at taken
    rcases growth with _ | ⟨page, _ | ⟨page', rest⟩⟩
    · exact taken.mpr rfl
    · generalize whole : [page] ++ [run] = answers at served taken
      have other : left ≠ answers := fun is => nomatch taken.mp is
      cases served with
      | here => exact absurd rfl other
      | grown => exact (List.cons.inj whole).2.symm
      | lack => exact (List.cons.inj whole).2.symm
    · exact absurd once (by simp)
  · exact absurd empty (by simp)

end Ucore.Slob
