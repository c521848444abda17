import Ucore.Mm.BuddyPmmRuns
import Ucore.Mm.PmmManager

/- Runs of the buddy allocator. -/
namespace Ucore.BuddyPmm
open Words Blocks BuddyTree Transitions

def buddyPmmManager : PmmManager State :=
  { allocPages := buddyAllocPages, freePages := buddyFreePages }

/- The pages that the tree gives to a block. -/
def extent (b : Block) : Block := ⟨b.base, roundUp b.size⟩

structure TreeInv (base order : Nat) (t : Tree) (s : State) (live : List Block) : Prop where
  root : s.binaryTreeRoot = base
  size : s.totalSize = 2 ^ order
  holds : Holds s.nodes 0 order t
  shared : (live.map extent).Perm ((blocks order 0 t).map (Block.shift base))
  large : ∀ b ∈ live, 0 < b.size ∧ b.size ≤ roundUp b.size
  clear : ∀ i, base ≤ i → i < base + 2 ^ order →
    (s.pages i).reserved = false ∧ (s.pages i).pageProperty = false

/- A request that is not refused outright is rounded up to no less than it asks for,
   the managed size is an `int`, and the whole of it is given to a lone block. -/
def Faithful (w : World State) : Call → Prop
  | .alloc n => roundUp n ≤ w.state.totalSize →
      n ≤ roundUp n ∧ w.state.totalSize ≠ 2147483648 ∧
        (roundUp n = w.state.totalSize → w.live = [])
  | .free _ => True

instance (w : World State) : (c : Call) → Decidable (Faithful w c)
  | .alloc _ => inferInstanceAs (Decidable (_ → _))
  | .free _ => inferInstanceAs (Decidable True)

section Steps
variable {base order n : Nat} {t : Tree} {s : State} {live : List Block}

theorem holds_proper {nodes : Nodes} {i k : Nat} (holds : Holds nodes i k t) : Proper k t := by
  induction k generalizing i t with
  | zero =>
    cases t with
    | free => trivial
    | used => trivial
    | split l r => exact holds.elim
  | succ k ih =>
    cases t with
    | free => trivial
    | used => trivial
    | split l r =>
      obtain ⟨_, left, right, busy⟩ := holds
      exact ⟨ih left, ih right, busy⟩

/- A write to a node leaves what is below it and what is around it. -/
theorem write_node {nodes : Nodes} {node : Node} {k : Nat} {c : Context}
    (below : FreshBelow nodes (holeIndex c) k) (around : HoldsAround nodes k c) :
    FreshBelow (Function.update nodes (holeIndex c) node) (holeIndex c) k ∧
      HoldsAround (Function.update nodes (holeIndex c) node) k c := by
  constructor
  · apply fresh_below_congr _ below
    intro j _ ne
    exact Function.update_of_ne ne.symm _ _
  · apply holds_around_congr _ around
    intro j outside
    apply Function.update_of_ne
    intro same
    exact outside (same ▸ .here)

theorem set_property_flags (pages : Pages) (i j : Nat) (v : Int) :
    (pages.setProperty i v j).reserved = (pages j).reserved ∧
      (pages.setProperty i v j).pageProperty = (pages j).pageProperty := by
  unfold Pages.setProperty Pages.edit
  by_cases same : j = i
  · subst j; simp
  · simp [same]

theorem refused (positive : 0 < n)
    (beyond : roundUp n > s.totalSize) : buddyAllocPages s n = some (none, s) := by
  have nonzero : n ≠ 0 := by omega
  unfold buddyAllocPages
  rw [if_neg nonzero]
  exact if_pos beyond

/- The outcome of a request that is not refused, by what the search finds. -/
theorem searched {blockSize index offset : Nat} (positive : 0 < n)
    (within : ¬ roundUp n > s.totalSize)
    (run : descend s.nodes (log2 (roundUp n) + 1) (log2 s.totalSize + 1) 0 0 =
      (blockSize, index, offset)) :
    buddyAllocPages s n =
      if blockSize > log2 (roundUp n) + 1 then some (none, s)
      else some (some (s.binaryTreeRoot + offset), { s with
        pages := s.pages.setProperty (s.binaryTreeRoot + offset) ((1 <<< (blockSize - 1) : Nat) : Int)
        nodes := ascendAlloc index (Function.update s.nodes index ⟨0, 0⟩) index 0 }) := by
  have nonzero : n ≠ 0 := by omega
  unfold buddyAllocPages
  rw [if_neg nonzero, if_neg within]
  extract_lets log2n
  rw [show descend s.nodes log2n (log2 s.totalSize + 1) 0 0 = (blockSize, index, offset) from run]

/- A request for 2^m pages where the tree has room for it. -/
theorem alloc_found {m : Nat} (inv : TreeInv base order t s live) (small : order ≤ 30) (positive : 0 < n)
    (power : roundUp n = 2 ^ m) (le : m ≤ order) (enough : n ≤ roundUp n) (room : m + 1 ≤ value order t) :
    ∃ c s', m + c.length = order ∧ buddyAllocPages s n = some (some (base + holeOffset m c), s') ∧
      s'.totalSize = s.totalSize ∧
      TreeInv base order (plug c .used) s' (⟨base + holeOffset m c, n⟩ :: live) ∧ s.nodes (holeIndex c) = ⟨m, m⟩ := by
  have within : ¬ roundUp n > s.totalSize := by
    have : 2 ^ m ≤ 2 ^ order := Nat.pow_le_pow_right (by decide) le
    rw [power, inv.size]
    omega
  have logN : log2 (roundUp n) = m := by rw [power, log2_power (by omega)]
  have logT : log2 ((s.totalSize : Nat) : Int) = order := by rw [inv.size, log2_power small]
  obtain ⟨c, run, free, around, same, length⟩ := @descend_run s.nodes m order t [] inv.holds
    trivial le room
  have below := (fresh_iff.mp (holds_free.mp free)).2
  obtain ⟨below', around'⟩ := @write_node s.nodes ⟨0, 0⟩ m c below around
  have used : Holds (Function.update s.nodes (holeIndex c) ⟨0, 0⟩) (holeIndex c) m .used :=
    holds_used.mpr ⟨by simp, below'⟩
  have ascended := ascend_alloc_run used around' (by decide) (Nat.le_refl _)
  have whole : m + c.length = order := by simpa using length
  simp only [holeIndex, holeOffset, plug] at run same
  rw [← logT, ← logN] at run
  rw [value_used, whole] at ascended
  have before := blocks_plug m c .free
  have after := blocks_plug m c .used
  rw [same, whole, blocks_free, List.nil_append] at before
  rw [whole, blocks_used, List.singleton_append] at after
  refine ⟨c, { s with
    pages := s.pages.setProperty (base + holeOffset m c) ((1 <<< m : Nat) : Int)
    nodes := ascendAlloc (holeIndex c) (Function.update s.nodes (holeIndex c) ⟨0, 0⟩)
      (holeIndex c) 0 }, whole, ?_, rfl, ⟨inv.root, inv.size, ascended, ?_, ?_, ?_⟩, (fresh_iff.mp (holds_free.mp free)).1⟩
  · rw [← inv.root]
    exact (searched positive within run).trans (by rw [logN, if_neg (Nat.lt_irrefl _)]; rfl)
  · have shape : extent ⟨base + holeOffset m c, n⟩ = Block.shift base ⟨holeOffset m c, 2 ^ m⟩ := by
      simp [extent, Block.shift, power]
    rw [List.map_cons, shape]
    have := (inv.shared.trans (before.map _)).cons (Block.shift base ⟨holeOffset m c, 2 ^ m⟩)
    exact this.trans (after.map _).symm
  · intro b mem
    rcases List.mem_cons.mp mem with same | mem
    · subst b
      exact ⟨positive, enough⟩
    · exact inv.large b mem
  · intro i lower upper
    have flags := set_property_flags s.pages (base + holeOffset m c) i ((1 <<< m : Nat) : Int)
    rw [flags.1, flags.2]
    exact inv.clear i lower upper

/- A request for 2^m pages where the tree has no room for it. -/
theorem alloc_missed {m : Nat} (inv : TreeInv base order t s live) (small : order ≤ 30) (positive : 0 < n)
    (power : roundUp n = 2 ^ m) (smaller : m < order) (scarce : value order t < m + 1) :
    buddyAllocPages s n = some (none, s) := by
  have within : ¬ roundUp n > s.totalSize := by
    have : 2 ^ m ≤ 2 ^ order := Nat.pow_le_pow_right (by decide) (by omega)
    rw [power, inv.size]
    omega
  have logN : log2 (roundUp n) = m := by rw [power, log2_power (by omega)]
  have logT : log2 ((s.totalSize : Nat) : Int) = order := by rw [inv.size, log2_power small]
  have run := descend_fails inv.holds smaller scarce
  rw [← logT, ← logN] at run
  have missed : log2 s.totalSize + 1 > log2 (roundUp n) + 1 := by
    rw [logN, logT]
    omega
  exact (searched positive within run).trans (if_pos missed)

theorem alloc_run (inv : TreeInv base order t s live) (small : order ≤ 30) (positive : 0 < n)
    (faithful : Faithful ⟨s, live⟩ (.alloc n)) :
    buddyAllocPages s n = some (none, s) ∨
    ∃ page s' t', buddyAllocPages s n = some (some page, s') ∧
      s'.totalSize = s.totalSize ∧ TreeInv base order t' s' (⟨page, n⟩ :: live) := by
  by_cases beyond : roundUp n > s.totalSize
  · exact Or.inl (refused positive beyond)
  · obtain ⟨enough, _, alone⟩ := faithful (show roundUp n ≤ s.totalSize by omega)
    obtain ⟨m, power⟩ : ∃ m, roundUp n = 2 ^ m := by
      rcases round_up_power positive with zero | power
      · omega
      · exact power
    have le : m ≤ order := by
      have := inv.size
      exact (Nat.pow_le_pow_iff_right (a := 2) (by decide)).mp (by omega)
    by_cases room : m + 1 ≤ value order t
    · obtain ⟨c, s', _, run, kept, inv', _⟩ := alloc_found inv small positive power le enough room
      exact Or.inr ⟨_, s', _, run, kept, inv'⟩
    · have smaller : m < order := by
        by_contra high
        obtain rfl : m = order := by omega
        have empty : live = [] := alone (by rw [power, inv.size])
        have none_used : blocks m 0 t = [] := by simpa [empty] using inv.shared
        rw [proper_idle (holds_proper inv.holds) none_used, value_free] at room
        omega
      exact Or.inl (alloc_missed inv small positive power smaller (by omega))

theorem freed {page index : Nat} {pages : Pages} (positive : 0 < n)
    (released : releasePages s.pages page (roundUp n) = some pages)
    (found : getIndex ((page : Int) - s.binaryTreeRoot) (roundUp n) s.totalSize = some index) :
    buddyFreePages s page n = some { s with
      pages := pages.setProperty page 0
      nodes := ascendFree index (Function.update s.nodes index
          ⟨log2 (roundUp n) + 1 - 1, log2 (roundUp n) + 1 - 1⟩)
        index (log2 (roundUp n) + 1) (log2 (roundUp n) + 1) } := by
  have nonzero : n ≠ 0 := by omega
  unfold buddyFreePages
  rw [if_neg nonzero]
  extract_lets r
  rw [show releasePages s.pages page r = some pages from released, Option.bind_eq_bind,
    Option.bind_some]
  rw [show getIndex ((page : Int) - s.binaryTreeRoot) r s.totalSize = some index from found]
  rfl

theorem free_run {b : Block} (inv : TreeInv base order t s live) (small : order ≤ 30)
    (mem : b ∈ live) : ∃ s' t', buddyFreePages s b.base b.size = some s' ∧
      s'.totalSize = s.totalSize ∧ TreeInv base order t' s' (live.erase b) := by
  have large := inv.large b mem
  obtain ⟨d, md, shifted⟩ := List.mem_map.mp (inv.shared.mem_iff.mp (List.mem_map_of_mem mem))
  obtain ⟨m, c, block, used, around, same, length⟩ :=
    @block_context s.nodes order t [] d inv.holds trivial md
  have whole : m + c.length = order := by simpa using length
  have place : b.base = base + holeOffset m c ∧ roundUp b.size = 2 ^ m := by
    rw [block] at shifted
    simp only [Block.shift, extent, Block.mk.injEq] at shifted
    omega
  have inside := hole_offset_lt m c
  rw [whole] at inside
  have released : releasePages s.pages b.base (roundUp b.size) =
      some (releasedPages s.pages b.base (2 ^ m)) := by
    rw [place.2]
    apply release_pages_run
    intro i lower upper
    exact inv.clear i (by omega) (by omega)
  have found : getIndex ((b.base : Int) - s.binaryTreeRoot) (roundUp b.size) s.totalSize =
      some (holeIndex c) := by
    have offset : (b.base : Int) - s.binaryTreeRoot = (holeOffset m c : Nat) := by
      rw [inv.root]
      omega
    rw [offset, place.2, inv.size, ← whole]
    exact get_index_hole (by omega)
  obtain ⟨_, below⟩ := holds_used.mp used
  obtain ⟨below', around'⟩ := @write_node s.nodes ⟨m, m⟩ m c below around
  have free : Holds (Function.update s.nodes (holeIndex c) ⟨m, m⟩) (holeIndex c) m .free :=
    holds_free.mpr (fresh_iff.mpr ⟨by simp, below'⟩)
  have ascended := ascend_free_run free around' (Nat.le_refl _)
  rw [value_free, whole] at ascended
  have before := blocks_plug m c .used
  have after := blocks_plug m c .free
  rw [same, plug, whole, blocks_used, List.singleton_append] at before
  rw [whole, blocks_free, List.nil_append] at after
  refine ⟨{ s with
    pages := (releasedPages s.pages b.base (2 ^ m)).setProperty b.base 0
    nodes := ascendFree (holeIndex c) (Function.update s.nodes (holeIndex c) ⟨m, m⟩)
      (holeIndex c) (m + 1) (m + 1) }, plug c .free, ?_, rfl, inv.root, inv.size, ascended,
      ?_, ?_, ?_⟩
  · have logN : log2 (roundUp b.size) = m := by rw [place.2, log2_power (by omega)]
    have run := freed large.1 released found
    rwa [logN] at run
  · have held := (List.perm_cons_erase mem).map extent
    have shape : extent b = Block.shift base ⟨holeOffset m c, 2 ^ m⟩ := by
      simp [extent, Block.shift, place]
    have all := held.symm.trans (inv.shared.trans (before.map (Block.shift base)))
    rw [List.map_cons, List.map_cons, shape] at all
    exact ((List.perm_cons _).mp all).trans (after.map _).symm
  · intro b' mem'
    exact inv.large b' (List.mem_of_mem_erase mem')
  · intro i lower upper
    have flags := set_property_flags (releasedPages s.pages b.base (2 ^ m)) b.base i 0
    rw [flags.1, flags.2]
    have clear := inv.clear i lower upper
    unfold releasedPages
    split
    · exact ⟨rfl, rfl⟩
    · exact clear

end Steps

/- What the allocator owes its callers: the live blocks, also as rounded up, are nonempty,
   inside the managed range and pairwise disjoint; and once they fill the range, nothing
   more is handed out. -/
structure Safe (base size : Nat) (w : World State) : Prop where
  ledger : Ledger base (base + size) w.live
  rounded : Ledger base (base + size) (w.live.map extent)
  full : w.live ≠ [] → total (w.live.map extent) = size → ∀ n, 0 < n → Faithful w (.alloc n) →
    buddyAllocPages w.state n = some (none, w.state)

/- A range that is empty or no `int` has no tree, and none of it is handed out. -/
def WorldInv (base size : Nat) (w : World State) : Prop :=
  w.state.totalSize = size ∧
    ((size = 0 ∨ size = 2147483648) ∧ w.live = [] ∨
      ∃ order ≤ 30, ∃ t, TreeInv base order t w.state w.live)

section Runs
variable {base size : Nat} {w : World State}

theorem tree_inv_rounded {order : Nat} {t : Tree} {s : State} {live : List Block}
    (inv : TreeInv base order t s live) : Ledger base (base + 2 ^ order) (live.map extent) := by
  have ledger := ledger_shift base (blocks_ledger order 0 t)
  rw [Nat.add_zero, Nat.zero_add] at ledger
  exact ledger_perm inv.shared.symm ledger

theorem tree_inv_safe {order : Nat} {t : Tree} (small : order ≤ 30)
    (inv : TreeInv base order t w.state w.live) : Safe base (2 ^ order) w := by
  have rounded := tree_inv_rounded inv
  refine ⟨?_, rounded, ?_⟩
  · have shorter : ∀ b ∈ w.live, (extent b).base = b.base ∧ 0 < b.size ∧ b.size ≤ (extent b).size :=
      fun b mem => ⟨rfl, inv.large b mem⟩
    exact ledger_shrink shorter rounded
  · intro _ full n positive faithful
    rcases alloc_run inv small positive faithful with refused | ⟨page, s', t', _, _, inv'⟩
    · exact refused
    · exfalso
      have space := blocks_total_le order 0 t'
      rw [← total_shift base, ← total_perm inv'.shared, List.map_cons, total_cons, full] at space
      have large := inv'.large ⟨page, n⟩ (by simp)
      simp only [extent] at space large
      omega

theorem world_inv_safe (inv : WorldInv base size w) : Safe base size w := by
  obtain ⟨total, ⟨_, empty⟩ | ⟨order, small, t, inv⟩⟩ := inv
  · refine ⟨?_, ?_, fun some_live => absurd empty some_live⟩
    · rw [empty]; exact ledger_nil _ _
    · rw [empty]; exact ledger_nil _ _
  · obtain rfl : 2 ^ order = size := inv.size.symm.trans total
    exact tree_inv_safe small inv

theorem serve_inv {c : Call} (inv : WorldInv base size w) (permitted : Permitted w c)
    (faithful : Faithful w c) : ∃ w', buddyPmmManager.serve w c = some w' ∧ WorldInv base size w' := by
  obtain ⟨sized, ⟨odd, empty⟩ | ⟨order, small, t, inv⟩⟩ := inv
  · cases c with
    | alloc n =>
      have positive : 0 < n := permitted
      have beyond : roundUp n > w.state.totalSize := by
        by_contra within
        obtain ⟨enough, notInt, _⟩ := faithful (by omega)
        omega
      refine ⟨⟨w.state, w.live⟩, ?_, sized, Or.inl ⟨odd, empty⟩⟩
      simp [PmmManager.serve, buddyPmmManager, refused positive beyond]
    | free b =>
      have held : b ∈ w.live := permitted
      rw [empty] at held
      cases held
  · cases c with
    | alloc n =>
      rcases alloc_run inv small permitted faithful with run | ⟨page, s', t', run, kept, inv'⟩
      · refine ⟨⟨w.state, w.live⟩, ?_, sized, Or.inr ⟨order, small, t, inv⟩⟩
        simp [PmmManager.serve, buddyPmmManager, run]
      · refine ⟨⟨s', ⟨page, n⟩ :: w.live⟩, ?_, kept.trans sized, Or.inr ⟨order, small, t', inv'⟩⟩
        simp [PmmManager.serve, buddyPmmManager, run]
    | free b =>
      obtain ⟨s', t', run, kept, inv'⟩ := free_run inv small permitted
      refine ⟨⟨s', w.live.erase b⟩, ?_, kept.trans sized, Or.inr ⟨order, small, t', inv'⟩⟩
      simp [PmmManager.serve, buddyPmmManager, run]

end Runs

def boot (s : State) (base n : Nat) : Option (World State) :=
  (buddyInitMemmap s base n).map fun s => ⟨s, []⟩

theorem init_tree_fresh (nodes : Nodes) {k : Nat} (small : k ≤ 30) :
    Fresh (initTree nodes (log2 (2 ^ k : Nat) + 1) 0 (i32 (2 * (2 ^ k : Nat) - 1)).toNat) 0 k := by
  have bound : 2 ^ k ≤ 2 ^ 30 := Nat.pow_le_pow_right (by decide) small
  have double : 2 ^ (k + 1) = 2 * 2 ^ k := by omega
  have positive := Nat.two_pow_pos k
  have one : (0 + 1 : Nat).log2 = 0 := by decide
  have start : (if isPowerOf2 (0 + 1) then k + 1 - 1 else k + 1) = k - (0 + 1 : Nat).log2 := by
    rw [one, if_pos (by decide)]
    omega
  rw [log2_power small, i32_exact (by omega) (by omega)]
  apply fresh_of_levels _ (by rw [one]; omega : (0 + 1 : Nat).log2 + k = k)
  intro j inside
  rw [init_tree_at start, if_pos (by omega)]

theorem boot_inv {s : State} {base n : Nat} (positive : 0 < n)
    (reserved : ∀ i, base ≤ i → i < base + n → (s.pages i).reserved = true) :
    ∃ start, boot s base n = some start ∧ WorldInv base (u32 (managedSize n)) start := by
  have nonzero : n ≠ 0 := by omega
  have le := managed_size_le n
  have cleared : initPages s.pages base (managedSize n) =
      some (initializedPages s.pages base (managedSize n)) :=
    init_pages_run fun i lower upper => reserved i lower (by omega)
  have booted : boot s base n = some ⟨{
      binaryTreeRoot := base, totalSize := u32 (managedSize n)
      pages := initializedPages s.pages base (managedSize n)
      nodes := initTree s.nodes (log2 (managedSize n) + 1) 0
        (i32 (2 * (managedSize n : Nat) - 1)).toNat }, []⟩ := by
    unfold boot buddyInitMemmap
    rw [if_neg nonzero]
    extract_lets r
    rw [show initPages s.pages base r = _ from cleared, Option.bind_eq_bind, Option.bind_some]
    rfl
  refine ⟨_, booted, rfl, ?_⟩
  rcases total_size_power positive with zero | ⟨k, small, value, total⟩
  · exact Or.inl ⟨Or.inl zero, rfl⟩
  · by_cases top : k = 31
    · exact Or.inl ⟨Or.inr (by rw [total, top]; norm_num), rfl⟩
    · refine Or.inr ⟨k, by omega, .free, rfl, total, ?_, ?_, by simp, ?_⟩
      · rw [value]
        exact holds_free.mpr (init_tree_fresh s.nodes (by omega))
      · simp
      · intro i lower upper
        simp [initializedPages, value, lower, upper]

theorem faithful_runs_are_safe {s : State} {base n : Nat} (positive : 0 < n)
    (reserved : ∀ i, base ≤ i → i < base + n → (s.pages i).reserved = true) :
    ∃ start, boot s base n = some start ∧ ∀ calls w,
      Run (fun w c w' => Faithful w c ∧ buddyPmmManager.request w c = some w') start calls w →
      Safe base (u32 (managedSize n)) w ∧ ∀ c, Permitted w c → Faithful w c →
        (buddyPmmManager.request w c).isSome := by
  obtain ⟨start, booted, inv⟩ := boot_inv positive reserved
  refine ⟨start, booted, ?_⟩
  intro calls w run
  have kept := runs_keep (fun w c inv permitted faithful => serve_inv inv permitted faithful) inv run
  exact ⟨world_inv_safe kept.1, kept.2⟩

def reservedPages : State := ⟨0, 0, fun _ => ⟨0, true, 0, false⟩, fun _ => ⟨0, 0⟩⟩

/- Ten pages, of which eight are managed. -/
theorem faithful_run_on_ten_pages : ∃ start w, boot reservedPages 0 10 = some start ∧
    Run (fun w c w' => Faithful w c ∧ buddyPmmManager.request w c = some w') start
      [.alloc 8, .free ⟨0, 8⟩, .alloc 1, .alloc 3, .free ⟨7, 1⟩, .alloc 2] w ∧
    w.live = [⟨6, 2⟩, ⟨0, 3⟩] ∧ Safe 0 8 w := by
  have answer : ((boot reservedPages 0 10).bind fun start => replay
      (buddyPmmManager.requestWhen Faithful) start
      [.alloc 8, .free ⟨0, 8⟩, .alloc 1, .alloc 3, .free ⟨7, 1⟩, .alloc 2]).map World.live =
        some [⟨6, 2⟩, ⟨0, 3⟩] := by decide +kernel
  obtain ⟨w, ran, live⟩ := Option.map_eq_some_iff.mp answer
  obtain ⟨start, booted, ran⟩ := Option.bind_eq_some_iff.mp ran
  have run := request_when_run ran
  obtain ⟨start', booted', safe⟩ := @faithful_runs_are_safe reservedPages 0 10 (by decide)
    (fun i _ _ => rfl)
  obtain rfl : start = start' := by simpa [booted] using booted'
  exact ⟨start, w, booted, run, live, (safe _ w run).1⟩

/- Four pages: a request for all of them is answered with a block that overlaps a live
   one. -/
theorem whole_range_handed_out_twice : ∃ start w, boot reservedPages 0 4 = some start ∧
    Run (fun w c w' => buddyPmmManager.request w c = some w') start [.alloc 1, .alloc 4] w ∧
    ¬ w.live.Pairwise Block.Apart := by
  have answer : ((boot reservedPages 0 4).bind fun start =>
      replay buddyPmmManager.request start [.alloc 1, .alloc 4]).map World.live =
      some [⟨0, 4⟩, ⟨3, 1⟩] := by decide +kernel
  obtain ⟨w, ran, live⟩ := Option.map_eq_some_iff.mp answer
  obtain ⟨start, booted, ran⟩ := Option.bind_eq_some_iff.mp ran
  refine ⟨start, w, booted, replay_run ran, ?_⟩
  rw [live]
  decide

end Ucore.BuddyPmm
