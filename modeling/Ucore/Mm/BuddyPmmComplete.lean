import Ucore.Mm.BuddyPmmSafety

/- What the nodes of the buddy allocator tell of the free pages, and that the search misses none. -/
namespace Ucore.BuddyPmm
open Words Blocks BuddyTree Transitions

/-- The least power of two that is not below `n`. -/
def rounded (n : Nat) : Nat := 2 ^ Nat.clog 2 n

theorem le_rounded (n : Nat) : n ≤ rounded n := Nat.le_pow_clog (by decide) n

theorem round_up_exact {n : Nat} (positive : 0 < n) (small : rounded n < wordSize) : roundUp n = rounded n := by
  unfold roundUp
  by_cases power : isPowerOf2 n = true
  · rw [if_pos power]
    obtain ⟨k, rfl⟩ := (is_power_of_two_iff positive).mp power
    unfold rounded
    rw [Nat.clog_pow 2 k (by decide)]
  · rw [if_neg power]
    have fits : n < wordSize := Nat.lt_of_le_of_lt (le_rounded n) small
    have low : 2 ^ n.log2 ≤ n := Nat.log2_self_le (by omega)
    have high : n < 2 ^ (n.log2 + 1) := Nat.lt_log2_self
    have ne : 2 ^ n.log2 ≠ n := fun same => power ((is_power_of_two_iff positive).mpr ⟨_, same.symm⟩)
    have above : n.log2 < Nat.clog 2 n := (Nat.lt_clog_iff_pow_lt (by decide)).mpr (by omega)
    have below : Nat.clog 2 n ≤ n.log2 + 1 := Nat.clog_le_of_le_pow (Nat.le_of_lt high)
    have order : Nat.clog 2 n = n.log2 + 1 := by omega
    unfold rounded at small ⊢
    rw [u32_of_nat fits, fixsize_value positive fits, ← order, u32_of_nat small]

/- A request for less than the managed size, as it is rounded. -/
def Smaller (w : World State) : Call → Prop
  | .alloc n => rounded n < w.state.totalSize
  | .free _ => True

instance (w : World State) : (c : Call) → Decidable (Smaller w c)
  | .alloc _ => inferInstanceAs (Decidable (_ < _))
  | .free _ => inferInstanceAs (Decidable True)

/-- The pages a block was given. -/
def given (b : Block) : Block := ⟨b.base, rounded b.size⟩

/-- Between the offsets `lo` and `hi` an aligned block of 2^j pages is entirely free. -/
def FreeBlock (w : World State) (lo hi j : Nat) : Prop :=
  ∃ q, lo ≤ q * 2 ^ j ∧ q * 2 ^ j + 2 ^ j ≤ hi ∧ ∀ b ∈ w.live, (given b).Apart ⟨w.state.binaryTreeRoot + q * 2 ^ j, 2 ^ j⟩

/- The pages of node `i`. -/
def nodeSize (w : World State) (i : Nat) : Nat := w.state.totalSize / 2 ^ (i + 1).log2
def nodeStart (w : World State) (i : Nat) : Nat := (i + 1 - 2 ^ (i + 1).log2) * nodeSize w i

/-- Node `i` lies in a block that was handed out. -/
def Allocated (w : World State) (i : Nat) : Prop :=
  ∃ b ∈ w.live, b.base ≤ w.state.binaryTreeRoot + nodeStart w i ∧
    w.state.binaryTreeRoot + nodeStart w i + nodeSize w i ≤ b.base + rounded b.size

/-- `left_max` and `right_max` are one more than the order of the largest free block of each half. -/
def Exact (w : World State) (i : Nat) : Prop :=
  ∀ j, (j < (w.state.nodes i).leftMax ↔ FreeBlock w (nodeStart w i) (nodeStart w i + nodeSize w i / 2) j) ∧
    (j < (w.state.nodes i).rightMax ↔
      FreeBlock w (nodeStart w i + nodeSize w i / 2) (nodeStart w i + nodeSize w i / 2 + nodeSize w i / 2) j)

structure Complete (w : World State) : Prop where
  ends : ∀ n, 0 < n → rounded n < w.state.totalSize → ∃ r, buddyAllocPages w.state n = some r
  null_iff : ∀ n, 0 < n → rounded n < w.state.totalSize →
    ((∃ s, buddyAllocPages w.state n = some (none, s)) ↔ ¬ FreeBlock w 0 w.state.totalSize (Nat.clog 2 n))
  aligned : ∀ n page s, 0 < n → rounded n < w.state.totalSize → buddyAllocPages w.state n = some (some page, s) →
    ∃ q, page = w.state.binaryTreeRoot + q * rounded n
  nodes : ∀ i < 2 * w.state.totalSize - 1, Allocated w i ∨ Exact w i

section Nodes
variable {nodes : Nodes} {t : Tree} {order i j d k : Nat}

/- The offset of a node of level `d`, and those of its children. -/
theorem level_child (level : (i + 1).log2 = d + 1) : ∃ p, (p + 1).log2 = d ∧
    (i = 2 * p + 1 ∧ i + 1 - 2 ^ (d + 1) = 2 * (p + 1 - 2 ^ d) ∨ i = 2 * p + 2 ∧ i + 1 - 2 ^ (d + 1) = 2 * (p + 1 - 2 ^ d) + 1) := by
  have low : 2 ^ (i + 1).log2 ≤ i + 1 := Nat.log2_self_le (by omega)
  have high : i + 1 < 2 ^ ((i + 1).log2 + 1) := Nat.lt_log2_self
  rw [level] at low high
  have positive := Nat.two_pow_pos d
  have double : 2 ^ (d + 1) = 2 * 2 ^ d := by omega
  have double' : 2 ^ (d + 1 + 1) = 2 * 2 ^ (d + 1) := by omega
  refine ⟨(i - 1) / 2, (Nat.log2_eq_iff (by omega)).mpr ⟨by omega, by omega⟩, ?_⟩
  omega

theorem tree_order (inside : i < 2 * 2 ^ order - 1) : ∃ k, (i + 1).log2 + k = order := by
  have : (i + 1).log2 < order + 1 := (Nat.log2_lt (by omega)).mpr (by rw [Nat.pow_succ]; omega)
  exact ⟨order - (i + 1).log2, by omega⟩

/- Every node lies in a used block, or holds the subtree of its pages. -/
theorem node_tree (holds : Holds nodes 0 order t) (level : (i + 1).log2 = d) (depth : d + k = order) :
    (∃ b ∈ blocks order 0 t, b.base ≤ (i + 1 - 2 ^ d) * 2 ^ k ∧ (i + 1 - 2 ^ d) * 2 ^ k + 2 ^ k ≤ b.stop) ∨
      ∃ t' rest, t' ≠ .used ∧ Holds nodes i k t' ∧
        (blocks order 0 t).Perm (blocks k ((i + 1 - 2 ^ d) * 2 ^ k) t' ++ rest) ∧
        ∀ b ∈ rest, b.Apart ⟨(i + 1 - 2 ^ d) * 2 ^ k, 2 ^ k⟩ := by
  -- A subtree that is a used block is the first case.
  have either : ∀ {i k off : Nat} {t' : Tree} {rest : List Block}, Holds nodes i k t' →
      (blocks order 0 t).Perm (blocks k off t' ++ rest) → (∀ b ∈ rest, b.Apart ⟨off, 2 ^ k⟩) →
      (∃ b ∈ blocks order 0 t, b.base ≤ off ∧ off + 2 ^ k ≤ b.stop) ∨
        ∃ t' rest, t' ≠ .used ∧ Holds nodes i k t' ∧ (blocks order 0 t).Perm (blocks k off t' ++ rest) ∧
          ∀ b ∈ rest, b.Apart ⟨off, 2 ^ k⟩ := by
    intro i k off t' rest holds all clear
    by_cases used : t' = .used
    · subst t'
      refine .inl ⟨⟨off, 2 ^ k⟩, all.mem_iff.mpr ?_, Nat.le_refl _, Nat.le_refl _⟩
      rw [blocks_used]
      exact List.mem_cons_self
    · exact .inr ⟨t', rest, used, holds, all, clear⟩
  induction d generalizing i k with
  | zero =>
    have high : i + 1 < 2 ^ ((i + 1).log2 + 1) := Nat.lt_log2_self
    rw [level] at high
    obtain rfl : i = 0 := by omega
    obtain rfl : k = order := by omega
    rw [show (0 + 1 - 2 ^ 0) * 2 ^ k = 0 by omega]
    exact either holds (by rw [List.append_nil]) fun b mem => absurd mem List.not_mem_nil
  | succ d ih =>
    obtain ⟨p, above, child⟩ := level_child level
    have size : 2 ^ (k + 1) = 2 ^ k + 2 ^ k := by omega
    have positive := Nat.two_pow_pos k
    have start : (p + 1 - 2 ^ d) * 2 ^ (k + 1) = 2 * (p + 1 - 2 ^ d) * 2 ^ k := by
      rw [Nat.pow_succ]
      ring
    rcases ih above (show d + (k + 1) = order by omega) with ⟨b, mem, low, high⟩ | ⟨t', rest, idle, holds', all, clear⟩
    · refine .inl ⟨b, mem, ?_⟩
      rw [start] at low high
      rcases child with ⟨_, place⟩ | ⟨_, place⟩
      · rw [place]
        omega
      · rw [place, Nat.add_mul, Nat.one_mul]
        omega
    · obtain ⟨l, r, shape, _, left, right⟩ := holds_halves holds' idle
      rw [← shape, blocks_join, start] at all
      rw [start] at clear
      rcases child with ⟨here, place⟩ | ⟨here, place⟩
      · subst i
        rw [place]
        refine either left (all.trans (by rw [List.append_assoc])) fun b mem => ?_
        rcases List.mem_append.mp mem with mem | mem
        · exact right_clear b mem
        · exact apart_inside (clear b mem) (Nat.le_refl _) (by omega)
      · subst i
        rw [place, Nat.add_mul, Nat.one_mul]
        refine either right (swap_parts all) fun b mem => ?_
        rcases List.mem_append.mp mem with mem | mem
        · exact left_clear b mem
        · exact apart_inside (clear b mem) (by omega) (by omega)

/- The fields of a node that holds the subtree of its pages. -/
theorem node_values {off : Nat} {t' : Tree} {bs rest : List Block} (holds : Holds nodes i k t') (idle : t' ≠ .used)
    (aligned : 2 ^ k ∣ off) (all : bs.Perm (blocks k off t' ++ rest)) (clear : ∀ b ∈ rest, b.Apart ⟨off, 2 ^ k⟩) :
    (j < (nodes i).leftMax ↔ Vacant bs off (off + 2 ^ k / 2) j) ∧
      (j < (nodes i).rightMax ↔ Vacant bs (off + 2 ^ k / 2) (off + 2 ^ k / 2 + 2 ^ k / 2) j) := by
  cases k with
  | zero =>
    have leaf : nodes i = ⟨0, 0⟩ := by
      cases t' with
      | free => exact holds
      | used => exact absurd rfl idle
      | split l r => exact holds.elim
    have none_there : ∀ lo, ¬ Vacant bs lo (lo + 0) j := by
      rintro lo ⟨q, low, high, _⟩
      have := Nat.two_pow_pos j
      omega
    rw [leaf]
    exact ⟨⟨fun no => absurd no (Nat.not_lt_zero j), fun vacant => absurd vacant (none_there off)⟩,
      ⟨fun no => absurd no (Nat.not_lt_zero j), fun vacant => absurd vacant (none_there _)⟩⟩
  | succ k =>
    obtain ⟨l, r, shape, root, left, right⟩ := holds_halves holds idle
    have half : 2 ^ (k + 1) / 2 = 2 ^ k := by omega
    have size : 2 ^ (k + 1) = 2 ^ k + 2 ^ k := by omega
    have positive := Nat.two_pow_pos k
    have aligned' : 2 ^ k ∣ off := (Nat.pow_dvd_pow 2 (Nat.le_succ k)).trans aligned
    rw [← shape, blocks_join] at all
    rw [root, half]
    constructor
    · rw [List.append_assoc] at all
      rw [vacant_within all fun b mem => ?_]
      · exact value_iff (holds_proper left) aligned' j
      · rcases List.mem_append.mp mem with mem | mem
        · exact right_clear b mem
        · exact apart_inside (clear b mem) (Nat.le_refl _) (by omega)
    · rw [vacant_within (swap_parts all) fun b mem => ?_]
      · exact value_iff (holds_proper right) (Dvd.dvd.add aligned' (Nat.dvd_refl _)) j
      · rcases List.mem_append.mp mem with mem | mem
        · exact left_clear b mem
        · exact apart_inside (clear b mem) (by omega) (by omega)

end Nodes

section States
variable {base size order n i j lo hi : Nat} {t : Tree} {w : World State}

/-- The live blocks are those of requests for less than the managed size. -/
def SmallBlocks (size : Nat) (live : List Block) : Prop := ∀ b ∈ live, 0 < b.size ∧ rounded b.size < size

theorem live_given (fits : size ≤ 2147483648) (blocks : SmallBlocks size w.live) :
    w.live.map given = w.live.map extent := by
  refine List.map_congr_left fun b mem => ?_
  obtain ⟨positive, small⟩ := blocks b mem
  unfold given extent
  rw [round_up_exact positive (Nat.lt_of_lt_of_le small (Nat.le_trans fits (by decide)))]

theorem free_block_iff (inv : TreeInv base order t w.state w.live) (small : order ≤ 30)
    (small_blocks : SmallBlocks (2 ^ order) w.live) : FreeBlock w lo hi j ↔ Vacant (blocks order 0 t) lo hi j := by
  have bound := power_lt_int small
  have perm := inv.shared
  rw [← live_given (by omega) small_blocks] at perm
  have apart : ∀ c : Block, (∀ b ∈ w.live, (given b).Apart c) ↔
      ∀ b ∈ blocks order 0 t, (Block.shift base b).Apart c := by
    intro c
    rw [← List.forall_mem_map (f := given) (P := fun b => b.Apart c),
      ← List.forall_mem_map (f := Block.shift base) (P := fun b => b.Apart c)]
    exact ⟨fun all b mem => all b (perm.mem_iff.mpr mem), fun all b mem => all b (perm.mem_iff.mp mem)⟩
  unfold FreeBlock Vacant
  rw [inv.root]
  simp only [apart, shift_apart]

theorem tree_complete (inv : TreeInv base order t w.state w.live) (small : order ≤ 30)
    (small_blocks : SmallBlocks (2 ^ order) w.live) : Complete w := by
  have bound := power_lt_int small
  have sized := inv.size
  have proper := holds_proper inv.holds
  have outcome : ∀ n, 0 < n → rounded n < w.state.totalSize →
      FreeBlock w 0 w.state.totalSize (Nat.clog 2 n) ∧ (∃ q s, buddyAllocPages w.state n =
          some (some (w.state.binaryTreeRoot + q * rounded n), s)) ∨
        ¬ FreeBlock w 0 w.state.totalSize (Nat.clog 2 n) ∧ buddyAllocPages w.state n = some (none, w.state) := by
    intro n positive less
    rw [sized] at less ⊢
    have power : roundUp n = 2 ^ Nat.clog 2 n := round_up_exact positive (Nat.lt_trans less (Nat.lt_trans bound (by decide)))
    have smaller : Nat.clog 2 n < order := (Nat.pow_lt_pow_iff_right (a := 2) (by decide)).mp less
    have vacant := value_iff proper (Nat.dvd_zero (2 ^ order)) (Nat.clog 2 n)
    rw [Nat.zero_add] at vacant
    rw [free_block_iff inv small small_blocks, ← vacant]
    by_cases room : Nat.clog 2 n < value order t
    · have enough : n ≤ roundUp n := by
        rw [power]
        exact le_rounded n
      obtain ⟨c, s, _, run, _⟩ := alloc_found inv small positive power (Nat.le_of_lt smaller) enough room
      obtain ⟨q, _, _, place⟩ := hole_place (Nat.clog 2 n) c
      refine .inl ⟨room, q, s, ?_⟩
      rw [run, place, inv.root]
      rfl
    · exact .inr ⟨room, alloc_missed inv small positive power smaller (by omega)⟩
  refine ⟨fun n positive less => ?_, fun n positive less => ?_, fun n page s positive less run => ?_, fun i low => ?_⟩
  · rcases outcome n positive less with ⟨_, q, s, run⟩ | ⟨_, run⟩
    · exact ⟨_, run⟩
    · exact ⟨_, run⟩
  · rcases outcome n positive less with ⟨free, q, s, run⟩ | ⟨full, run⟩
    · refine ⟨fun ⟨s', none_found⟩ => ?_, fun full => absurd free full⟩
      rw [run] at none_found
      cases none_found
    · exact ⟨fun _ => full, fun _ => ⟨_, run⟩⟩
  · rcases outcome n positive less with ⟨_, q, s', found⟩ | ⟨_, none_found⟩
    · rw [found] at run
      cases run
      exact ⟨q, rfl⟩
    · rw [none_found] at run
      cases run
  · rw [sized] at low
    obtain ⟨k, depth⟩ := tree_order low
    have pages : nodeSize w i = 2 ^ k := by
      unfold nodeSize
      rw [sized, ← depth, Nat.pow_add]
      exact Nat.mul_div_cancel_left _ (Nat.two_pow_pos _)
    have start : nodeStart w i = (i + 1 - 2 ^ (i + 1).log2) * 2 ^ k := by
      unfold nodeStart
      rw [pages]
    unfold Allocated Exact
    rw [start, pages]
    rcases node_tree inv.holds rfl depth with ⟨b, mem, below, above⟩ | ⟨t', rest, idle, holds, all, clear⟩
    · left
      have there : Block.shift base b ∈ w.live.map given := by
        rw [live_given (by omega) small_blocks]
        exact inv.shared.mem_iff.mpr (List.mem_map_of_mem mem)
      obtain ⟨a, live, same⟩ := List.mem_map.mp there
      have at_base : a.base = base + b.base := congrArg Block.base same
      have at_size : rounded a.size = b.size := congrArg Block.size same
      unfold Block.stop at above
      rw [inv.root]
      exact ⟨a, live, by omega, by omega⟩
    · right
      intro j
      rw [free_block_iff inv small small_blocks, free_block_iff inv small small_blocks]
      exact node_values holds idle (Nat.dvd_mul_left ..) all clear

/- What holds after every run of smaller requests. -/
def Settled (base size : Nat) (w : World State) : Prop := WorldInv base size w ∧ SmallBlocks size w.live

theorem settled_complete (inv : Settled base size w) (int : size ≠ 2147483648) : Complete w := by
  obtain ⟨⟨total, ⟨odd, empty⟩ | ⟨order, small, t, inv⟩⟩, small_blocks⟩ := inv
  · have none_managed : w.state.totalSize = 0 := total.trans (odd.resolve_right int)
    refine ⟨fun n _ less => ?_, fun n _ less => ?_, fun n _ _ _ less => ?_, fun i low => ?_⟩
    · rw [none_managed] at less
      exact absurd less (Nat.not_lt_zero _)
    · rw [none_managed] at less
      exact absurd less (Nat.not_lt_zero _)
    · rw [none_managed] at less
      exact absurd less (Nat.not_lt_zero _)
    · rw [none_managed] at low
      exact absurd low (Nat.not_lt_zero _)
  · obtain rfl : 2 ^ order = size := inv.size.symm.trans total
    exact tree_complete inv small small_blocks

end States

section Runs
variable {base n : Nat} {s : State}

theorem smaller_faithful {w : World State} {size : Nat} {c : Call} (inv : Settled base size w) (int : size ≠ 2147483648)
    (permitted : Permitted w c) (less : Smaller w c) : Faithful w c := by
  cases c with
  | alloc n =>
    intro _
    have total := inv.1.1
    have fits : w.state.totalSize ≤ 2147483648 := by
      obtain ⟨_, ⟨odd, _⟩ | ⟨order, small, t, inv⟩⟩ := inv.1
      · omega
      · have bound := power_lt_int small
        have := inv.size
        omega
    have exactly : roundUp n = rounded n :=
      round_up_exact permitted (Nat.lt_of_lt_of_le less (Nat.le_trans fits (by decide)))
    refine ⟨exactly ▸ le_rounded n, by omega, fun whole => ?_⟩
    exact absurd (exactly.symm.trans whole) (Nat.ne_of_lt less)
  | free b => trivial

theorem serve_settled {w : World State} {size : Nat} {c : Call} (inv : Settled base size w) (int : size ≠ 2147483648)
    (permitted : Permitted w c) (less : Smaller w c) :
    ∃ w', buddyPmmManager.serve w c = some w' ∧ Settled base size w' := by
  obtain ⟨w', served, inv'⟩ := serve_inv inv.1 permitted (smaller_faithful inv int permitted less)
  refine ⟨w', served, inv', ?_⟩
  cases c with
  | alloc n =>
    obtain ⟨⟨r, s⟩, _, rfl⟩ := Option.map_eq_some_iff.mp served
    cases r with
    | none => exact inv.2
    | some page =>
      intro b mem
      rcases List.mem_cons.mp mem with rfl | mem
      · exact ⟨permitted, Nat.lt_of_lt_of_eq less inv.1.1⟩
      · exact inv.2 b mem
  | free b =>
    obtain ⟨s, _, rfl⟩ := Option.map_eq_some_iff.mp served
    exact fun b' mem => inv.2 b' (List.mem_of_mem_erase mem)

theorem boot_settled (positive : 0 < n) (reserved : ∀ i, base ≤ i → i < base + n → (s.pages i).reserved = true) :
    ∃ start, boot s base n = some start ∧ Settled base (u32 (managedSize n)) start ∧ start.live = [] := by
  obtain ⟨start, booted, inv⟩ := boot_inv positive reserved
  have empty : start.live = [] := by
    obtain ⟨_, _, rfl⟩ := Option.map_eq_some_iff.mp booted
    rfl
  refine ⟨start, booted, ⟨inv, fun b mem => ?_⟩, empty⟩
  rw [empty] at mem
  exact absurd mem List.not_mem_nil

theorem managed_int (positive : 0 < n) (top : u32 (managedSize n) = 2147483648) : n = 2147483648 := by
  rcases total_size_power positive with zero | ⟨k, small, value, total⟩
  · omega
  · rw [← value] at total
    rw [total] at top
    unfold managedSize at top
    by_cases power : isPowerOf2 n = true
    · rwa [if_pos power] at top
    · rw [if_neg power, Nat.shiftRight_eq_div_pow] at top
      have := u32_lt (fixsize (u32 n))
      have low : fixsize (u32 n) < wordSize := u32_lt _
      unfold wordSize at low
      omega

theorem run_settled {start w : World State} {size : Nat} {calls : List Call} (inv : Settled base size start)
    (int : size ≠ 2147483648)
    (run : Run (fun w c w' => Smaller w c ∧ buddyPmmManager.request w c = some w') start calls w) : Settled base size w :=
  (runs_keep (fun _ _ inv permitted less => serve_settled inv int permitted less) inv run).1

/- 2^31 pages are no `int`: no node is written, and every request is answered with the root. -/
theorem top_boot (reserved : ∀ i, base ≤ i → i < base + 2147483648 → (s.pages i).reserved = true) :
    boot s base 2147483648 = some ⟨{
      binaryTreeRoot := base, totalSize := 2147483648, pages := initializedPages s.pages base 2147483648
      nodes := s.nodes }, []⟩ := by
  have cleared := init_pages_run reserved
  have power : isPowerOf2 2147483648 = true := by decide
  unfold boot buddyInitMemmap
  rw [if_neg (by decide), if_pos power]
  dsimp only
  rw [cleared, Option.bind_eq_bind, Option.bind_some]
  rfl

/- As an `int`, neither 0 nor 2^31 is above 1. -/
theorem flat_alloc (positive : 0 < n) (flat : s.totalSize = 0 ∨ s.totalSize = 2 ^ 31) (within : roundUp n ≤ s.totalSize) :
    buddyAllocPages s n = some (some s.binaryTreeRoot, { s with
      pages := s.pages.setProperty s.binaryTreeRoot 1, nodes := Function.update s.nodes 0 ⟨0, 0⟩ }) := by
  have logT : log2 ((s.totalSize : Nat) : Int) = 0 := by
    rcases flat with size | size <;> rw [size] <;> decide
  have run : descend s.nodes (log2 (roundUp n) + 1) (log2 s.totalSize + 1) 0 0 = (1, 0, 0) := by
    rw [logT, descend, if_neg (by omega)]
  rw [searched positive (Nat.not_lt.mpr within) run, if_neg (by omega)]
  rfl

theorem top_request {t : State} {k : Nat} (power : roundUp n = 2 ^ k) (small : k ≤ 30) (positive : 0 < n)
    (top : t.totalSize = 2147483648) : buddyPmmManager.request ⟨t, []⟩ (.alloc n) = some ⟨{ t with
      pages := t.pages.setProperty t.binaryTreeRoot 1, nodes := Function.update t.nodes 0 ⟨0, 0⟩ }, [⟨t.binaryTreeRoot, n⟩]⟩ := by
  have permitted : Permitted ⟨t, []⟩ (.alloc n) := positive
  unfold PmmManager.request
  rw [if_pos permitted]
  unfold PmmManager.serve buddyPmmManager
  dsimp only
  have := power_lt_int small
  rw [flat_alloc positive (.inr top) (by omega)]
  rfl

/- The right half of the region is free, but the root says that nothing is. -/
theorem top_not_complete {w : World State} (top : w.state.totalSize = 2147483648)
    (live : w.live = [⟨w.state.binaryTreeRoot, 1⟩]) (root : w.state.nodes 0 = ⟨0, 0⟩) : ¬ Complete w := by
  intro complete
  have pages : nodeSize w 0 = 2147483648 := by
    unfold nodeSize
    rw [top]
    decide
  have start : nodeStart w 0 = 0 := Nat.zero_mul _
  rcases complete.nodes 0 (by rw [top]; decide) with ⟨b, mem, low, high⟩ | exact
  · rw [live] at mem
    obtain rfl := List.mem_singleton.mp mem
    have one : rounded 1 = 1 := by decide
    rw [pages, start] at high
    dsimp only at high
    rw [one] at high
    omega
  · have right := (exact 0).2
    rw [pages, start, root] at right
    refine absurd (right.mpr ⟨1073741824, by decide, by decide, fun b mem => ?_⟩) (Nat.lt_irrefl 0)
    rw [live] at mem
    obtain rfl := List.mem_singleton.mp mem
    exact .inl (Nat.add_le_add_left (by decide : rounded 1 ≤ 1073741824 * 2 ^ 0) _)

theorem top_incomplete (reserved : ∀ i, base ≤ i → i < base + 2147483648 → (s.pages i).reserved = true) :
    ∃ start w, boot s base 2147483648 = some start ∧
      Run (fun w c w' => Smaller w c ∧ buddyPmmManager.request w c = some w') start [.alloc 1] w ∧ ¬ Complete w := by
  have one : roundUp 1 = 2 ^ 0 := by decide
  have less : rounded 1 < 2147483648 := by decide
  refine ⟨_, _, top_boot reserved, .call ⟨less, top_request one (by decide) Nat.one_pos rfl⟩ (.stop _), ?_⟩
  refine top_not_complete rfl rfl ?_
  change Function.update s.nodes 0 ⟨0, 0⟩ 0 = _
  exact Function.update_self ..

theorem requests_find_free_blocks (positive : 0 < n) (reserved : ∀ i, base ≤ i → i < base + n → (s.pages i).reserved = true) :
    ∃ start, boot s base n = some start ∧
      ((∀ calls w, Run (fun w c w' => Smaller w c ∧ buddyPmmManager.request w c = some w') start calls w → Complete w) ↔
        n ≠ 2147483648) := by
  by_cases int : n = 2147483648
  · subst n
    obtain ⟨start, w, booted, run, incomplete⟩ := top_incomplete reserved
    exact ⟨start, booted, fun all => absurd (all _ w run) incomplete, fun ne => absurd rfl ne⟩
  · obtain ⟨start, booted, inv, _⟩ := boot_settled positive reserved
    have int' : u32 (managedSize n) ≠ 2147483648 := fun top => int (managed_int positive top)
    exact ⟨start, booted, fun _ => int, fun _ calls w run => settled_complete (run_settled inv int' run) int'⟩

/- Ten pages, of which eight are managed: the two free blocks of two pages are no block of four. -/
theorem ten_pages_find_free_blocks : ∃ start w, boot reservedPages 0 10 = some start ∧
    Run (fun w c w' => Smaller w c ∧ buddyPmmManager.request w c = some w') start
      [.alloc 2, .alloc 1, .alloc 2, .free ⟨6, 2⟩] w ∧ w.live = [⟨2, 2⟩, ⟨5, 1⟩] ∧ Complete w := by
  have answer : ((boot reservedPages 0 10).bind fun start => replay
      (buddyPmmManager.requestWhen Smaller) start [.alloc 2, .alloc 1, .alloc 2, .free ⟨6, 2⟩]).map World.live =
        some [⟨2, 2⟩, ⟨5, 1⟩] := by decide +kernel
  obtain ⟨w, ran, live⟩ := Option.map_eq_some_iff.mp answer
  obtain ⟨start, booted, ran⟩ := Option.bind_eq_some_iff.mp ran
  have run := request_when_run ran
  obtain ⟨start', booted', complete⟩ := @requests_find_free_blocks 0 10 reservedPages (by decide) fun i _ _ => rfl
  obtain rfl : start = start' := by simpa [booted] using booted'
  exact ⟨start, w, booted, run, live, complete.mpr (by decide) _ w run⟩

/- In a region of 2^31 pages the root tells nothing of the pages. -/
theorem two_to_the_31_pages : ∃ start w, boot reservedPages 0 2147483648 = some start ∧
    Run (fun w c w' => Smaller w c ∧ buddyPmmManager.request w c = some w') start [.alloc 1] w ∧ ¬ Complete w :=
  top_incomplete fun _ _ _ => rfl

end Runs

end Ucore.BuddyPmm
