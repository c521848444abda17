import Ucore.Mm.BuddyPmmComplete

/- Frees against requests: what the tree is when blocks have come back, and the number that the manager reports. -/
namespace Ucore.BuddyPmm
open Words Blocks BuddyTree Transitions

section Unique
variable {nodes nodes' : Nodes} {i j d k order base size : Nat} {t t' : Tree} {w w' : World State} {s : State}

def halves : Tree → Tree × Tree
  | .free => (.free, .free)
  | .used => (.free, .free)
  | .split l r => (l, r)

theorem holds_children (holds : Holds nodes i (k + 1) t) :
    Holds nodes (2 * i + 1) k (halves t).1 ∧ Holds nodes (2 * i + 2) k (halves t).2 := by
  cases t with
  | free => exact ⟨holds_free.mpr holds.2.1, holds_free.mpr holds.2.2⟩
  | used => exact ⟨holds_free.mpr holds.2.1, holds_free.mpr holds.2.2⟩
  | split l r => exact ⟨holds.2.1, holds.2.2.1⟩

theorem holds_root (holds : Holds nodes i k t) (holds' : Holds nodes' i k t) : nodes i = nodes' i := by
  cases t with
  | free => exact (fresh_iff.mp (holds_free.mp holds)).1.trans (fresh_iff.mp (holds_free.mp holds')).1.symm
  | used => exact (holds_used.mp holds).1.trans (holds_used.mp holds').1.symm
  | split l r =>
    cases k with
    | zero => exact holds.elim
    | succ k => exact holds.1.trans holds'.1.symm

/- The nodes of the array are known by the tree. -/
theorem holds_unique (holds : Holds nodes 0 order t) (holds' : Holds nodes' 0 order t) (level : (j + 1).log2 = d)
    (depth : d + k = order) : ∃ t', Holds nodes j k t' ∧ Holds nodes' j k t' := by
  induction d generalizing j k with
  | zero =>
    have high : j + 1 < 2 ^ ((j + 1).log2 + 1) := Nat.lt_log2_self
    rw [level] at high
    obtain rfl : j = 0 := by omega
    obtain rfl : k = order := by omega
    exact ⟨t, holds, holds'⟩
  | succ d ih =>
    obtain ⟨p, above, child⟩ := level_child level
    obtain ⟨t', here, here'⟩ := ih above (show d + (k + 1) = order by omega)
    rcases child with ⟨rfl, _⟩ | ⟨rfl, _⟩
    · exact ⟨_, (holds_children here).1, (holds_children here').1⟩
    · exact ⟨_, (holds_children here).2, (holds_children here').2⟩

/- Two states with the same live blocks have the same nodes. -/
theorem live_determine (inv : Settled base size w) (inv' : Settled base size w') (int : size ≠ 2147483648)
    (same : w'.live.Perm w.live) : ∀ i < 2 * size - 1, w'.state.nodes i = w.state.nodes i := by
  intro i inside
  obtain ⟨⟨total, ⟨odd, _⟩ | ⟨order, small, t, tree⟩⟩, _⟩ := inv
  · obtain rfl := odd.resolve_right int
    exact absurd inside (Nat.not_lt_zero _)
  · obtain rfl : 2 ^ order = size := tree.size.symm.trans total
    obtain ⟨⟨total', ⟨odd, _⟩ | ⟨order', small', t', tree'⟩⟩, _⟩ := inv'
    · have := Nat.two_pow_pos order
      omega
    · obtain rfl : order' = order := Nat.pow_right_injective (Nat.le_refl 2) (tree'.size.symm.trans total')
      have shifted : Function.Injective (Block.shift base) := by
        intro a b equal
        have first := congrArg Block.base equal
        have second := congrArg Block.size equal
        simp only [Block.shift] at first second
        cases a
        cases b
        simp only [Block.mk.injEq] at *
        omega
      have blocks := (List.map_perm_map_iff shifted).mp (tree'.shared.symm.trans ((same.map extent).trans tree.shared))
      obtain rfl := blocks_unique (holds_proper tree'.holds) (holds_proper tree.holds) blocks
      obtain ⟨k, depth⟩ := tree_order inside
      obtain ⟨t', here, here'⟩ := holds_unique tree'.holds tree.holds rfl depth
      exact holds_root here here'

end Unique

/- What the frees give back, against the state `start` that `buddy_init_memmap` left. -/
structure Restores (start w : World State) : Prop where
  drained : ∀ order : List Block, order.Perm w.live →
    ∃ w', replay buddyPmmManager.request w (order.map .free) = some w' ∧ w'.live = [] ∧
      ∀ i < 2 * start.state.totalSize - 1, w'.state.nodes i = start.state.nodes i
  returned : ∀ n page s, 0 < n → rounded n < w.state.totalSize → buddyAllocPages w.state n = some (some page, s) →
    ∃ s', buddyFreePages s page n = some s' ∧
      (∀ i < 2 * w.state.totalSize - 1, s'.nodes i = w.state.nodes i) ∧
      ∃ i < 2 * w.state.totalSize - 1, w.state.binaryTreeRoot + nodeStart w i = page ∧ nodeSize w i = rounded n ∧
        s'.nodes i = ⟨Nat.clog 2 n, Nat.clog 2 n⟩

section Runs
variable {base size n : Nat} {w start : World State} {s : State}

theorem request_of_serve {m : PmmManager State} {c : Call} (permitted : Permitted w c) : m.request w c = m.serve w c := if_pos permitted

theorem drain_run (inv : Settled base size w) (int : size ≠ 2147483648) {order : List Block} (all : order.Perm w.live) :
    ∃ w', replay buddyPmmManager.request w (order.map .free) = some w' ∧ w'.live = [] ∧ Settled base size w' := by
  induction order generalizing w with
  | nil => exact ⟨w, rfl, all.symm.eq_nil, inv⟩
  | cons b rest ih =>
    have held : b ∈ w.live := all.mem_iff.mp List.mem_cons_self
    obtain ⟨w', served, inv'⟩ := serve_settled (c := .free b) inv int held trivial
    have left : w'.live = w.live.erase b := by
      obtain ⟨_, _, rfl⟩ := Option.map_eq_some_iff.mp served
      rfl
    have all' : rest.Perm w'.live := by
      rw [left]
      exact List.cons_perm_iff_perm_erase.mp all |>.2
    obtain ⟨w'', ran, empty, inv''⟩ := ih inv' all'
    refine ⟨w'', ?_, empty, inv''⟩
    rw [List.map_cons, replay, request_of_serve (c := .free b) held, served]
    exact ran

/- The node of a block that is about to be handed out is that of a free block. -/
theorem found_node {order page : Nat} {t : Tree} (inv : TreeInv base order t w.state w.live) (small : order ≤ 30)
    (positive : 0 < n) (less : rounded n < 2 ^ order) (run : buddyAllocPages w.state n = some (some page, s)) :
    ∃ i < 2 * 2 ^ order - 1, base + nodeStart w i = page ∧ nodeSize w i = rounded n ∧
      w.state.nodes i = ⟨Nat.clog 2 n, Nat.clog 2 n⟩ := by
  have bound := power_lt_int small
  have power : roundUp n = 2 ^ Nat.clog 2 n := round_up_exact positive (Nat.lt_trans less (Nat.lt_trans bound (by decide)))
  have smaller : Nat.clog 2 n < order := (Nat.pow_lt_pow_iff_right (a := 2) (by decide)).mp less
  have room : Nat.clog 2 n + 1 ≤ value order t := by
    by_contra full
    rw [alloc_missed inv small positive power smaller (by omega)] at run
    cases run
  have enough : n ≤ roundUp n := by
    rw [power]
    exact le_rounded n
  obtain ⟨c, _, depth, found, _, _, node⟩ := alloc_found inv small positive power (Nat.le_of_lt smaller) enough room
  rw [found] at run
  obtain rfl : base + holeOffset (Nat.clog 2 n) c = page := by
    cases run
    rfl
  obtain ⟨q, inside, index, offset⟩ := hole_place (Nat.clog 2 n) c
  have level : (holeIndex c + 1).log2 = c.length :=
    (Nat.log2_eq_iff (by omega)).mpr ⟨by omega, by rw [Nat.pow_succ]; omega⟩
  have pages : nodeSize w (holeIndex c) = rounded n := by
    unfold nodeSize rounded
    rw [inv.size, level, ← depth, Nat.pow_add]
    exact Nat.mul_div_cancel _ (Nat.two_pow_pos _)
  have place : nodeStart w (holeIndex c) = holeOffset (Nat.clog 2 n) c := by
    unfold nodeStart
    rw [pages, level, index, offset, Nat.add_sub_cancel_left]
    rfl
  refine ⟨holeIndex c, ?_, by rw [place], pages, node⟩
  have : 2 ^ c.length ≤ 2 ^ order := Nat.pow_le_pow_right (by decide) (by omega)
  omega

theorem settled_restores (began : Settled base size start) (empty : start.live = []) (inv : Settled base size w)
    (int : size ≠ 2147483648) : Restores start w := by
  have total : w.state.totalSize = size := inv.1.1
  have total' : start.state.totalSize = size := began.1.1
  refine ⟨fun order all => ?_, fun n page s positive less run => ?_⟩
  · obtain ⟨w', ran, none_live, inv'⟩ := drain_run inv int all
    refine ⟨w', ran, none_live, ?_⟩
    rw [total']
    exact live_determine began inv' int (by rw [none_live, empty])
  · have permitted : Permitted w (.alloc n) := positive
    obtain ⟨w₁, served, inv₁⟩ := serve_settled (c := .alloc n) inv int permitted less
    obtain rfl : w₁ = ⟨s, ⟨page, n⟩ :: w.live⟩ := by
      unfold PmmManager.serve buddyPmmManager at served
      dsimp only at served
      rw [run] at served
      exact (Option.some.inj served).symm
    have held : Permitted ⟨s, ⟨page, n⟩ :: w.live⟩ (.free ⟨page, n⟩) := List.mem_cons_self
    obtain ⟨w₂, served', inv₂⟩ := serve_settled (c := .free ⟨page, n⟩) inv₁ int held trivial
    obtain ⟨s', freed, rfl⟩ := Option.map_eq_some_iff.mp served'
    have back := live_determine inv inv₂ int (by rw [List.erase_cons_head])
    rw [total] at less ⊢
    refine ⟨s', freed, back, ?_⟩
    obtain ⟨⟨_, ⟨odd, _⟩ | ⟨order, small, t, tree⟩⟩, _⟩ := inv
    · obtain rfl := odd.resolve_right int
      exact absurd less (Nat.not_lt_zero _)
    · obtain rfl : 2 ^ order = size := tree.size.symm.trans total
      obtain ⟨i, inside, place, pages, node⟩ := found_node tree small positive less run
      exact ⟨i, inside, by rw [tree.root, place], pages, (back i inside).trans node⟩

/- In a region of 2^31 pages the first request leaves its own mark on the root. -/
theorem top_restores {k : Nat} (power : roundUp n = 2 ^ k) (small : k ≤ 30) (positive : 0 < n) (less : rounded n < 2147483648)
    (found : getIndex 0 (2 ^ k : Nat) 2147483648 = some 0)
    (reserved : ∀ i, base ≤ i → i < base + 2147483648 → (s.pages i).reserved = true) :
    ∃ start w, boot s base 2147483648 = some start ∧
      Run (fun w c w' => Smaller w c ∧ buddyPmmManager.request w c = some w') start [.alloc n] w ∧
      (Restores start w → s.nodes 0 = ⟨k, k⟩) := by
  refine ⟨_, _, top_boot reserved, .call ⟨less, top_request power small positive rfl⟩ (.stop _), fun restores => ?_⟩
  obtain ⟨w', ran, _, same⟩ := restores.drained [⟨base, n⟩] (List.Perm.refl _)
  let pages := (initializedPages s.pages base 2147483648).setProperty base 1
  let t : State := { binaryTreeRoot := base, totalSize := 2147483648, pages, nodes := Function.update s.nodes 0 ⟨0, 0⟩ }
  have bound := power_lt_int small
  have released : releasePages t.pages base (roundUp n) = some (releasedPages pages base (2 ^ k)) := by
    rw [power]
    refine release_pages_run fun i lower upper => ?_
    have flags := set_property_flags (initializedPages s.pages base 2147483648) base i 1
    unfold t pages
    dsimp only
    rw [flags.1, flags.2]
    unfold initializedPages
    rw [if_pos ⟨lower, by omega⟩]
    exact ⟨rfl, rfl⟩
  have found' : getIndex ((base : Int) - t.binaryTreeRoot) (roundUp n) t.totalSize = some 0 := by
    rw [power, show (base : Int) - t.binaryTreeRoot = 0 from Int.sub_self _]
    exact found
  have logN : log2 (roundUp n) = k := by rw [power, log2_power small]
  obtain ⟨t', run, root⟩ : ∃ t', buddyFreePages t base n = some t' ∧ t'.nodes 0 = ⟨k, k⟩ := by
    refine ⟨_, freed positive released found', ?_⟩
    change Function.update t.nodes 0 ⟨log2 (roundUp n) + 1 - 1, log2 (roundUp n) + 1 - 1⟩ 0 = _
    rw [Function.update_self, logN]
    rfl
  have held : Permitted ⟨t, [⟨base, n⟩]⟩ (.free ⟨base, n⟩) := List.mem_cons_self
  have served : replay buddyPmmManager.request ⟨t, [⟨base, n⟩]⟩ [.free ⟨base, n⟩] =
      some ⟨t', [⟨base, n⟩].erase ⟨base, n⟩⟩ := by
    rw [replay, request_of_serve held]
    unfold PmmManager.serve buddyPmmManager
    dsimp only
    rw [run]
    rfl
  have at_root := same 0 (by decide : 0 < 2 * 2147483648 - 1)
  rw [Option.some.inj (ran.symm.trans served)] at at_root
  exact at_root.symm.trans root

theorem frees_restore_the_tree (positive : 0 < n) (reserved : ∀ i, base ≤ i → i < base + n → (s.pages i).reserved = true) :
    ∃ start, boot s base n = some start ∧
      ((∀ calls w, Run (fun w c w' => Smaller w c ∧ buddyPmmManager.request w c = some w') start calls w →
        Restores start w) ↔ n ≠ 2147483648) := by
  by_cases int : n = 2147483648
  · subst n
    obtain ⟨start, w, booted, run, first⟩ := @top_restores base 1 s 0 (by decide) (by decide) (by decide) (by decide)
      (by decide) reserved
    obtain ⟨start', w', booted', run', second⟩ := @top_restores base 2 s 1 (by decide) (by decide) (by decide) (by decide)
      (by decide) reserved
    obtain rfl := Option.some.inj (booted.symm.trans booted')
    refine ⟨start, booted, fun all => ?_, fun ne => absurd rfl ne⟩
    have differ := (first (all _ w run)).symm.trans (second (all _ w' run'))
    cases differ
  · obtain ⟨start, booted, inv, empty⟩ := boot_settled positive reserved
    have int' : u32 (managedSize n) ≠ 2147483648 := fun top => int (managed_int positive top)
    exact ⟨start, booted, fun _ => int, fun _ calls w run => settled_restores inv empty (run_settled inv int' run) int'⟩

/- Eight managed pages and three live blocks. -/
theorem ten_pages_restored : ∃ start w, boot reservedPages 0 10 = some start ∧
    Run (fun w c w' => Smaller w c ∧ buddyPmmManager.request w c = some w') start
      [.alloc 2, .alloc 1, .alloc 2, .free ⟨6, 2⟩, .alloc 1] w ∧ w.live = [⟨7, 1⟩, ⟨2, 2⟩, ⟨5, 1⟩] ∧ Restores start w := by
  have answer : ((boot reservedPages 0 10).bind fun start => replay (buddyPmmManager.requestWhen Smaller) start
      [.alloc 2, .alloc 1, .alloc 2, .free ⟨6, 2⟩, .alloc 1]).map World.live = some [⟨7, 1⟩, ⟨2, 2⟩, ⟨5, 1⟩] := by
    decide +kernel
  obtain ⟨w, ran, live⟩ := Option.map_eq_some_iff.mp answer
  obtain ⟨start, booted, ran⟩ := Option.bind_eq_some_iff.mp ran
  have run := request_when_run ran
  obtain ⟨start', booted', restores⟩ := @frees_restore_the_tree 0 10 reservedPages (by decide) fun i _ _ => rfl
  obtain rfl : start = start' := by simpa [booted] using booted'
  exact ⟨start, w, booted, run, live, restores.mpr (by decide) _ w run⟩

/- 2^31 pages: a request for two that is given back leaves a root that was all zero otherwise. -/
theorem two_to_the_31_not_restored : ∃ start w, boot reservedPages 0 2147483648 = some start ∧
    Run (fun w c w' => Smaller w c ∧ buddyPmmManager.request w c = some w') start [.alloc 2] w ∧ ¬ Restores start w := by
  obtain ⟨start, w, booted, run, only⟩ := @top_restores 0 2 reservedPages 1 (by decide) (by decide) (by decide) (by decide)
    (by decide) fun _ _ _ => rfl
  refine ⟨start, w, booted, run, fun restores => ?_⟩
  have root : reservedPages.nodes 0 = ⟨1, 1⟩ := only restores
  cases root

end Runs

section Reported
variable {base n : Nat} {s s' : State}

theorem alloc_total {r : Option Nat} (run : buddyAllocPages s n = some (r, s')) : s'.totalSize = s.totalSize := by
  by_cases zero : n = 0
  · unfold buddyAllocPages at run
    rw [if_pos zero] at run
    cases run
  · have positive : 0 < n := Nat.pos_of_ne_zero zero
    by_cases beyond : roundUp n > s.totalSize
    · rw [refused positive beyond] at run
      cases run
      rfl
    · obtain ⟨⟨blockSize, index, offset⟩, found⟩ : ∃ found,
          descend s.nodes (log2 (roundUp n) + 1) (log2 s.totalSize + 1) 0 0 = found := ⟨_, rfl⟩
      rw [searched positive beyond found] at run
      split at run
      · cases run
        rfl
      · cases run
        rfl

theorem free_total {page : Nat} (run : buddyFreePages s page n = some s') : s'.totalSize = s.totalSize := by
  unfold buddyFreePages at run
  split_ifs at run
  obtain ⟨pages, _, run⟩ := Option.bind_eq_some_iff.mp run
  obtain ⟨index, _, run⟩ := Option.bind_eq_some_iff.mp run
  cases run
  rfl

theorem request_total {w w' : World State} {c : Call} (done : buddyPmmManager.request w c = some w') :
    w'.state.totalSize = w.state.totalSize := by
  unfold PmmManager.request at done
  split_ifs at done
  cases c with
  | alloc n =>
    obtain ⟨⟨r, s⟩, run, rfl⟩ := Option.map_eq_some_iff.mp done
    cases r with
    | none => exact alloc_total run
    | some page => exact alloc_total run
  | free b =>
    obtain ⟨s, run, rfl⟩ := Option.map_eq_some_iff.mp done
    exact free_total run

/- The number reported is always the managed size. -/
theorem reported_when_nothing_is_live (positive : 0 < n)
    (reserved : ∀ i, base ≤ i → i < base + n → (s.pages i).reserved = true) :
    ∃ start, boot s base n = some start ∧ ∀ calls w,
      Run (fun w c w' => buddyPmmManager.request w c = some w') start calls w →
      (buddyTotalSizePages w.state + total (w.live.map given) = start.state.totalSize ↔ w.live = []) := by
  obtain ⟨start, booted, _⟩ := boot_inv positive reserved
  refine ⟨start, booted, fun calls w run => ?_⟩
  have kept : ∀ w c w', w.state.totalSize = start.state.totalSize → buddyPmmManager.request w c = some w' →
      w'.state.totalSize = start.state.totalSize := fun w c w' same done => (request_total done).trans same
  have same := run_invariant kept run rfl
  unfold buddyTotalSizePages
  constructor
  · intro balanced
    cases live : w.live with
    | nil => rfl
    | cons b rest =>
      rw [live, List.map_cons, total_cons] at balanced
      have positive : 0 < (given b).size := Nat.two_pow_pos _
      omega
  · intro empty
    rw [empty]
    exact same

theorem four_pages_reported : ∃ start w, boot reservedPages 0 4 = some start ∧
    Run (fun w c w' => buddyPmmManager.request w c = some w') start [.alloc 1, .free ⟨3, 1⟩] w ∧
    (buddyTotalSizePages w.state + total (w.live.map given) = start.state.totalSize ↔ w.live = []) := by
  have answer : ((boot reservedPages 0 4).bind fun start => replay buddyPmmManager.request start
      [.alloc 1, .free ⟨3, 1⟩]).map World.live = some [] := by decide +kernel
  obtain ⟨w, ran, live⟩ := Option.map_eq_some_iff.mp answer
  obtain ⟨start, booted, ran⟩ := Option.bind_eq_some_iff.mp ran
  obtain ⟨start', booted', reported⟩ := @reported_when_nothing_is_live 0 4 reservedPages (by decide) fun i _ _ => rfl
  obtain rfl : start = start' := by simpa [booted] using booted'
  exact ⟨start, w, booted, replay_run ran, reported _ w (replay_run ran)⟩

/- Four pages: one is allocated and four are reported. -/
theorem four_reported_of_three : ∃ start w, boot reservedPages 0 4 = some start ∧
    Run (fun w c w' => buddyPmmManager.request w c = some w') start [.alloc 1] w ∧
    start.state.totalSize = 4 ∧ total (w.live.map given) = 1 ∧ buddyTotalSizePages w.state = 4 := by
  have answer : ((boot reservedPages 0 4).bind fun start => (replay buddyPmmManager.request start [.alloc 1]).map fun w =>
      (start.state.totalSize, total (w.live.map given), buddyTotalSizePages w.state)) = some (4, 1, 4) := by
    decide +kernel
  obtain ⟨start, booted, ran⟩ := Option.bind_eq_some_iff.mp answer
  obtain ⟨w, ran, values⟩ := Option.map_eq_some_iff.mp ran
  have same := Prod.mk.inj values
  have same' := Prod.mk.inj same.2
  exact ⟨start, w, booted, replay_run ran, same.1, same'.1, same'.2⟩

end Reported

end Ucore.BuddyPmm
