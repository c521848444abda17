import Ucore.Mm.BuddyPmmRestore

/- How a request is rounded on its way through `unsigned` and `int`, and what block it gets then. -/
namespace Ucore.BuddyPmm
open Words Blocks BuddyTree Transitions

inductive Request where
  | alloc (n : Nat)
  | free (page n : Nat)

def Served (s : State) : Request → State → Prop
  | .alloc n, t => ∃ r, buddyAllocPages s n = some (r, t)
  | .free page n, t => buddyFreePages s page n = some t

/-- NULL, or the page of a block of at least `n` pages, and the size to which `buddy_free_pages` rounds `n` is that of the
block: its node is the one that was marked. -/
def Honours (s : State) (n : Nat) : Prop :=
  ∃ r t, buddyAllocPages s n = some (r, t) ∧ ∀ page, r = some page → n ≤ (t.pages page).property ∧
    (t.pages page).property = roundUp n ∧
    ∃ i, getIndex (page - s.binaryTreeRoot) (roundUp n) s.totalSize = some i ∧ t.nodes i = ⟨0, 0⟩

/- The requests that are rounded up, or refused because what they are rounded to is too large as well. -/
def RoundsUp (total n : Nat) : Prop :=
  (isPowerOf2 n = true ∨ n < 2 ^ 31 ∨ n % 2 ^ 32 < 2 ^ 31 ∧ total ≤ n % 2 ^ 32) ∧ (total = 2 ^ 31 → n = 1 ∨ 2 ^ 31 < n)

section
variable {s : State} {n total k m : Nat} {nodes : Nodes} {c : Context}

/- Rounded up, or too large for the region all the same. -/
theorem round_up_iff (positive : 0 < n) (size : total = 0 ∨ ∃ k ≤ 31, total = 2 ^ k) :
    total < roundUp n ∨ n ≤ roundUp n ↔ isPowerOf2 n = true ∨ n < 2 ^ 31 ∨ n % 2 ^ 32 < 2 ^ 31 ∧ total ≤ n % 2 ^ 32 := by
  by_cases power : isPowerOf2 n = true
  · have same : roundUp n = n := if_pos power
    exact iff_of_true (.inr (by omega)) (.inl power)
  by_cases small : n < 2 ^ 31
  · have top : rounded n ≤ 2 ^ 31 := Nat.pow_le_pow_right (by decide) (Nat.clog_le_of_le_pow (by omega))
    have := le_rounded n
    have exactly : roundUp n = rounded n := round_up_exact positive (by unfold wordSize; omega)
    exact iff_of_true (.inr (by omega)) (.inr (.inl small))
  have cut : roundUp n = fixsize (n % 2 ^ 32) := by
    unfold roundUp
    rw [if_neg power, u32_mod]
    rfl
  have beyond : n ≠ 2 ^ 31 := fun same => power (same ▸ by decide)
  have rest : (isPowerOf2 n = true ∨ n < 2 ^ 31 ∨ n % 2 ^ 32 < 2 ^ 31 ∧ total ≤ n % 2 ^ 32) ↔
      n % 2 ^ 32 < 2 ^ 31 ∧ total ≤ n % 2 ^ 32 :=
    ⟨fun some_way => (some_way.resolve_left power).resolve_left small, fun way => .inr (.inr way)⟩
  rw [rest]
  obtain ⟨low, is_low⟩ : ∃ low, low = n % 2 ^ 32 := ⟨_, rfl⟩
  have fits : low < wordSize := by
    unfold wordSize
    omega
  rw [cut, ← is_low]
  by_cases zero : low = 0
  · have one : fixsize low = 1 := by rw [zero]; decide
    rw [one]
    rcases size with none_there | ⟨k, _, value⟩
    · exact iff_of_true (.inl (by omega)) (by omega)
    · have := Nat.two_pow_pos k
      exact iff_of_false (by omega) (by omega)
  rw [fixsize_value (Nat.pos_of_ne_zero zero) fits]
  by_cases wraps : low < 2 ^ 31
  · have log : low.log2 < 31 := (Nat.log2_lt zero).mpr wraps
    have top : 2 ^ (low.log2 + 1) ≤ 2 ^ 31 := Nat.pow_le_pow_right (by decide) (by omega)
    have down : 2 ^ low.log2 ≤ low := Nat.log2_self_le zero
    have up : low < 2 ^ (low.log2 + 1) := Nat.lt_log2_self
    rw [u32_of_nat (by unfold wordSize; omega)]
    have same : total < 2 ^ (low.log2 + 1) ↔ total ≤ low := by
      rcases size with none_there | ⟨k, _, value⟩
      · omega
      · rw [value]
        refine ⟨fun below => ?_, fun _ => by omega⟩
        have order : k < low.log2 + 1 := (Nat.pow_lt_pow_iff_right (by decide)).mp below
        have : 2 ^ k ≤ 2 ^ low.log2 := Nat.pow_le_pow_right (by decide) (by omega)
        omega
    rw [same]
    omega
  · have log : low.log2 = 31 := by
      have := (Nat.le_log2 zero).mpr (show 2 ^ 31 ≤ low by omega)
      have := (Nat.log2_lt zero).mpr (show low < 2 ^ 32 from fits)
      omega
    have nothing : u32 ((2 ^ (low.log2 + 1) : Nat) : Int) = 0 := by rw [log]; decide
    rw [nothing]
    omega

/- Whatever the nodes are, the search ends at a node, with the offset of its block. -/
theorem descend_hole (larger : m ≤ k) : ∃ b c', descend nodes (m + 1) (k + 1) (holeIndex c) (holeOffset k c) =
    (b + 1, holeIndex c', holeOffset b c') ∧ b + c'.length = k + c.length ∧ m ≤ b := by
  induction k generalizing c with
  | zero =>
    obtain rfl : m = 0 := by omega
    exact ⟨0, c, by simp [descend], rfl, Nat.le_refl _⟩
  | succ k ih =>
    by_cases reached : m = k + 1
    · exact ⟨k + 1, c, by rw [descend, if_neg (by omega)], rfl, by omega⟩
    · rw [descend, if_pos (by omega)]
      split_ifs with right left
      · have half : 1 <<< (k + 1 - 1) = 2 ^ k := by
          rw [Nat.one_shiftLeft]
          rfl
        obtain ⟨b, c', run, length, least⟩ := @ih ((.right, .free) :: c) (by omega)
        refine ⟨b, c', ?_, by rw [List.length_cons] at length; omega, least⟩
        rw [right_leaf_eq, half]
        exact run
      · obtain ⟨b, c', run, length, least⟩ := @ih ((.left, .free) :: c) (by omega)
        refine ⟨b, c', ?_, by rw [List.length_cons] at length; omega, least⟩
        rw [left_leaf_eq]
        exact run
      · exact ⟨k + 1, c, rfl, rfl, by omega⟩

/- The way back up leaves the node that it starts from. -/
theorem ascend_alloc_at {fuel index maxn j : Nat} (below : index ≤ j) : ascendAlloc fuel nodes index maxn j = nodes j := by
  induction fuel generalizing nodes index maxn with
  | zero => rfl
  | succ fuel ih =>
    unfold ascendAlloc
    by_cases inner : index > 0
    · have smaller : parent index < index := by
        unfold parent
        rw [Nat.shiftRight_eq_div_pow]
        omega
      rw [if_pos inner]
      split_ifs
      · rw [ih (by omega), Function.update_of_ne (by omega)]
      · rw [ih (by omega), Function.update_of_ne (by omega)]
    · rw [if_neg inner]

/- The node that is marked. -/
theorem marked_node {index : Nat} : ascendAlloc index (Function.update nodes index ⟨0, 0⟩) index 0 index = ⟨0, 0⟩ := by
  rw [ascend_alloc_at (Nat.le_refl _), Function.update_self]

theorem set_property_self (pages : Pages) (i v : Nat) (fits : v < wordSize) : (pages.setProperty i v i).property = v := by
  unfold Pages.setProperty Pages.edit
  rw [Function.update_self]
  exact u32_of_nat fits

theorem refused_honours (positive : 0 < n) (beyond : s.totalSize < roundUp n) : Honours s n :=
  ⟨none, s, refused positive beyond, fun page here => by cases here⟩

/- A region whose size is an `int`. -/
theorem tree_honours (positive : 0 < n) (small : k ≤ 30) (size : s.totalSize = 2 ^ k) (enough : n ≤ roundUp n)
    (within : roundUp n ≤ s.totalSize) : Honours s n := by
  obtain ⟨m, power⟩ : ∃ m, roundUp n = 2 ^ m := (round_up_power positive).resolve_left (by omega)
  have le : m ≤ k := (Nat.pow_le_pow_iff_right (a := 2) (by decide)).mp (by omega)
  have logN : log2 (roundUp n) = m := by rw [power, log2_power (by omega)]
  have logT : log2 ((s.totalSize : Nat) : Int) = k := by rw [size, log2_power small]
  obtain ⟨b, c, run, length, least⟩ := @descend_hole k m s.nodes [] le
  have run : descend s.nodes (log2 (roundUp n) + 1) (log2 s.totalSize + 1) 0 0 = (b + 1, holeIndex c, holeOffset b c) := by
    rw [logN, logT]
    exact run
  have answer := searched positive (Nat.not_lt.mpr within) run
  by_cases missed : b + 1 > log2 (roundUp n) + 1
  · exact ⟨none, s, answer.trans (if_pos missed), fun page here => by cases here⟩
  · obtain rfl : b = m := by omega
    rw [if_neg missed] at answer
    have bound := power_lt_int (show b ≤ 30 by omega)
    have value : (1 <<< (b + 1 - 1) : Nat) = roundUp n := by
      rw [power, Nat.one_shiftLeft]
      rfl
    refine ⟨_, _, answer, fun page here => ?_⟩
    obtain rfl := Option.some.inj here
    have marked : ((s.pages.setProperty (s.binaryTreeRoot + holeOffset b c) ((1 <<< (b + 1 - 1) : Nat) : Int))
        (s.binaryTreeRoot + holeOffset b c)).property = roundUp n := by
      rw [value]
      exact set_property_self _ _ _ (by unfold wordSize; omega)
    refine ⟨marked ▸ enough, marked, holeIndex c, ?_, marked_node⟩
    have place : ((s.binaryTreeRoot + holeOffset b c : Nat) : Int) - s.binaryTreeRoot = (holeOffset b c : Nat) := by omega
    rw [place, power, size, ← show b + c.length = k by simpa using length]
    exact get_index_hole (by rw [show b + c.length = k by simpa using length]; exact small)

theorem rounded_up_honours (positive : 0 < n) (size : s.totalSize = 0 ∨ ∃ k ≤ 31, s.totalSize = 2 ^ k)
    (rounds : RoundsUp s.totalSize n) : Honours s n := by
  obtain ⟨up, top⟩ := rounds
  by_cases beyond : s.totalSize < roundUp n
  · exact refused_honours positive beyond
  have enough := ((round_up_iff positive size).mpr up).resolve_left beyond
  rcases size with none_there | ⟨k, small, size⟩
  · omega
  by_cases int : k ≤ 30
  · exact tree_honours positive int size enough (Nat.not_lt.mp beyond)
  · obtain rfl : k = 31 := by omega
    obtain rfl : n = 1 := (top size).resolve_right (by omega)
    have one : roundUp 1 = 1 := by decide
    refine ⟨_, _, flat_alloc positive (.inr size) (Nat.not_lt.mp beyond), fun page here => ?_⟩
    obtain rfl := Option.some.inj here
    have marked : ((s.pages.setProperty s.binaryTreeRoot 1) s.binaryTreeRoot).property = 1 :=
      set_property_self s.pages s.binaryTreeRoot 1 (by decide)
    refine ⟨Nat.le_of_eq marked.symm, marked.trans one.symm, 0, ?_, @Function.update_self Nat (fun _ => Node) _ 0 ⟨0, 0⟩ s.nodes⟩
    rw [Int.sub_self, one, size]
    decide

/- While all is free, a request that is not refused at once gets a page. -/
theorem free_tree_gives (positive : 0 < n) (small : k ≤ 30) (size : s.totalSize = 2 ^ k) (holds : Holds s.nodes 0 k .free)
    (within : roundUp n ≤ s.totalSize) : ∃ page t, buddyAllocPages s n = some (some page, t) := by
  obtain ⟨m, le, logN⟩ : ∃ m ≤ k, log2 (roundUp n) = m := by
    rcases round_up_power positive with zero | ⟨m, power⟩
    · exact ⟨0, Nat.zero_le _, by rw [zero]; decide⟩
    · have le : m ≤ k := (Nat.pow_le_pow_iff_right (a := 2) (by decide)).mp (by omega)
      exact ⟨m, le, by rw [power, log2_power (by omega)]⟩
  have logT : log2 ((s.totalSize : Nat) : Int) = k := by rw [size, log2_power small]
  obtain ⟨c, run, _⟩ := @descend_run s.nodes m k .free [] holds trivial le (by rw [value_free]; omega)
  have run : descend s.nodes (log2 (roundUp n) + 1) (log2 s.totalSize + 1) 0 0 = (m + 1, holeIndex c, holeOffset m c) := by
    rw [logN, logT]
    exact run
  exact ⟨_, _, (searched positive (Nat.not_lt.mpr within) run).trans (if_neg (by omega))⟩

theorem rounds_up_of_honours (positive : 0 < n)
    (size : (s.totalSize = 0 ∨ s.totalSize = 2 ^ 31) ∨ ∃ k ≤ 30, s.totalSize = 2 ^ k ∧ Holds s.nodes 0 k .free)
    (honours : Honours s n) : RoundsUp s.totalSize n := by
  have power : s.totalSize = 0 ∨ ∃ k ≤ 31, s.totalSize = 2 ^ k := by
    rcases size with (zero | top) | ⟨k, small, size, _⟩
    · exact .inl zero
    · exact .inr ⟨31, by decide, top⟩
    · exact .inr ⟨k, by omega, size⟩
  obtain ⟨r, t, ran, gives⟩ := honours
  refine ⟨(round_up_iff positive power).mp ?_, fun top => ?_⟩
  · by_contra neither
    obtain ⟨within, less⟩ := not_or.mp neither
    obtain ⟨page, t', given⟩ : ∃ page t', buddyAllocPages s n = some (some page, t') := by
      rcases size with flat | ⟨k, small, size, holds⟩
      · exact ⟨_, _, flat_alloc positive flat (Nat.not_lt.mp within)⟩
      · exact free_tree_gives positive small size holds (Nat.not_lt.mp within)
    obtain ⟨rfl, rfl⟩ := Prod.mk.inj (Option.some.inj (given.symm.trans ran))
    obtain ⟨enough, same, _⟩ := gives page rfl
    omega
  · by_contra neither
    obtain ⟨other, low⟩ := not_or.mp neither
    have fits : rounded n ≤ 2 ^ 31 := Nat.pow_le_pow_right (by decide) (Nat.clog_le_of_le_pow (by omega))
    have exactly : roundUp n = rounded n := round_up_exact positive (by unfold wordSize; omega)
    have given := flat_alloc positive (.inr top) (show roundUp n ≤ s.totalSize by omega)
    obtain ⟨rfl, rfl⟩ := Prod.mk.inj (Option.some.inj (given.symm.trans ran))
    have enough := (gives _ rfl).1
    rw [show ((s.pages.setProperty s.binaryTreeRoot 1) s.binaryTreeRoot).property = 1 from
      set_property_self s.pages s.binaryTreeRoot 1 (by decide)] at enough
    omega

theorem served_total {t : State} {c : Request} (served : Served s c t) : t.totalSize = s.totalSize := by
  cases c with
  | alloc n =>
    obtain ⟨r, run⟩ := served
    exact alloc_total run
  | free page n => exact free_total served

/- Which requests a region honours, whatever has been served before. -/
theorem requests_honoured_exactly_when {base size : Nat} (some_pages : 0 < size)
    (reserved : ∀ i, base ≤ i → i < base + size → (s.pages i).reserved = true) (positive : 0 < n) :
    ∃ start, buddyInitMemmap s base size = some start ∧
      ((∀ calls t, Run Served start calls t → Honours t n) ↔ RoundsUp start.totalSize n) := by
  obtain ⟨w, booted, sized, inv⟩ := boot_inv some_pages reserved
  obtain ⟨start, init, rfl⟩ := Option.map_eq_some_iff.mp booted
  change start.totalSize = _ at sized
  have shape : (start.totalSize = 0 ∨ start.totalSize = 2 ^ 31) ∨
      ∃ k ≤ 30, start.totalSize = 2 ^ k ∧ Holds start.nodes 0 k .free := by
    rcases inv with ⟨flat, _⟩ | ⟨order, small, t, inv⟩
    · rw [sized]
      exact .inl flat
    · have empty : blocks order 0 t = [] := by
        have shared := inv.shared.length_eq
        rw [List.map_nil, List.length_map, List.length_nil] at shared
        exact List.eq_nil_of_length_eq_zero shared.symm
      have free := proper_idle (holds_proper inv.holds) empty
      exact .inr ⟨order, small, inv.size, free ▸ inv.holds⟩
  refine ⟨start, init, fun all => rounds_up_of_honours positive shape (all [] start (.stop _)), fun rounds calls t run => ?_⟩
  have total : t.totalSize = start.totalSize :=
    @run_invariant State Request Served (fun t => t.totalSize = start.totalSize)
      (fun _ _ _ same served => (served_total served).trans same) _ _ _ run rfl
  refine rounded_up_honours positive ?_ (total ▸ rounds)
  rw [total]
  rcases shape with (zero | top) | ⟨k, small, size, _⟩
  · exact .inl zero
  · exact .inr ⟨31, by decide, top⟩
  · exact .inr ⟨k, by omega, size⟩

end

/- Ten pages, of which eight are managed: three of them are asked for. -/
theorem three_of_ten_honoured : ∃ start, buddyInitMemmap reservedPages 0 10 = some start ∧
    ∀ calls t, Run Served start calls t → Honours t 3 := by
  obtain ⟨start, init, honoured⟩ := @requests_honoured_exactly_when reservedPages 3 0 10 (by decide) (fun _ _ _ => rfl)
    (by decide)
  refine ⟨start, init, honoured.mpr ⟨.inr (.inl (by decide)), fun top => ?_⟩⟩
  have total : (buddyInitMemmap reservedPages 0 10).map State.totalSize = some 8 := by decide +kernel
  rw [init] at total
  have eight : start.totalSize = 8 := Option.some.inj total
  omega

/- A request for 2^31 + 1 pages gets the only page of the region. -/
theorem large_request_gets_one_page : ∃ start, buddyInitMemmap reservedPages 0 1 = some start ∧
    ¬ Honours start 2147483649 := by
  refine ⟨_, rfl, ?_⟩
  rintro ⟨r, t, ran, gives⟩
  have page : r = some 0 := (Prod.mk.inj (Option.some.inj ran)).1.symm
  have rounded := (gives 0 page).1.trans (Nat.le_of_eq (gives 0 page).2.1)
  exact absurd rounded (by decide)

end Ucore.BuddyPmm
