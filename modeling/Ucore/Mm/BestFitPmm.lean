import Ucore.Mm.DefaultPmmComplete

/- lab2/kern/mm/best_fit_pmm.c. `struct Page`, the list and all but the scan are those of `default_pmm.c`: every loop
   takes `fuel` steps at most. -/
namespace Ucore.BestFitPmm
open CircularList Words DefaultPmm

/- The loop of `best_fit_alloc_pages`, with its `min_size` and its `q`. -/
def scanLoop (s : State) (n : Nat) : Nat → Entry → Nat → Option Nat → Option (Option Nat)
  | 0, _, _, _ => none
  | fuel + 1, le, minSize, q =>
      match s.links.next le with
      | .listHead => some q
      | .link p =>
          if n ≤ (s.pages p).property ∧ (s.pages p).property < minSize then
            scanLoop s n fuel (.link p) (s.pages p).property (some p)
          else scanLoop s n fuel (.link p) minSize q

/- What follows the scan. -/
def takePage (s : State) (n : Nat) : Option Nat → Option Nat × State
  | none => (none, s)
  | some page => (some page, takeBlock s page n)

def bestFitAllocPages (fuel : Nat) (s : State) (n : Nat) : Option (Option Nat × State) :=
  if n = 0 then none
  else if n > s.nrFree then some (none, s)
  else
    let minSize := u32 (s.nrFree + 1)
    (scanLoop s n fuel freeList minSize none).map (takePage s n)

def bestFitFreePages (fuel : Nat) (s : State) (base n : Nat) : Option State := defaultFreePages fuel s base n

/-- The free list is `xs`: ascending pages, each the first of a block inside the region, and no two blocks meet. -/
structure Listed (lo hi : Nat) (s : State) (xs : List Nat) : Prop where
  ring : IsRing s.links (fun _ => False) freeList (xs.map Entry.link)
  inside : ∀ i ∈ xs, 0 < (s.pages i).property ∧ lo ≤ i ∧ i + (s.pages i).property ≤ hi
  ordered : xs.Pairwise fun i j => i + (s.pages i).property ≤ j

/- The page is in a listed block. -/
def Covered (s : State) (xs : List Nat) (p : Nat) : Prop := ∃ i ∈ xs, i ≤ p ∧ p < i + (s.pages i).property

def sizes (s : State) (xs : List Nat) : Nat := (xs.map fun i => (s.pages i).property).sum

structure WellFormed (lo hi : Nat) (s : State) (xs : List Nat) : Prop extends Listed lo hi s xs where
  counted : s.nrFree = sizes s xs
  word : s.nrFree < wordSize

/- What is left of the block at `page`. -/
def remainder (s : State) (page n : Nat) : List Nat := if n < (s.pages page).property then [page + n] else []

/-- The block at `page` is the first of the smallest that suffice, and its pages leave the list. -/
structure Taken (lo hi : Nat) (s : State) (xs : List Nat) (n page : Nat) (s' : State) : Prop where
  enough : n ≤ (s.pages page).property
  best : ∀ j ∈ xs, n ≤ (s.pages j).property →
    (s.pages page).property < (s.pages j).property ∨ (s.pages page).property = (s.pages j).property ∧ page ≤ j
  list : ∃ pre post, xs = pre ++ page :: post ∧ WellFormed lo hi s' (pre ++ remainder s page n ++ post) ∧
    (∀ i ∈ pre ++ post, (s'.pages i).property = (s.pages i).property) ∧
    (∀ i ∈ remainder s page n, (s'.pages i).property = (s.pages page).property - n) ∧
    ∀ p, page ≤ p → p < page + n → ¬ Covered s' (pre ++ remainder s page n ++ post) p
  count : s'.nrFree + n = s.nrFree

/- What an answer owes. -/
def Answers (lo hi : Nat) (s : State) (xs : List Nat) (n : Nat) : Option Nat × State → Prop
  | (none, s') => s' = s ∧ ∀ i ∈ xs, (s.pages i).property < n
  | (some page, s') => Taken lo hi s xs n page s'

def BestFit (lo hi fuel : Nat) (s : State) (xs : List Nat) (n : Nat) : Prop :=
  ∃ r, bestFitAllocPages fuel s n = some r ∧ Answers lo hi s xs n r

section
variable {lo hi fuel n m page : Nat} {s : State} {xs pre post : List Nat} {le : Entry} {q : Option Nat}

theorem listed_sorted (listed : Listed lo hi s xs) : xs.Pairwise (· < ·) := by
  refine listed.ordered.imp_of_mem fun {i j} mi _ le => ?_
  have := (listed.inside i mi).1
  omega

/- What the scan of the blocks `post` makes of `q`, of size `m`. -/
def Best (s : State) (n m : Nat) (q : Option Nat) (post : List Nat) (r : Option Nat) : Prop :=
  (r = q ∧ ∀ j ∈ post, n ≤ (s.pages j).property → m ≤ (s.pages j).property) ∨
    ∃ p ∈ post, r = some p ∧ n ≤ (s.pages p).property ∧ (s.pages p).property < m ∧
      ∀ j ∈ post, n ≤ (s.pages j).property →
        (s.pages p).property < (s.pages j).property ∨ (s.pages p).property = (s.pages j).property ∧ p ≤ j

theorem scan_run (ring : IsRing s.links (fun _ => False) freeList ((pre ++ post).map Entry.link))
    (here : (freeList :: pre.map Entry.link).getLast? = some le) (sorted : post.Pairwise (· < ·))
    (enough : post.length < fuel) : ∃ r, scanLoop s n fuel le m q = some r ∧ Best s n m q post r := by
  induction post generalizing pre le fuel m q with
  | nil =>
    obtain ⟨fuel, rfl⟩ : ∃ k, fuel = k + 1 := ⟨fuel - 1, by omega⟩
    have closed : IsRing s.links (fun _ => False) freeList (pre.map Entry.link ++ []) := by simpa using ring
    have last : s.links.next le = .listHead := (ring_neighbours closed here rfl).1
    refine ⟨q, ?_, .inl ⟨rfl, fun j mem => absurd mem List.not_mem_nil⟩⟩
    unfold scanLoop
    rw [last]
  | cons x post ih =>
    obtain ⟨fuel, rfl⟩ : ∃ k, fuel = k + 1 := ⟨fuel - 1, by omega⟩
    obtain ⟨first, sorted⟩ := List.pairwise_cons.mp sorted
    have cut : IsRing s.links (fun _ => False) freeList (pre.map Entry.link ++ (.link x :: post.map Entry.link)) := by
      simpa using ring
    have next : s.links.next le = .link x := (ring_neighbours cut here rfl).1
    have moved : IsRing s.links (fun _ => False) freeList (((pre ++ [x]) ++ post).map Entry.link) := by simpa using ring
    have left : post.length < fuel := by
      rw [List.length_cons] at enough
      omega
    unfold scanLoop
    rw [next]
    dsimp only
    by_cases better : n ≤ (s.pages x).property ∧ (s.pages x).property < m
    · rw [if_pos better]
      obtain ⟨r, ran, best⟩ := @ih fuel (s.pages x).property (pre ++ [x]) (.link x) (some x) moved (map_link_last pre x) sorted
        left
      refine ⟨r, ran, .inr ?_⟩
      rcases best with ⟨rfl, least⟩ | ⟨p, mem, rfl, fits, smaller, least⟩
      · refine ⟨x, List.mem_cons_self, rfl, better.1, better.2, fun j mem long => ?_⟩
        rcases List.mem_cons.mp mem with rfl | mem
        · exact .inr ⟨rfl, Nat.le_refl _⟩
        · have := least j mem long
          have := first j mem
          omega
      · refine ⟨p, List.mem_cons_of_mem _ mem, rfl, fits, by omega, fun j mj long => ?_⟩
        rcases List.mem_cons.mp mj with rfl | mj
        · exact .inl smaller
        · exact least j mj long
    · rw [if_neg better]
      obtain ⟨r, ran, best⟩ := @ih fuel m (pre ++ [x]) (.link x) q moved (map_link_last pre x) sorted left
      refine ⟨r, ran, ?_⟩
      rcases best with ⟨rfl, least⟩ | ⟨p, mem, rfl, fits, smaller, least⟩
      · refine .inl ⟨rfl, fun j mj long => ?_⟩
        rcases List.mem_cons.mp mj with rfl | mj
        · omega
        · exact least j mj long
      · refine .inr ⟨p, List.mem_cons_of_mem _ mem, rfl, fits, smaller, fun j mj long => ?_⟩
        rcases List.mem_cons.mp mj with rfl | mj
        · omega
        · exact least j mj long

theorem size_le_total {i : Nat} (mem : i ∈ xs) : (s.pages i).property ≤ sizes s xs :=
  List.le_sum_of_mem (List.mem_map_of_mem mem)

theorem sizes_append : sizes s (pre ++ post) = sizes s pre + sizes s post := by
  unfold sizes
  rw [List.map_append, List.sum_append]

theorem sizes_cons : sizes s (page :: post) = (s.pages page).property + sizes s post := by
  unfold sizes
  rw [List.map_cons, List.sum_cons]

theorem sizes_congr {s' : State} (same : ∀ i ∈ xs, (s'.pages i).property = (s.pages i).property) : sizes s' xs = sizes s xs := by
  unfold sizes
  rw [List.map_congr_left same]

theorem take_nr_free : (takeBlock s page n).nrFree = u32 (s.nrFree - n) := by
  unfold takeBlock
  dsimp only
  split_ifs <;> rfl

/- The block that is taken has exactly the requested size. -/
theorem take_whole_list (listed : Listed lo hi s (pre ++ page :: post)) (exactly : (s.pages page).property = n) :
    Listed lo hi (takeBlock s page n) (pre ++ post) := by
  have mem : page ∈ pre ++ page :: post := List.mem_append_right _ List.mem_cons_self
  have same := take_whole_property exactly
  have ring : IsRing s.links (fun _ => False) freeList (pre.map Entry.link ++ .link page :: post.map Entry.link) := by
    simpa using listed.ring
  refine ⟨?_, fun i mi => ?_, ?_⟩
  · rw [take_whole_links exactly, List.map_append]
    exact list_del_ring ring (exact_straight listed.ring mem)
  · rw [same]
    exact listed.inside i (mem_middle.mpr (.inr mi))
  · simp only [same]
    exact listed.ordered.sublist (List.Sublist.append (List.Sublist.refl _) (List.sublist_cons_self _ _))

/- The block that is taken is longer: its end goes back on the list in its place. -/
theorem take_part_list (listed : Listed lo hi s (pre ++ page :: post)) (positive : 0 < n)
    (longer : n < (s.pages page).property) (small : (s.pages page).property < wordSize) :
    Listed lo hi (takeBlock s page n) (pre ++ (page + n) :: post) := by
  have mem : page ∈ pre ++ page :: post := List.mem_append_right _ List.mem_cons_self
  have same := take_part_property positive longer small
  have ring : IsRing s.links (fun _ => False) freeList (pre.map Entry.link ++ .link page :: post.map Entry.link) := by
    simpa using listed.ring
  have straight := exact_straight listed.ring mem
  obtain ⟨left, right, cross⟩ := List.pairwise_append.mp listed.ordered
  obtain ⟨first, right⟩ := List.pairwise_cons.mp right
  have here := listed.inside page mem
  have below : ∀ i ∈ pre, i + (s.pages i).property ≤ page := fun i mi => cross i mi page List.mem_cons_self
  have positive' : ∀ i ∈ pre ++ post, 0 < (s.pages i).property ∧ lo ≤ i ∧ i + (s.pages i).property ≤ hi := by
    intro i mi
    exact listed.inside i (mem_middle.mpr (.inr mi))
  have other : ∀ i ∈ pre ++ post, i ≠ page + n := by
    intro i mi
    rcases List.mem_append.mp mi with low | high
    · have := below i low
      omega
    · have := first i high
      omega
  refine ⟨?_, fun i mi => ?_, ?_⟩
  · have fresh : Entry.link (page + n) ∉ freeList :: (pre.map Entry.link ++ post.map Entry.link) := by
      rw [← List.map_append]
      simpa [freeList] using fun mi => other _ mi rfl
    have := list_add_ring (list_del_ring ring straight) (prev_of_straight ring straight) fresh
    rw [take_part_links longer]
    simpa using this
  · rw [same]
    by_cases rest : i = page + n
    · rw [if_pos rest]
      omega
    · rw [if_neg rest]
      exact positive' i ((mem_middle.mp mi).resolve_left rest)
  · refine List.pairwise_append.mpr ⟨?_, List.pairwise_cons.mpr ⟨fun j mj => ?_, ?_⟩, fun i mi j mj => ?_⟩
    · refine left.imp_of_mem fun {i j} mi _ le => ?_
      rwa [same, if_neg (other i (List.mem_append_left _ mi))]
    · rw [same, if_pos rfl]
      have := first j mj
      omega
    · refine right.imp_of_mem fun {i j} mi _ le => ?_
      rwa [same, if_neg (other i (List.mem_append_right _ mi))]
    · rw [same, if_neg (other i (List.mem_append_left _ mi))]
      have := below i mi
      rcases List.mem_cons.mp mj with rfl | mj
      · omega
      · have := first j mj
        omega

theorem take_taken (well : WellFormed lo hi s (pre ++ page :: post)) (positive : 0 < n) (enough : n ≤ (s.pages page).property)
    (best : ∀ j ∈ pre ++ page :: post, n ≤ (s.pages j).property →
      (s.pages page).property < (s.pages j).property ∨ (s.pages page).property = (s.pages j).property ∧ page ≤ j) :
    Taken lo hi s (pre ++ page :: post) n page (takeBlock s page n) := by
  have mem : page ∈ pre ++ page :: post := List.mem_append_right _ List.mem_cons_self
  have total := well.counted
  rw [sizes_append, sizes_cons] at total
  have word := well.word
  have count : (takeBlock s page n).nrFree = s.nrFree - n := by
    rw [take_nr_free, @u32_exact _ (s.nrFree - n) (by omega) (by omega)]
  obtain ⟨_, right, cross⟩ := List.pairwise_append.mp well.ordered
  obtain ⟨first, _⟩ := List.pairwise_cons.mp right
  have here := well.inside page mem
  have below : ∀ i ∈ pre, i + (s.pages i).property ≤ page := fun i mi => cross i mi page List.mem_cons_self
  refine ⟨enough, best, ⟨pre, post, rfl, ?_⟩, by omega⟩
  unfold remainder
  by_cases longer : n < (s.pages page).property
  · rw [if_pos longer]
    have same := take_part_property positive longer (by omega : (s.pages page).property < wordSize)
    have other : ∀ i ∈ pre ++ post, i ≠ page + n := by
      intro i mi
      rcases List.mem_append.mp mi with low | high
      · have := below i low
        have := (well.inside i (List.mem_append_left _ low)).1
        omega
      · have := first i high
        omega
    have old : ∀ i ∈ pre ++ post, ((takeBlock s page n).pages i).property = (s.pages i).property := fun i mi => by
      rw [same, if_neg (other i mi)]
    have listed := take_part_list well.toListed positive longer (by omega)
    have shape : pre ++ [page + n] ++ post = pre ++ (page + n) :: post := by simp
    rw [shape]
    refine ⟨⟨listed, ?_, by omega⟩, old, fun i mi => ?_, fun p low high => ?_⟩
    · rw [sizes_append, sizes_cons, sizes_congr fun i mi => old i (List.mem_append_left _ mi),
        sizes_congr fun i mi => old i (List.mem_append_right _ mi), same, if_pos rfl]
      omega
    · rw [List.mem_singleton.mp mi, same, if_pos rfl]
    · rintro ⟨i, mi, from_i, to_i⟩
      rcases List.mem_append.mp mi with mi | mi
      · rw [old i (List.mem_append_left _ mi)] at to_i
        have := below i mi
        omega
      · rcases List.mem_cons.mp mi with rfl | mi
        · omega
        · have := first i mi
          omega
  · rw [if_neg longer, List.append_nil]
    have exactly : (s.pages page).property = n := by omega
    have same := take_whole_property exactly
    refine ⟨⟨take_whole_list well.toListed exactly, ?_, by omega⟩, fun i _ => same i,
      fun i mi => absurd mi List.not_mem_nil, fun p low high => ?_⟩
    · rw [sizes_congr fun i _ => same i, sizes_append]
      omega
    · rintro ⟨i, mi, from_i, to_i⟩
      rw [same] at to_i
      rcases List.mem_append.mp mi with mi | mi
      · have := below i mi
        omega
      · have := first i mi
        omega

/- The best block is found, unless the sum of all sizes is the last word. -/
theorem best_fit_exactly_when (well : WellFormed lo hi s xs) (positive : 0 < n) (enough : xs.length < fuel) :
    BestFit lo hi fuel s xs n ↔ s.nrFree + 1 < wordSize ∨ ∀ i ∈ xs, (s.pages i).property < n := by
  have word := well.word
  have below : ∀ i ∈ xs, (s.pages i).property ≤ s.nrFree := fun i mem => well.counted ▸ size_le_total mem
  by_cases scarce : n > s.nrFree
  · have short : ∀ i ∈ xs, (s.pages i).property < n := fun i mem => Nat.lt_of_le_of_lt (below i mem) scarce
    refine iff_of_true ⟨(none, s), ?_, rfl, short⟩ (.inr short)
    unfold bestFitAllocPages
    rw [if_neg (by omega), if_pos scarce]
  have walk : IsRing s.links (fun _ => False) freeList (([] ++ xs).map Entry.link) := well.ring
  obtain ⟨r, ran, best⟩ := @scan_run fuel n (u32 (s.nrFree + 1)) s [] xs freeList none walk rfl
    (listed_sorted well.toListed) enough
  have answer : bestFitAllocPages fuel s n = some (takePage s n r) := by
    unfold bestFitAllocPages
    rw [if_neg (by omega), if_neg scarce]
    dsimp only
    rw [ran]
    rfl
  by_cases fits : s.nrFree + 1 < wordSize
  · refine iff_of_true ⟨_, answer, ?_⟩ (.inl fits)
    rw [@u32_exact _ (s.nrFree + 1) (by omega) fits] at best
    rcases best with ⟨rfl, least⟩ | ⟨page, mem, rfl, long, _, least⟩
    · refine ⟨rfl, fun i mem => ?_⟩
      have := below i mem
      by_contra long
      have := least i mem (by omega)
      omega
    · obtain ⟨pre, post, rfl⟩ := List.append_of_mem mem
      exact take_taken well positive long least
  · -- `min_size` is 0
    have zero : u32 (s.nrFree + 1) = 0 := by
      unfold wordSize at word fits
      unfold u32
      omega
    rw [zero] at best
    rcases best with ⟨rfl, _⟩ | ⟨page, mem, _, _, smaller, _⟩
    · refine ⟨fun ⟨r, same, owed⟩ => .inr ?_, fun some_way => ⟨_, answer, rfl, some_way.resolve_left fits⟩⟩
      obtain rfl := Option.some.inj (answer.symm.trans same)
      exact owed.2
    · exact absurd smaller (Nat.not_lt_zero _)

end

/- Blocks of `a` pages at 0 and of `b` pages behind them. -/
def twoBlocks (a b : Nat) : State where
  pages i := ⟨0, false, if i = 0 then a else if i = a + 1 then b else 0, i = 0 ∨ i = a + 1⟩
  links := {
    next := fun e => if e = freeList then .link 0 else if e = .link 0 then .link (a + 1) else freeList
    prev := fun e => if e = freeList then .link (a + 1) else if e = .link 0 then freeList else .link 0 }
  nrFree := a + b

/- One block of all pages. -/
def oneBlock (size : Nat) : State where
  pages i := ⟨0, false, if i = 0 then size else 0, i = 0⟩
  links := ⟨fun e => if e = freeList then .link 0 else freeList, fun e => if e = freeList then .link 0 else freeList⟩
  nrFree := size

/- The second block is the shorter one, and it is taken. -/
theorem shorter_block_taken : ∃ s', bestFitAllocPages 5 (twoBlocks 3 2) 2 = some (some 4, s') ∧
    Taken 0 6 (twoBlocks 3 2) [0, 4] 2 4 s' := by
  have well : WellFormed 0 6 (twoBlocks 3 2) [0, 4] := by
    refine ⟨⟨⟨by decide, ?_⟩, by decide, by decide⟩, rfl, by decide⟩
    simp [Adjacent, twoBlocks, freeList]
  obtain ⟨r, ran, owed⟩ := (@best_fit_exactly_when 0 6 5 2 (twoBlocks 3 2) [0, 4] well (by decide) (by decide)).mpr (.inl (by decide))
  obtain rfl : (some 4, takeBlock (twoBlocks 3 2) 4 2) = r := Option.some.inj ran
  exact ⟨_, ran, owed⟩

/- All of 2^32 - 1 pages are free, and none is given. -/
theorem full_block_refused : WellFormed 0 4294967295 (oneBlock 4294967295) [0] ∧
    ¬ BestFit 0 4294967295 5 (oneBlock 4294967295) [0] 1 := by
  have well : WellFormed 0 4294967295 (oneBlock 4294967295) [0] := by
    refine ⟨⟨⟨by decide, ?_⟩, by decide, by decide⟩, rfl, by decide⟩
    simp [Adjacent, oneBlock, freeList]
  refine ⟨well, ?_⟩
  rintro ⟨r, ran, owed⟩
  obtain rfl : (none, oneBlock 4294967295) = r := Option.some.inj ran
  exact absurd (owed.2 0 List.mem_cons_self) (by decide)

end Ucore.BestFitPmm
