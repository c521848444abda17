import Ucore.Mm.BestFitPmm

/- What `best_fit_free_pages` leaves: in front of a listed block, or in an empty list, the freed block goes in and is merged
   with its neighbours; behind the last block it is linked to itself. -/
namespace Ucore.BestFitPmm
open CircularList Words DefaultPmm Blocks

/-- The blocks neither meet nor touch, and their first pages are the ones marked. -/
structure Coalesced (lo hi : Nat) (s : State) (xs : List Nat) : Prop extends Listed lo hi s xs where
  gaps : xs.Pairwise fun i j => i + (s.pages i).property < j
  flags : ∀ i, lo ≤ i → i < hi → ((s.pages i).pageProperty = true ↔ i ∈ xs)
  words : ∀ i, (s.pages i).property < wordSize

/-- A block of the region that is not on the list. -/
structure Allocated (lo hi : Nat) (s : State) (xs : List Nat) (b : Block) : Prop where
  positive : 0 < b.size
  within : b.Within lo hi
  apart : ∀ i ∈ xs, (freeBlock s i).Apart b
  clear : ∀ i, b.Contains i → (s.pages i).reserved = false

/- The pages that are free afterwards. -/
def FreeAfter (s : State) (xs : List Nat) (b : Block) (p : Nat) : Prop := Covered s xs p ∨ b.Contains p

def FreesRight (lo hi fuel : Nat) (s : State) (xs : List Nat) (b : Block) : Prop :=
  ∃ s' ys, bestFitFreePages fuel s b.base b.size = some s' ∧ Coalesced lo hi s' ys ∧
    ∀ p, Covered s' ys p ↔ FreeAfter s xs b p

/- The list is empty, or a listed block is behind the freed one. -/
def InFront (xs : List Nat) (base : Nat) : Prop := xs = [] ∨ ∃ i ∈ xs, base < i

/- Every run of pages that are free is shorter than 2^32. -/
def ShortRuns (free : Nat → Prop) : Prop := ∀ a k, (∀ p, a ≤ p → p < a + k → free p) → k < wordSize

/-- Around `base` the list may not be merged yet. -/
structure Unmerged (lo hi : Nat) (free : Nat → Prop) (s : State) (pre : List Nat) (base : Nat) (post : List Nat) : Prop
    extends Listed lo hi s (pre ++ base :: post) where
  left : pre.Pairwise fun i j => i + (s.pages i).property < j
  right : post.Pairwise fun i j => i + (s.pages i).property < j
  flags : ∀ i, lo ≤ i → i < hi → ((s.pages i).pageProperty = true ↔ i ∈ pre ++ base :: post)
  words : ∀ i, (s.pages i).property < wordSize
  cover : ∀ p, Covered s (pre ++ base :: post) p ↔ free p

section Merge
variable {lo hi base p q : Nat} {free : Nat → Prop} {s : State} {xs pre post : List Nat}

/- The state in which `q` has gone into the block `p` in front of it. -/
def merged (s : State) (p q : Nat) : State :=
  { clearPageProperty (setProperty s p ((s.pages p).property + (s.pages q).property)) q with
    links := listDel s.links (.link q) }

theorem merged_page_property (ne : p ≠ q) (i : Nat) :
    ((merged s p q).pages i).pageProperty = if i = q then false else (s.pages i).pageProperty := by
  simp only [merged, clearPageProperty, setProperty, State.withPages, Pages.clearPageProperty, Pages.setProperty, Pages.edit]
  by_cases ip : i = p
  · subst i
    simp [ne]
  · by_cases iq : i = q
    · subst i
      simp
    · simp [ip, iq]

theorem listed_cut (listed : Listed lo hi s (pre ++ base :: post)) :
    (∀ i ∈ pre, i + (s.pages i).property ≤ base) ∧ ∀ j ∈ post, base + (s.pages base).property ≤ j := by
  obtain ⟨_, right, cross⟩ := List.pairwise_append.mp listed.ordered
  exact ⟨fun i mem => cross i mem base List.mem_cons_self, (List.pairwise_cons.mp right).1⟩

theorem merged_listed (listed : Listed lo hi s (pre ++ p :: q :: post)) (touch : p + (s.pages p).property = q)
    (small : (s.pages p).property + (s.pages q).property < wordSize) :
    Listed lo hi (merged s p q) (pre ++ p :: post) ∧
      (∀ i, ((merged s p q).pages i).property =
        if i = p then (s.pages p).property + (s.pages q).property else (s.pages i).property) ∧
      ∀ x, Covered (merged s p q) (pre ++ p :: post) x ↔ Covered s (pre ++ p :: q :: post) x := by
  have inP := listed.inside p (by simp)
  have inQ := listed.inside q (by simp)
  have same : ∀ i, ((merged s p q).pages i).property =
      if i = p then (s.pages p).property + (s.pages q).property else (s.pages i).property :=
    merge_property (by omega) (u32_exact (by omega) small)
  have split : pre ++ p :: q :: post = (pre ++ [p]) ++ q :: post := by simp
  obtain ⟨low, high⟩ := listed_cut listed
  have behind : ∀ j ∈ post, q + (s.pages q).property ≤ j := (listed_cut (split ▸ listed)).2
  have other : ∀ i ∈ pre ++ post, i ≠ p := by
    intro i mi
    rcases List.mem_append.mp mi with mi | mi
    · have := low i mi
      have := (listed.inside i (List.mem_append_left _ mi)).1
      omega
    · have := behind i mi
      omega
  refine ⟨⟨?_, fun i mi => ?_, ?_⟩, same, fun x => ?_⟩
  · have ring : IsRing s.links (fun _ => False) freeList ((pre ++ [p]).map Entry.link ++ .link q :: post.map Entry.link) := by
      simpa using listed.ring
    have := list_del_ring ring (exact_straight listed.ring (show q ∈ pre ++ p :: q :: post by simp))
    change IsRing (listDel s.links (.link q)) _ _ _
    simpa using this
  · rw [same]
    by_cases here : i = p
    · rw [if_pos here]
      omega
    · rw [if_neg here]
      refine listed.inside i ?_
      simp only [List.mem_append, List.mem_cons] at mi ⊢
      tauto
  · have ordered := listed.ordered
    obtain ⟨left, right, _⟩ := List.pairwise_append.mp ordered
    obtain ⟨_, right⟩ := List.pairwise_cons.mp right
    obtain ⟨_, right⟩ := List.pairwise_cons.mp right
    refine List.pairwise_append.mpr ⟨?_, List.pairwise_cons.mpr ⟨fun j mj => ?_, ?_⟩, fun i mi j mj => ?_⟩
    · refine left.imp_of_mem fun {i j} mi _ le => ?_
      rwa [same, if_neg (other i (List.mem_append_left _ mi))]
    · rw [same, if_pos rfl]
      have := behind j mj
      omega
    · refine right.imp_of_mem fun {i j} mi _ le => ?_
      rwa [same, if_neg (other i (List.mem_append_right _ mi))]
    · rw [same, if_neg (other i (List.mem_append_left _ mi))]
      have := low i mi
      rcases List.mem_cons.mp mj with rfl | mj
      · exact this
      · have := behind j mj
        omega
  · constructor
    · rintro ⟨i, mi, from_i, to_i⟩
      rw [same] at to_i
      by_cases here : i = p
      · rw [if_pos here] at to_i
        subst i
        by_cases inner : x < q
        · exact ⟨p, by simp, from_i, by omega⟩
        · exact ⟨q, by simp, by omega, by omega⟩
      · rw [if_neg here] at to_i
        refine ⟨i, ?_, from_i, to_i⟩
        simp only [List.mem_append, List.mem_cons] at mi ⊢
        tauto
    · rintro ⟨i, mi, from_i, to_i⟩
      by_cases here : i = p ∨ i = q
      · refine ⟨p, by simp, ?_, ?_⟩
        · rcases here with rfl | rfl <;> omega
        · rw [same, if_pos rfl]
          rcases here with rfl | rfl <;> omega
      · obtain ⟨notP, notQ⟩ := not_or.mp here
        refine ⟨i, ?_, from_i, ?_⟩
        · simp only [List.mem_append, List.mem_cons] at mi ⊢
          tauto
        · rwa [same, if_neg notP]

/- Both merges keep all but the gaps around the merged block. -/
theorem merged_unmerged (short : ShortRuns free) (listed : Listed lo hi s (pre ++ p :: q :: post))
    (left : pre.Pairwise fun i j => i + (s.pages i).property < j)
    (right : post.Pairwise fun i j => i + (s.pages i).property < j)
    (flags : ∀ i, lo ≤ i → i < hi → ((s.pages i).pageProperty = true ↔ i ∈ pre ++ p :: q :: post))
    (words : ∀ i, (s.pages i).property < wordSize) (cover : ∀ x, Covered s (pre ++ p :: q :: post) x ↔ free x)
    (touch : p + (s.pages p).property = q) : Unmerged lo hi free (merged s p q) pre p post ∧
      (∀ i, i ≠ p → ((merged s p q).pages i).property = (s.pages i).property) ∧
      ((merged s p q).pages p).property = (s.pages p).property + (s.pages q).property := by
  have inP := listed.inside p (by simp)
  have small : (s.pages p).property + (s.pages q).property < wordSize := by
    refine short p _ fun x low high => (cover x).mp ?_
    by_cases inner : x < q
    · exact ⟨p, by simp, low, by omega⟩
    · exact ⟨q, by simp, by omega, by omega⟩
  obtain ⟨listed', same, covered⟩ := merged_listed listed touch small
  have others : ∀ i, i ≠ p → ((merged s p q).pages i).property = (s.pages i).property := fun i ne => by
    rw [same, if_neg ne]
  obtain ⟨low, high⟩ := listed_cut listed'
  have grown : ((merged s p q).pages p).property = (s.pages p).property + (s.pages q).property := by rw [same, if_pos rfl]
  have sorted := listed_sorted listed
  have fresh : q ∉ pre ++ p :: post := by
    have nodup : (pre ++ [p] ++ q :: post).Nodup := by
      rw [List.append_assoc]
      exact sorted.imp Nat.ne_of_lt
    rw [List.nodup_middle, List.nodup_cons] at nodup
    simpa using nodup.1
  refine ⟨⟨listed', ?_, ?_, fun i from_lo to_hi => ?_, fun i => ?_, fun x => (covered x).trans (cover x)⟩, others, grown⟩
  · refine left.imp_of_mem fun {i j} mi _ gap => ?_
    have := low i mi
    have := (listed'.inside i (List.mem_append_left _ mi)).1
    rwa [others i (by omega)]
  · refine right.imp_of_mem fun {i j} mi _ gap => ?_
    have := high i mi
    rwa [others i (by omega)]
  · rw [merged_page_property (by omega)]
    by_cases here : i = q
    · rw [if_pos here, here]
      exact iff_of_false (by decide) fresh
    · rw [if_neg here, flags i from_lo to_hi]
      simp only [List.mem_append, List.mem_cons]
      tauto
  · rw [same]
    split_ifs
    · exact small
    · exact words i

theorem merge_prev_unmerged (short : ShortRuns free) (mid : Unmerged lo hi free s pre base post) :
    ∃ pre' p t, mergePrev s base = (p, t) ∧ Unmerged lo hi free t pre' p post ∧
      ∀ i ∈ pre', i + (t.pages i).property < p := by
  have back := exact_prev mid.ring
  obtain ⟨below, _⟩ := listed_cut mid.toListed
  rcases List.eq_nil_or_concat pre with rfl | ⟨front, p, rfl⟩
  · have first : s.links.prev (.link base) = .listHead := (Option.some.inj back).symm
    refine ⟨[], base, s, ?_, mid, fun i mem => absurd mem List.not_mem_nil⟩
    unfold mergePrev
    rw [first]
  · rw [List.concat_eq_append] at *
    have before : s.links.prev (.link base) = .link p := by
      rw [map_link_last] at back
      exact (Option.some.inj back).symm
    obtain ⟨left, _, near⟩ := List.pairwise_append.mp mid.left
    have near : ∀ i ∈ front, i + (s.pages i).property < p := fun i mi => near i mi p List.mem_cons_self
    by_cases touch : p + (s.pages p).property = base
    · have shape : front ++ [p] ++ base :: post = front ++ p :: base :: post := by simp
      obtain ⟨mid', others, _⟩ := merged_unmerged short (shape ▸ mid.toListed) left mid.right (shape ▸ mid.flags) mid.words
        (shape ▸ mid.cover) touch
      refine ⟨front, p, merged s p base, ?_, mid', fun i mi => ?_⟩
      · unfold mergePrev
        rw [before]
        dsimp only
        rw [if_pos touch]
        rfl
      · have := near i mi
        rwa [others i (by omega)]
    · refine ⟨front ++ [p], base, s, ?_, mid, fun i mi => ?_⟩
      · unfold mergePrev
        rw [before]
        dsimp only
        rw [if_neg touch]
      · have last := below p (List.mem_append_right _ (List.mem_singleton_self p))
        rcases List.mem_append.mp mi with mi | mi
        · have := near i mi
          omega
        · rw [List.mem_singleton.mp mi]
          omega

theorem merge_next_coalesced (short : ShortRuns free) (mid : Unmerged lo hi free s pre base post)
    (near : ∀ i ∈ pre, i + (s.pages i).property < base) :
    ∃ ys, Coalesced lo hi (mergeNext s base) ys ∧ ∀ x, Covered (mergeNext s base) ys x ↔ free x := by
  have cut : IsRing s.links (fun _ => False) freeList ((pre ++ [base]).map Entry.link ++ post.map Entry.link) := by
    simpa using mid.ring
  obtain ⟨below, above⟩ := listed_cut mid.toListed
  have inBase := mid.inside base (by simp)
  -- the gaps, once the block at `base` has them too
  have gaps : ∀ {t : State} {post : List Nat}, pre.Pairwise (fun i j => i + (t.pages i).property < j) →
      post.Pairwise (fun i j => i + (t.pages i).property < j) → (∀ i ∈ pre, i + (t.pages i).property < base) →
      (∀ j ∈ post, base + (t.pages base).property < j) →
      (pre ++ base :: post).Pairwise fun i j => i + (t.pages i).property < j := by
    intro t post left right low high
    refine List.pairwise_append.mpr ⟨left, List.pairwise_cons.mpr ⟨high, right⟩, fun i mi j mj => ?_⟩
    have := low i mi
    rcases List.mem_cons.mp mj with rfl | mj
    · exact this
    · have := high j mj
      omega
  cases post with
  | nil =>
    have last : s.links.next (.link base) = .listHead := (ring_neighbours cut (map_link_last pre base) rfl).1
    have same : mergeNext s base = s := by
      unfold mergeNext
      rw [last]
    rw [same]
    exact ⟨_, ⟨mid.toListed, gaps mid.left mid.right near fun j mj => absurd mj List.not_mem_nil, mid.flags, mid.words⟩, mid.cover⟩
  | cons q post =>
    have next : s.links.next (.link base) = .link q := (ring_neighbours cut (map_link_last pre base) rfl).1
    obtain ⟨behind, right⟩ := List.pairwise_cons.mp mid.right
    have meet := above q List.mem_cons_self
    unfold mergeNext
    rw [next]
    dsimp only
    by_cases touch : base + (s.pages base).property = q
    · obtain ⟨mid', others, grown⟩ := merged_unmerged short mid.toListed mid.left right mid.flags mid.words mid.cover touch
      rw [if_pos touch]
      refine ⟨pre ++ base :: post, ⟨mid'.toListed, gaps mid'.left mid'.right (fun i mi => ?_) fun j mj => ?_, mid'.flags,
        mid'.words⟩, mid'.cover⟩
      · change i + ((merged s base q).pages i).property < base
        have := near i mi
        rwa [others i (by omega)]
      · change base + ((merged s base q).pages base).property < j
        have := behind j mj
        omega
    · rw [if_neg touch]
      refine ⟨_, ⟨mid.toListed, gaps mid.left mid.right near fun j mj => ?_, mid.flags, mid.words⟩, mid.cover⟩
      rcases List.mem_cons.mp mj with rfl | mj
      · omega
      · have := behind j mj
        omega

end Merge

section Free
variable {lo hi fuel a k : Nat} {s : State} {xs ys pre post : List Nat} {b : Block}

theorem released_marked (i : Nat) : ((released s b).pages i).pageProperty = true ↔
    i = b.base ∨ (s.pages i).pageProperty = true ∧ ¬ b.Contains i := by
  simp only [released, setPageProperty, setProperty, State.withPages, Pages.setPageProperty, Pages.setProperty, Pages.edit]
  by_cases here : i = b.base
  · subst i
    simp
  · simp only [Function.update, here, ↓reduceDIte, false_or]
    unfold releasedPages
    by_cases cell : b.Contains i
    · rw [if_pos (show b.base ≤ i ∧ i < b.base + b.size from cell)]
      simp [cell]
    · rw [if_neg (show ¬ (b.base ≤ i ∧ i < b.base + b.size) from cell)]
      simp [cell]

theorem allocated_clear (co : Coalesced lo hi s xs) (alloc : Allocated lo hi s xs b) (i : Nat) (low : b.base ≤ i)
    (high : i < b.base + b.size) : (s.pages i).reserved = false ∧ (s.pages i).pageProperty = false := by
  refine ⟨alloc.clear i ⟨low, high⟩, ?_⟩
  obtain ⟨from_lo, to_hi⟩ := alloc.within
  unfold Block.stop at to_hi
  rw [Bool.eq_false_iff]
  intro marked
  have mem := (co.flags i (by omega) (by omega)).mp marked
  have apart := alloc.apart i mem
  have := (co.inside i mem).1
  simp only [Block.Apart, freeBlock, Block.stop] at apart
  omega

theorem base_fresh (co : Coalesced lo hi s xs) (alloc : Allocated lo hi s xs b) : b.base ∉ xs := by
  intro mem
  have apart := alloc.apart _ mem
  have := (co.inside _ mem).1
  have := alloc.positive
  simp only [Block.Apart, freeBlock, Block.stop] at apart
  omega

/- The call, from the insertion on. -/
theorem free_pages_run (co : Coalesced lo hi s xs) (alloc : Allocated lo hi s xs b) :
    bestFitFreePages fuel s b.base b.size = (insertPage fuel (released s b) b.base).bind fun t =>
      some (mergeNext (mergePrev t b.base).2 (mergePrev t b.base).1) := by
  have cleared := release_pages_run (allocated_clear co alloc)
  have nonzero : b.size ≠ 0 := Nat.pos_iff_ne_zero.mp alloc.positive
  simp only [bestFitFreePages, defaultFreePages, nonzero, ↓reduceIte, cleared, Option.bind_eq_bind, Option.bind_some]
  rfl

/- A run of free pages lies in one block. -/
theorem run_in_listed (co : Coalesced lo hi s xs) (positive : 0 < k) (free : ∀ x, a ≤ x → x < a + k → Covered s xs x) :
    ∃ i ∈ xs, i ≤ a ∧ a + k ≤ i + (s.pages i).property := by
  induction k with
  | zero => omega
  | succ k ih =>
    obtain ⟨j, mj, from_j, to_j⟩ := free (a + k) (by omega) (by omega)
    by_cases first : k = 0
    · exact ⟨j, mj, by omega, by omega⟩
    · obtain ⟨i, mi, from_i, to_i⟩ := ih (by omega) fun x low high => free x low (by omega)
      have symm : Std.Symm fun i j => i + (s.pages i).property < j ∨ j + (s.pages j).property < i := ⟨fun _ _ => Or.symm⟩
      have gaps : xs.Pairwise fun i j => i + (s.pages i).property < j ∨ j + (s.pages j).property < i := co.gaps.imp Or.inl
      by_cases same : i = j
      · exact ⟨j, mj, by omega, by omega⟩
      · have := gaps.forall mi mj same
        omega

theorem coalesced_short (co : Coalesced lo hi s xs) : ShortRuns (Covered s xs) := by
  intro a k free
  by_cases none_there : k = 0
  · rw [none_there]
    decide
  · obtain ⟨i, _, from_i, to_i⟩ := run_in_listed co (Nat.pos_of_ne_zero none_there) free
    have := co.words i
    omega

theorem freed_unmerged (co : Coalesced lo hi s (pre ++ post)) (alloc : Allocated lo hi s (pre ++ post) b)
    (below : ∀ j ∈ pre, j < b.base) (above : ∀ j ∈ post, b.base < j) (small : b.size < wordSize) {L : ListLinks}
    (ring : IsRing L (fun _ => False) freeList ((pre ++ b.base :: post).map Entry.link)) :
    Unmerged lo hi (FreeAfter s (pre ++ post) b) { released s b with links := L } pre b.base post := by
  have same := released_property s b small
  have fresh := base_fresh co alloc
  have other : ∀ i ∈ pre ++ post, ((released s b).pages i).property = (s.pages i).property := fun i mi => by
    rw [same, if_neg (show i ≠ b.base from fun here => fresh (here ▸ mi))]
  have self : ((released s b).pages b.base).property = b.size := by rw [same, if_pos rfl]
  obtain ⟨from_lo, to_hi⟩ := alloc.within
  have positive := alloc.positive
  have low : ∀ i ∈ pre, i + (s.pages i).property ≤ b.base := by
    intro i mi
    have apart := alloc.apart i (List.mem_append_left _ mi)
    have := below i mi
    simp only [Block.Apart, freeBlock, Block.stop] at apart
    omega
  have high : ∀ j ∈ post, b.base + b.size ≤ j := by
    intro j mj
    have apart := alloc.apart j (List.mem_append_right _ mj)
    have := above j mj
    simp only [Block.Apart, freeBlock, Block.stop] at apart
    omega
  obtain ⟨left, right, _⟩ := List.pairwise_append.mp co.gaps
  obtain ⟨left', right', _⟩ := List.pairwise_append.mp co.ordered
  refine ⟨⟨ring, fun i mi => ?_, ?_⟩, ?_, ?_, fun i from_i to_i => ?_, fun i => ?_, fun x => ?_⟩
  · change 0 < ((released s b).pages i).property ∧ lo ≤ i ∧ i + ((released s b).pages i).property ≤ hi
    rcases mem_middle.mp mi with rfl | mi
    · rw [self]
      exact ⟨positive, from_lo, to_hi⟩
    · rw [other i mi]
      exact co.inside i mi
  · change (pre ++ b.base :: post).Pairwise fun i j => i + ((released s b).pages i).property ≤ j
    refine List.pairwise_append.mpr ⟨?_, List.pairwise_cons.mpr ⟨fun j mj => ?_, ?_⟩, fun i mi j mj => ?_⟩
    · refine left'.imp_of_mem fun {i j} mi _ le => ?_
      rwa [other i (List.mem_append_left _ mi)]
    · rw [self]
      exact high j mj
    · refine right'.imp_of_mem fun {i j} mi _ le => ?_
      rwa [other i (List.mem_append_right _ mi)]
    · rw [other i (List.mem_append_left _ mi)]
      have := low i mi
      rcases List.mem_cons.mp mj with rfl | mj
      · exact this
      · have := high j mj
        omega
  · refine left.imp_of_mem fun {i j} mi _ gap => ?_
    change i + ((released s b).pages i).property < j
    rwa [other i (List.mem_append_left _ mi)]
  · refine right.imp_of_mem fun {i j} mi _ gap => ?_
    change i + ((released s b).pages i).property < j
    rwa [other i (List.mem_append_right _ mi)]
  · change ((released s b).pages i).pageProperty = true ↔ _
    rw [released_marked, co.flags i from_i to_i]
    constructor
    · rintro (here | ⟨mi, _⟩)
      · exact mem_middle.mpr (.inl here)
      · exact mem_middle.mpr (.inr mi)
    · intro mi
      refine (mem_middle.mp mi).imp id fun mi => ⟨mi, fun cell => ?_⟩
      have apart := alloc.apart i mi
      have := (co.inside i mi).1
      unfold Block.Contains at cell
      simp only [Block.Apart, freeBlock, Block.stop] at apart cell
      omega
  · change ((released s b).pages i).property < wordSize
    rw [same]
    split_ifs
    · exact small
    · exact co.words i
  · constructor
    · rintro ⟨i, mi, from_i, to_i⟩
      change x < i + ((released s b).pages i).property at to_i
      rcases mem_middle.mp mi with rfl | mi
      · rw [self] at to_i
        exact .inr ⟨from_i, to_i⟩
      · rw [other i mi] at to_i
        exact .inl ⟨i, mi, from_i, to_i⟩
    · rintro (⟨i, mi, from_i, to_i⟩ | ⟨from_b, to_b⟩)
      · refine ⟨i, mem_middle.mpr (.inr mi), from_i, ?_⟩
        change x < i + ((released s b).pages i).property
        rwa [other i mi]
      · refine ⟨b.base, by simp, from_b, ?_⟩
        change x < b.base + ((released s b).pages b.base).property
        rwa [self]

theorem frees_in_front (co : Coalesced lo hi s xs) (alloc : Allocated lo hi s xs b) (enough : xs.length + 2 < fuel)
    (front : InFront xs b.base) (short : ShortRuns (FreeAfter s xs b)) : FreesRight lo hi fuel s xs b := by
  have small : b.size < wordSize := short b.base _ fun x low high => .inr ⟨low, high⟩
  obtain ⟨pre, post, rfl, below, above⟩ := sorted_cut (listed_sorted co.toListed) (base_fresh co alloc)
  have last : post = [] → pre = [] := by
    rintro rfl
    rcases front with empty | ⟨i, mem, behind⟩
    · exact (List.append_eq_nil_iff.mp empty).1
    · rw [List.append_nil] at mem
      have := below i mem
      omega
  rw [List.length_append] at enough
  obtain ⟨L, inserted, ring⟩ := @insert_exact b.base fuel (released s b) pre post co.ring below above last (by omega)
  have mid := freed_unmerged co alloc below above small ring
  obtain ⟨pre', p, t, ran, mid', near⟩ := merge_prev_unmerged short mid
  obtain ⟨ys, done, cover⟩ := merge_next_coalesced short mid' near
  refine ⟨mergeNext t p, ys, ?_, done, cover⟩
  rw [free_pages_run co alloc, inserted, Option.bind_some, ran]

/- Behind the last block the freed one is inserted twice, and its backward link names itself. -/
theorem tail_links (co : Coalesced lo hi s xs) (alloc : Allocated lo hi s xs b) (enough : xs.length + 2 < fuel)
    (tail : ¬ InFront xs b.base) : ∃ L, insertPage fuel (released s b) b.base = some { released s b with links := L } ∧
      L.prev (.link b.base) = .link b.base ∧ L.next (.link b.base) = freeList ∧
      ∀ ys : List Nat, IsRing L (fun _ => False) freeList (ys.map Entry.link) → b.base ∈ ys := by
  obtain ⟨some_there, behind⟩ := not_or.mp tail
  have fresh := base_fresh co alloc
  have below : ∀ j ∈ xs, j < b.base := by
    intro j mem
    have : j ≠ b.base := fun same => fresh (same ▸ mem)
    by_contra high
    exact behind ⟨j, mem, by omega⟩
  obtain ⟨front, t, rfl⟩ : ∃ front t, xs = front ++ [t] := ⟨_, _, (List.dropLast_concat_getLast some_there).symm⟩
  have nonempty : listEmpty s.links freeList = false := by
    rw [Bool.eq_false_iff]
    intro empty
    have := (list_empty_iff co.ring).mp empty
    simp at this
  have walk : IsRing s.links (fun _ => False) freeList (([] ++ (front ++ [t])).map Entry.link) := co.ring
  have length : front.length + 2 < fuel := by
    rw [List.length_append] at enough
    omega
  have run := insert_loop_tail walk rfl below length
  have closed : IsRing s.links (fun _ => False) freeList ((front ++ [t]).map Entry.link ++ []) := by
    rw [List.append_nil]
    exact co.ring
  have freshLink : Entry.link b.base ∉ freeList :: ((front ++ [t]).map Entry.link ++ []) := by
    simpa [freeList] using fresh
  have inserted := list_add_ring closed (map_link_last front t) freshLink
  rw [tail_insert_links co.ring] at run
  obtain ⟨L, is_L⟩ : ∃ L, L = listAdd s.links (.link t) (.link b.base) := ⟨_, rfl⟩
  rw [← is_L] at run inserted
  refine ⟨{ L with prev := Function.update L.prev (.link b.base) (.link b.base) }, ?_, Function.update_self .., ?_,
    fun ys ring => ?_⟩
  · unfold insertPage
    rw [if_neg (by rw [show listEmpty (released s b).links freeList = false from nonempty]; decide),
      show insertLoop b.base fuel (released s b).links freeList = _ from run]
    rfl
  · have last : (freeList :: ((front ++ [t]).map Entry.link ++ [.link b.base])).getLast? = some (.link b.base) := by
      rw [← List.cons_append, List.getLast?_append]
      rfl
    have whole : IsRing L (fun _ => False) freeList
        (((front ++ [t]).map Entry.link ++ [.link b.base]) ++ []) := by
      rw [List.append_nil]
      exact inserted
    exact (ring_neighbours whole last rfl).1
  · -- the forward links are those of the list with the block at its end
    have forward : IsRing { L with prev := Function.update L.prev (.link b.base) (.link b.base) }
        (· ≠ freeList) freeList ((front ++ [t]).map Entry.link ++ [.link b.base]) :=
      self_link_ring (weaken_ring inserted) (by simp [freeList])
    obtain ⟨i, mem, same⟩ := List.mem_map.mp (ring_subset forward ring (List.mem_append_right _ (List.mem_singleton_self _)))
    obtain rfl := Entry.link.inj same
    exact mem

theorem tail_not_restored (co : Coalesced lo hi s xs) (alloc : Allocated lo hi s xs b) (enough : xs.length + 2 < fuel)
    (small : b.size < wordSize) (tail : ¬ InFront xs b.base) : ¬ FreesRight lo hi fuel s xs b := by
  rintro ⟨s', ys, ran, co', _⟩
  obtain ⟨L, inserted, self, last, listed⟩ := tail_links co alloc enough tail
  have positive := alloc.positive
  rw [free_pages_run co alloc, inserted, Option.bind_some] at ran
  have prev : mergePrev { released s b with links := L } b.base = (b.base, { released s b with links := L }) := by
    have size : ((released s b).pages b.base).property = b.size := by rw [released_property s b small, if_pos rfl]
    unfold mergePrev
    dsimp only
    rw [self]
    dsimp only
    rw [if_neg (by omega)]
  have next : mergeNext { released s b with links := L } b.base = { released s b with links := L } := by
    unfold mergeNext
    dsimp only
    rw [last]
    rfl
  rw [prev, next] at ran
  obtain rfl := Option.some.inj ran
  exact exact_straight co'.ring (listed ys co'.ring) self

/- The list is restored by a block that goes in front of another, or into an empty list. -/
theorem free_restores_exactly_when (co : Coalesced lo hi s xs) (alloc : Allocated lo hi s xs b)
    (enough : xs.length + 2 < fuel) :
    FreesRight lo hi fuel s xs b ↔ InFront xs b.base ∧ ShortRuns (FreeAfter s xs b) := by
  refine ⟨fun right => ?_, fun ⟨front, short⟩ => frees_in_front co alloc enough front short⟩
  have short : ShortRuns (FreeAfter s xs b) := by
    obtain ⟨s', ys, _, co', cover⟩ := right
    exact fun a k free => coalesced_short co' a k fun x low high => (cover x).mpr (free x low high)
  refine ⟨?_, short⟩
  by_contra tail
  exact tail_not_restored co alloc enough (short b.base _ fun x low high => .inr ⟨low, high⟩) tail right

end Free

/- Of eight pages the first three and the page 4 are free. -/
theorem three_and_one_coalesced : Coalesced 0 8 (twoBlocks 3 1) [0, 4] := by
  refine ⟨⟨⟨by decide, ?_⟩, by decide, by decide⟩, by decide, fun i _ _ => ?_, fun i => ?_⟩
  · simp [Adjacent, twoBlocks, freeList]
  · simp [twoBlocks]
  · simp only [twoBlocks]
    split_ifs <;> decide

/- Page 3 is freed between the two blocks, and one block is left. -/
theorem page_between_merged : FreesRight 0 8 5 (twoBlocks 3 1) [0, 4] ⟨3, 1⟩ := by
  refine (free_restores_exactly_when three_and_one_coalesced ⟨by decide, by decide, by decide, fun _ _ => rfl⟩
    (by decide)).mpr ⟨.inr ⟨4, by decide, by decide⟩, fun a k free => ?_⟩
  by_contra long
  unfold wordSize at long
  rcases free (a + 8) (by omega) (by omega) with ⟨i, mi, low, high⟩ | ⟨low, high⟩
  · have small : i + ((twoBlocks 3 1).pages i).property ≤ 8 := (three_and_one_coalesced.inside i mi).2.2
    omega
  · change a + 8 < 3 + 1 at high
    omega

/- Page 6 is freed behind the last block. -/
theorem page_behind_not_restored : Coalesced 0 8 (twoBlocks 3 1) [0, 4] ∧ Allocated 0 8 (twoBlocks 3 1) [0, 4] ⟨6, 1⟩ ∧
    ¬ FreesRight 0 8 5 (twoBlocks 3 1) [0, 4] ⟨6, 1⟩ := by
  have alloc : Allocated 0 8 (twoBlocks 3 1) [0, 4] ⟨6, 1⟩ := ⟨by decide, by decide, by decide, fun _ _ => rfl⟩
  refine ⟨three_and_one_coalesced, alloc, tail_not_restored three_and_one_coalesced alloc (by decide) (by decide) ?_⟩
  rintro (empty | ⟨i, mem, behind⟩)
  · cases empty
  · have : i = 0 ∨ i = 4 := by simpa using mem
    change 6 < i at behind
    omega

end Ucore.BestFitPmm
