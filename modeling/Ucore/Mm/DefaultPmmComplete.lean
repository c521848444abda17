import Ucore.Mm.DefaultPmmSafety

/- The free list while every block is freed in front of a listed one or into an empty list: the backward links are
   right, neighbours are merged, and a request fails only where it must. -/
namespace Ucore.DefaultPmm
open CircularList Blocks Words Transitions

/-- Besides, every backward link names the predecessor, and no listed block meets another. -/
structure TightInv (lo size : Nat) (s : State) (xs : List Nat) (live : List Block) : Prop
    extends FreeInv lo size s xs live where
  exactly : IsRing s.links (fun _ => False) freeList (xs.map Entry.link)
  gaps : ∀ i ∈ xs, ∀ j ∈ xs, i + (s.pages i).property ≠ j

section Links
variable {L : ListLinks} {xs pre post : List Nat} {i : Nat}

theorem exact_prev (ring : IsRing L (fun _ => False) freeList ((pre ++ i :: post).map Entry.link)) :
    (freeList :: pre.map Entry.link).getLast? = some (L.prev (.link i)) := by
  have cut : IsRing L (fun _ => False) freeList (pre.map Entry.link ++ (i :: post).map Entry.link) := by
    rwa [← List.map_append]
  obtain ⟨a, before⟩ : ∃ a, (freeList :: pre.map Entry.link).getLast? = some a := by
    cases h : (freeList :: pre.map Entry.link).getLast? <;> simp_all
  rcases (ring_neighbours cut before (b := .link i) rfl).2 with back | ⟨loose, _⟩
  · rw [back]
    exact before
  · exact loose.elim

theorem exact_straight (ring : IsRing L (fun _ => False) freeList (xs.map Entry.link)) (mem : i ∈ xs) :
    L.prev (.link i) ≠ .link i := by
  obtain ⟨pre, post, rfl⟩ := List.append_of_mem mem
  intro self
  have before := exact_prev ring
  rw [self] at before
  have there : Entry.link i ∈ freeList :: pre.map Entry.link := List.mem_of_getLast? before
  have nodup := ring.nodup
  rw [List.map_append, ← List.cons_append] at nodup
  exact (List.nodup_append.mp nodup).2.2 _ there _ List.mem_cons_self rfl

end Links

section Alloc
variable {lo size n page fuel : Nat} {s : State} {xs pre post : List Nat} {live : List Block}

theorem take_tight (inv : TightInv lo size s (pre ++ page :: post) live) (positive : 0 < n)
    (enough : n ≤ (s.pages page).property) (fits : size < wordSize) :
    ∃ ys, TightInv lo size (takeBlock s page n) ys (⟨page, n⟩ :: live) := by
  have mem : page ∈ pre ++ page :: post := List.mem_append_right _ List.mem_cons_self
  have keep : ∀ {i}, i ∈ pre ++ post → i ∈ pre ++ page :: post := by
    intro i mi
    rcases List.mem_append.mp mi with mi | mi
    · exact List.mem_append_left _ mi
    · exact List.mem_append_right _ (List.mem_cons_of_mem _ mi)
  have straight := exact_straight inv.exactly mem
  have ring : IsRing s.links (fun _ => False) freeList (pre.map Entry.link ++ .link page :: post.map Entry.link) := by
    simpa using inv.exactly
  have deleted := list_del_ring ring straight
  by_cases longer : n < (s.pages page).property
  · have block := inv_block inv.toFreeInv mem
    have room := inv_property_le inv.toFreeInv mem
    have bound := inv_nrFree_le inv.toFreeInv
    have properties := take_part_property positive longer (by omega : (s.pages page).property < wordSize)
    have inv' := take_part_inv inv.toFreeInv positive longer straight fits
    have fresh : page + n ∉ pre ++ post := by
      intro mi
      have := inv_gap inv.toFreeInv mem (keep mi) (by omega)
      omega
    have fresh' : Entry.link (page + n) ∉ freeList :: (pre.map Entry.link ++ post.map Entry.link) := by
      rw [← List.map_append]
      simpa [freeList] using fresh
    refine ⟨_, inv', ?_, fun i mi j mj => ?_⟩
    · have := list_add_ring deleted (prev_of_straight ring straight) fresh'
      rw [take_part_links longer]
      simpa using this
    · -- The rest ends where the block ended, and nothing but the block met its front.
      rw [properties i]
      rcases mem_middle.mp mi with rfl | old
      · rw [if_pos rfl]
        rcases mem_middle.mp mj with rfl | old'
        · omega
        · have := inv.gaps page mem j (keep old')
          omega
      · rw [if_neg (show ¬ i = page + n from fun same => fresh (same ▸ old))]
        rcases mem_middle.mp mj with rfl | old'
        · intro meet
          by_cases low : i < page
          · have := inv_gap inv.toFreeInv (keep old) mem low
            omega
          · by_cases here : i = page
            · have nodup : (pre ++ page :: post).Nodup := inv.sorted.imp Nat.ne_of_lt
              rw [List.nodup_middle, List.nodup_cons] at nodup
              exact nodup.1 (here ▸ old)
            · have := inv_gap inv.toFreeInv mem (keep old) (by omega)
              have := (inv_block inv.toFreeInv (keep old)).1
              omega
        · exact inv.gaps i (keep old) j (keep old')
  · have exactly : (s.pages page).property = n := by omega
    refine ⟨_, take_whole_inv inv.toFreeInv exactly straight fits, ?_, fun i mi j mj => ?_⟩
    · rw [take_whole_links exactly]
      simpa using deleted
    · rw [take_whole_property exactly]
      exact inv.gaps i (keep mi) j (keep mj)

/- A request is refused where no listed block is long enough, or takes the first that is. -/
theorem alloc_tight (inv : TightInv lo size s xs live) (positive : 0 < n) (fits : size < wordSize)
    (enough : size + 2 < fuel) :
    (defaultAllocPages fuel s n = some (none, s) ∧ ∀ i ∈ xs, (s.pages i).property < n) ∨
      ∃ page ∈ xs, n ≤ (s.pages page).property ∧ (∀ j ∈ xs, n ≤ (s.pages j).property → page ≤ j) ∧
        defaultAllocPages fuel s n = some (some page, takeBlock s page n) ∧
        ∃ ys, TightInv lo size (takeBlock s page n) ys (⟨page, n⟩ :: live) := by
  have nonzero : n ≠ 0 := by omega
  by_cases scarce : n > s.nrFree
  · refine .inl ⟨by simp [defaultAllocPages, nonzero, scarce], fun i mem => ?_⟩
    have := inv_property_le inv.toFreeInv mem
    omega
  · have searched := search_fits inv.toFreeInv enough n
    cases found : xs.find? fun i => n ≤ (s.pages i).property with
    | none =>
      rw [found] at searched
      refine .inl ⟨by simp [defaultAllocPages, nonzero, scarce, searched], fun i mem => ?_⟩
      have := List.find?_eq_none.mp found i mem
      simpa using this
    | some page =>
      rw [found] at searched
      obtain ⟨fit, front, back, split, skipped⟩ := List.find?_eq_some_iff_append.mp found
      have fit : n ≤ (s.pages page).property := by simpa using fit
      have sorted := inv.sorted
      subst xs
      refine .inr ⟨page, List.mem_append_right _ List.mem_cons_self, fit, fun j mem long => ?_,
        by simp [defaultAllocPages, nonzero, scarce, searched], take_tight inv positive fit fits⟩
      rcases List.mem_append.mp mem with mem | mem
      · have short := skipped j mem
        simp only [Bool.not_eq_true', decide_eq_false_iff_not] at short
        omega
      · rcases List.mem_cons.mp mem with rfl | mem
        · exact Nat.le_refl _
        · exact Nat.le_of_lt ((List.pairwise_cons.mp (List.pairwise_append.mp sorted).2.1).1 j mem)

end Alloc

section Free
variable {lo size base fuel : Nat} {s : State} {xs pre post : List Nat} {live : List Block} {b : Block}

/- What follows the cut is above, what precedes it is below. -/
theorem cut_sorted (inv : FreeInv lo size s (pre ++ base :: post) live) :
    (∀ i ∈ pre, i < base) ∧ ∀ j ∈ post, base < j := by
  obtain ⟨_, right, cross⟩ := List.pairwise_append.mp inv.sorted
  exact ⟨fun i mem => cross i mem base List.mem_cons_self, fun j mem => (List.pairwise_cons.mp right).1 j mem⟩

/- Both merges: `q` goes into the block `p` in front of it. -/
theorem merge_exact {p q : Nat} (inv : FreeInv lo size s (pre ++ p :: q :: post) live)
    (exactly : IsRing s.links (fun _ => False) freeList ((pre ++ p :: q :: post).map Entry.link))
    (touch : p + (s.pages p).property = q) (fits : size < wordSize) :
    let t := { clearPageProperty (setProperty s p ((s.pages p).property + (s.pages q).property)) q with
      links := listDel s.links (.link q) }
    FreeInv lo size t (pre ++ p :: post) live ∧ IsRing t.links (fun _ => False) freeList ((pre ++ p :: post).map Entry.link) ∧
      ∀ i, (t.pages i).property = if i = p then (s.pages p).property + (s.pages q).property else (s.pages i).property := by
  intro t
  have mp : p ∈ pre ++ p :: q :: post := by simp
  have mq : q ∈ pre ++ p :: q :: post := by simp
  have positive := (inv_block inv mp).1
  have straight := exact_straight exactly mq
  refine ⟨merge_inv inv touch straight fits, ?_, merge_property (by omega) (merge_grown inv mp mq touch fits)⟩
  have ring : IsRing s.links (fun _ => False) freeList ((pre ++ [p]).map Entry.link ++ .link q :: post.map Entry.link) := by
    simpa using exactly
  have := list_del_ring ring straight
  simpa using this

theorem merge_prev_tight (inv : FreeInv lo size s (pre ++ base :: post) live)
    (exactly : IsRing s.links (fun _ => False) freeList ((pre ++ base :: post).map Entry.link))
    (others : ∀ i ∈ pre ++ post, ∀ j ∈ pre ++ post, i + (s.pages i).property ≠ j) (fits : size < wordSize) :
    ∃ pre' p t, mergePrev s base = (p, t) ∧ FreeInv lo size t (pre' ++ p :: post) live ∧
      IsRing t.links (fun _ => False) freeList ((pre' ++ p :: post).map Entry.link) ∧
      ∀ i ∈ pre' ++ post, ∀ j ∈ pre' ++ p :: post, i + (t.pages i).property ≠ j := by
  obtain ⟨below, above⟩ := cut_sorted inv
  have back := exact_prev exactly
  -- Where `base` stays as it is, only the block in front of it could meet it.
  have stay : (∀ i ∈ pre, i + (s.pages i).property ≠ base) →
      ∀ i ∈ pre ++ post, ∀ j ∈ pre ++ base :: post, i + (s.pages i).property ≠ j := by
    intro apart i mi j mj
    rcases List.mem_append.mp mj with mj | mj
    · exact others i mi j (List.mem_append_left _ mj)
    · rcases List.mem_cons.mp mj with rfl | mj
      · rcases List.mem_append.mp mi with mi | mi
        · exact apart i mi
        · have := above i mi
          omega
      · exact others i mi j (List.mem_append_right _ mj)
  rcases List.eq_nil_or_concat pre with empty | ⟨front, p, split⟩
  · subst pre
    have first : s.links.prev (.link base) = freeList := (Option.some.inj back).symm
    refine ⟨[], base, s, ?_, inv, exactly, stay fun i mem => absurd mem List.not_mem_nil⟩
    unfold mergePrev
    rw [first]
    rfl
  · rw [List.concat_eq_append] at split
    subst pre
    have before : s.links.prev (.link base) = .link p := by
      rw [map_link_last] at back
      exact (Option.some.inj back).symm
    by_cases touch : p + (s.pages p).property = base
    · have inv' : FreeInv lo size s (front ++ p :: base :: post) live := by simpa using inv
      have exactly' : IsRing s.links (fun _ => False) freeList ((front ++ p :: base :: post).map Entry.link) := by
        simpa using exactly
      obtain ⟨merged, ring, properties⟩ := merge_exact inv' exactly' touch fits
      refine ⟨front, p, _, ?_, merged, ring, fun i mi j mj => ?_⟩
      · unfold mergePrev
        rw [before]
        dsimp only
        rw [if_pos touch]
        rfl
      · have nodup : (front ++ p :: post).Nodup := merged.sorted.imp Nat.ne_of_lt
        rw [List.nodup_middle, List.nodup_cons] at nodup
        rw [properties, if_neg (show ¬ i = p from fun same => nodup.1 (same ▸ mi))]
        refine others i ?_ j ?_
        · simp only [List.mem_append, List.mem_cons, List.not_mem_nil, or_false] at mi ⊢
          tauto
        · simp only [List.mem_append, List.mem_cons, List.not_mem_nil, or_false] at mj ⊢
          tauto
    · refine ⟨front ++ [p], base, s, ?_, inv, exactly, stay fun i mem meet => ?_⟩
      · unfold mergePrev
        rw [before]
        dsimp only
        rw [if_neg touch]
      · rcases List.mem_append.mp mem with mem | mem
        · have low : i < p := by
            have sorted := (List.pairwise_append.mp inv.sorted).1
            exact (List.pairwise_append.mp sorted).2.2 i mem p List.mem_cons_self
          have gap := inv_gap inv (i := i) (j := p) (by simp [mem]) (by simp) low
          have := below p (by simp)
          omega
        · obtain rfl := List.mem_singleton.mp mem
          exact touch meet

theorem merge_next_tight (inv : FreeInv lo size s (pre ++ base :: post) live)
    (exactly : IsRing s.links (fun _ => False) freeList ((pre ++ base :: post).map Entry.link))
    (others : ∀ i ∈ pre ++ post, ∀ j ∈ pre ++ base :: post, i + (s.pages i).property ≠ j) (fits : size < wordSize) :
    ∃ ys, TightInv lo size (mergeNext s base) ys live := by
  obtain ⟨below, above⟩ := cut_sorted inv
  have cut : IsRing s.links (fun _ => False) freeList ((pre ++ [base]).map Entry.link ++ post.map Entry.link) := by
    simpa using exactly
  have mem : base ∈ pre ++ base :: post := by simp
  have positive := (inv_block inv mem).1
  cases post with
  | nil =>
    have last : s.links.next (.link base) = freeList := (ring_neighbours cut (map_link_last pre base) rfl).1
    have same : mergeNext s base = s := by
      unfold mergeNext
      rw [last]
      rfl
    rw [same]
    refine ⟨pre ++ [base], inv, exactly, fun i mi j mj => ?_⟩
    rcases List.mem_append.mp mi with mi | mi
    · exact others i (by simpa using mi) j mj
    · obtain rfl := List.mem_singleton.mp mi
      rcases List.mem_append.mp mj with mj | mj
      · have := below j mj
        omega
      · obtain rfl := List.mem_singleton.mp mj
        omega
  | cons q post =>
    have next : s.links.next (.link base) = .link q := (ring_neighbours cut (map_link_last pre base) rfl).1
    have mq : q ∈ pre ++ base :: q :: post := by simp
    have high := above q List.mem_cons_self
    unfold mergeNext
    rw [next]
    dsimp only
    by_cases touch : base + (s.pages base).property = q
    · obtain ⟨merged, ring, properties⟩ := merge_exact inv exactly touch fits
      rw [if_pos touch]
      refine ⟨pre ++ base :: post, merged, ring, fun i mi j mj => ?_⟩
      have old : j ∈ pre ++ base :: q :: post := by
        simp only [List.mem_append, List.mem_cons] at mj ⊢
        tauto
      rw [properties]
      by_cases here : i = base
      · rw [if_pos here, here, ← Nat.add_assoc, touch]
        exact others q (by simp) j old
      · rw [if_neg here]
        refine others i ?_ j old
        simp only [List.mem_append, List.mem_cons] at mi ⊢
        tauto
    · rw [if_neg touch]
      refine ⟨_, inv, exactly, fun i mi j mj => ?_⟩
      by_cases here : i = base
      · subst i
        rcases List.mem_append.mp mj with mj' | mj'
        · have := below j mj'
          omega
        · rcases List.mem_cons.mp mj' with rfl | mj'
          · omega
          · rcases List.mem_cons.mp mj' with rfl | mj'
            · exact touch
            · have gap := inv_gap inv mem mq high
              have after : q < j := (List.pairwise_cons.mp (List.pairwise_cons.mp
                (List.pairwise_append.mp inv.sorted).2.1).2).1 j mj'
              omega
      · refine others i ?_ j mj
        simp only [List.mem_append, List.mem_cons] at mi ⊢
        tauto

/- The insertion in front of a listed block, or into an empty list. -/
theorem insert_exact (ring : IsRing s.links (fun _ => False) freeList ((pre ++ post).map Entry.link))
    (below : ∀ j ∈ pre, j < base) (above : ∀ j ∈ post, base < j) (front : post = [] → pre = []) (enough : pre.length < fuel) :
    ∃ L, insertPage fuel s base = some { s with links := L } ∧
      IsRing L (fun _ => False) freeList ((pre ++ base :: post).map Entry.link) := by
  have fresh : Entry.link base ∉ freeList :: (pre.map Entry.link ++ post.map Entry.link) := by
    rw [← List.map_append]
    simp only [List.mem_cons, List.mem_map, List.mem_append, Entry.link.injEq, exists_eq_right, freeList, reduceCtorEq,
      false_or]
    rintro (mem | mem)
    · exact Nat.lt_irrefl _ (below base mem)
    · exact Nat.lt_irrefl _ (above base mem)
  cases post with
  | nil =>
    obtain rfl := front rfl
    have isEmpty : listEmpty s.links freeList = true := (list_empty_iff ring).mpr rfl
    refine ⟨listAdd s.links freeList (.link base), by simp [insertPage, isEmpty], ?_⟩
    have closed : IsRing s.links (fun _ => False) freeList ([] ++ []) := ring
    simpa using list_add_ring closed (a := freeList) rfl (by simp [freeList])
  | cons i post =>
    have split : IsRing s.links (fun _ => False) freeList (pre.map Entry.link ++ (.link i :: post.map Entry.link)) := by
      simpa using ring
    have nonempty : listEmpty s.links freeList = false := by
      cases h : listEmpty s.links freeList
      · rfl
      · have := (list_empty_iff ring).mp h
        simp at this
    have walk : IsRing s.links (fun _ => False) freeList (([] ++ (pre ++ i :: post)).map Entry.link) := by simpa using ring
    have here : (freeList :: ([] : List Nat).map Entry.link).getLast? = some freeList := rfl
    have run := insert_loop_before walk here below (above i List.mem_cons_self) enough
    refine ⟨listAddBefore s.links (.link i) (.link base), by simp [insertPage, nonempty, run], ?_⟩
    have straight := exact_straight ring (i := i) (by simp)
    have fresh' : Entry.link base ∉ freeList :: (pre.map Entry.link ++ (.link i :: post.map Entry.link)) := fresh
    have := list_add_before_ring split (b := .link i) rfl (fun self => absurd self straight) fresh'
    simpa using this

theorem weaken_ring {L : ListLinks} {entries : List Entry} (ring : IsRing L (fun _ => False) freeList entries) :
    IsRing L (· ≠ freeList) freeList entries :=
  ⟨ring.nodup, ring.chain.imp fun _ _ step => ⟨step.1, .inl (step.2.resolve_right fun loose => loose.1)⟩⟩

/- A block is freed in front of a listed one, or into an empty list. -/
theorem free_tight (inv : TightInv lo size s xs (b :: live)) (front : xs = [] ∨ ∃ i ∈ xs, b.base < i)
    (fits : size < wordSize) (enough : size + 2 < fuel) :
    ∃ s' ys, defaultFreePages fuel s b.base b.size = some s' ∧ TightInv lo size s' ys live := by
  have mb : b ∈ xs.map (freeBlock s) ++ b :: live := by simp
  have positive := inv.ledger.positive b mb
  have within := inv.ledger.within b mb
  have nonzero : b.size ≠ 0 := by omega
  have fresh : b.base ∉ xs := by
    intro mem
    have block := inv_block inv.toFreeInv mem
    have apart := inv_live_apart inv.toFreeInv mem (b := b) List.mem_cons_self
    simp only [Block.Apart, freeBlock, Block.stop] at apart
    omega
  have cleared := release_pages_run (p := b.base) (k := b.size) fun i low high =>
    live_cells_clear inv.toFreeInv ⟨low, high⟩
  obtain ⟨pre, post, split, below, above⟩ := sorted_cut inv.sorted fresh
  subst xs
  have length := free_length_lt inv.toFreeInv enough
  have last : post = [] → pre = [] := by
    rintro rfl
    rcases front with empty | ⟨i, mem, high⟩
    · exact (List.append_eq_nil_iff.mp empty).1
    · rw [List.append_nil] at mem
      have := below i mem
      omega
  obtain ⟨L, inserted, ring⟩ := insert_exact (s := released s b) inv.exactly below above last
    (by rw [List.length_append] at length; omega : pre.length < fuel)
  have counts := inv.shared
  rw [total_append, ← inv.counted, total_cons] at counts
  have properties := released_property s b (by omega)
  have inv' := released_inv inv.toFreeInv below above (weaken_ring ring) fits
  obtain ⟨pre', p, t, merged, inv'', ring', gaps⟩ := merge_prev_tight inv' ring (fun i mi j mj => by
    change i + ((released s b).pages i).property ≠ j
    rw [properties, if_neg (show ¬ i = b.base from fun same => fresh (same ▸ mi))]
    exact inv.gaps i mi j mj) fits
  obtain ⟨ys, tight⟩ := merge_next_tight inv'' ring' gaps fits
  refine ⟨mergeNext t p, ys, ?_, tight⟩
  have opened : defaultFreePages fuel s b.base b.size =
      (insertPage fuel (released s b) b.base).bind fun s =>
        some (mergeNext (mergePrev s b.base).2 (mergePrev s b.base).1) := by
    simp only [defaultFreePages, nonzero, ↓reduceIte, cleared, Option.bind_eq_bind, Option.bind_some]
    rfl
  rw [opened, inserted, Option.bind_some, merged]

end Free

/-- A page of the region that is in no live block. -/
def FreePage (lo size : Nat) (w : World State) (p : Nat) : Prop :=
  lo ≤ p ∧ p < lo + size ∧ ∀ b ∈ w.live, ¬ b.Contains p

/-- The list `xs` of the free blocks, and what requests make of it. -/
structure Complete (lo size fuel : Nat) (w : World State) (xs : List Nat) : Prop where
  links : IsRing w.state.links (fun _ => False) freeList (xs.map Entry.link)
  sorted : xs.Pairwise (· < ·)
  runs : ∀ i ∈ xs, 0 < (w.state.pages i).property ∧
    (∀ p, i ≤ p → p < i + (w.state.pages i).property → FreePage lo size w p) ∧
    ¬ FreePage lo size w (i + (w.state.pages i).property) ∧ ∀ p, p + 1 = i → ¬ FreePage lo size w p
  listed : ∀ p, FreePage lo size w p → ∃! i, i ∈ xs ∧ i ≤ p ∧ p < i + (w.state.pages i).property
  null_iff : ∀ n, 0 < n → ((∃ s, defaultAllocPages fuel w.state n = some (none, s)) ↔
    ¬ ∃ a, ∀ p, a ≤ p → p < a + n → FreePage lo size w p)
  first : ∀ n, 0 < n → (∃ s, defaultAllocPages fuel w.state n = some (none, s)) ∨
    ∃ page ∈ xs, (∃ s, defaultAllocPages fuel w.state n = some (some page, s)) ∧ n ≤ (w.state.pages page).property ∧
      ∀ j ∈ xs, n ≤ (w.state.pages j).property → page ≤ j

/- The freed block lies in front of a free one, or nothing is free. -/
def InFront (lo size : Nat) (w : World State) : Call → Prop
  | .alloc _ => True
  | .free b => w.state.nrFree = 0 ∨ ∃ i < lo + size, b.base < i ∧ (w.state.pages i).pageProperty = true

instance (lo size : Nat) (w : World State) : (c : Call) → Decidable (InFront lo size w c)
  | .alloc _ => inferInstanceAs (Decidable True)
  | .free b => inferInstanceAs (Decidable (_ ∨ ∃ i < lo + size, b.base < i ∧ (w.state.pages i).pageProperty = true))

section Pages
variable {lo size n fuel p i a : Nat} {w : World State} {xs : List Nat}

theorem free_page_iff (inv : TightInv lo size w.state xs w.live) :
    FreePage lo size w p ↔ ∃ i ∈ xs, i ≤ p ∧ p < i + (w.state.pages i).property := by
  constructor
  · rintro ⟨low, high, dead⟩
    obtain ⟨b, mem, inside⟩ := ledger_covers inv.ledger inv.shared low high
    rcases List.mem_append.mp mem with mem | mem
    · obtain ⟨i, mi, rfl⟩ := List.mem_map.mp mem
      exact ⟨i, mi, inside⟩
    · exact absurd inside (dead b mem)
  · rintro ⟨i, mem, low, high⟩
    have block := inv_block inv.toFreeInv mem
    refine ⟨by omega, by omega, fun b live inside => ?_⟩
    have apart := inv_live_apart inv.toFreeInv mem live
    simp only [Block.Apart, Block.Contains, freeBlock, Block.stop] at apart inside
    omega

theorem one_block (inv : TightInv lo size w.state xs w.live) {j : Nat} (mi : i ∈ xs) (mj : j ∈ xs)
    (low : i ≤ p) (high : p < i + (w.state.pages i).property) (low' : j ≤ p)
    (high' : p < j + (w.state.pages j).property) : i = j := by
  rcases Nat.lt_trichotomy i j with lt | same | lt
  · have := inv_gap inv.toFreeInv mi mj lt
    omega
  · exact same
  · have := inv_gap inv.toFreeInv mj mi lt
    omega

/- A listed block is not continued by another. -/
theorem stop_not_free (inv : TightInv lo size w.state xs w.live) (mem : i ∈ xs) :
    ¬ FreePage lo size w (i + (w.state.pages i).property) := by
  intro free
  obtain ⟨j, mj, low, high⟩ := (free_page_iff inv).mp free
  rcases Nat.lt_trichotomy i j with lt | rfl | lt
  · have := inv_gap inv.toFreeInv mem mj lt
    have := inv.gaps i mem j mj
    omega
  · omega
  · have := inv_gap inv.toFreeInv mj mem lt
    have := inv_block inv.toFreeInv mem
    omega

theorem front_not_free (inv : TightInv lo size w.state xs w.live) (mem : i ∈ xs) (before : p + 1 = i) :
    ¬ FreePage lo size w p := by
  intro free
  obtain ⟨j, mj, low, high⟩ := (free_page_iff inv).mp free
  have := inv_gap inv.toFreeInv mj mem (by omega)
  have := inv.gaps j mj i mem
  omega

/- Consecutive free pages lie in one listed block. -/
theorem run_in_block (inv : TightInv lo size w.state xs w.live) (positive : 0 < n)
    (free : ∀ p, a ≤ p → p < a + n → FreePage lo size w p) :
    ∃ i ∈ xs, i ≤ a ∧ a + n ≤ i + (w.state.pages i).property := by
  obtain ⟨i, mem, low, high⟩ := (free_page_iff inv).mp (free a (Nat.le_refl a) (by omega))
  refine ⟨i, mem, low, ?_⟩
  by_contra short
  exact stop_not_free inv mem (free _ (by omega) (by omega))

theorem tight_complete (inv : TightInv lo size w.state xs w.live) (fits : size < wordSize) (enough : size + 2 < fuel) :
    Complete lo size fuel w xs := by
  refine ⟨inv.exactly, inv.sorted, fun i mem => ?_, fun p free => ?_, fun n positive => ?_, fun n positive => ?_⟩
  · exact ⟨(inv_block inv.toFreeInv mem).1, fun p low high => (free_page_iff inv).mpr ⟨i, mem, low, high⟩,
      stop_not_free inv mem, fun p before => front_not_free inv mem before⟩
  · obtain ⟨i, mem, low, high⟩ := (free_page_iff inv).mp free
    exact ⟨i, ⟨mem, low, high⟩, fun j ⟨mj, low', high'⟩ => one_block inv mj mem low' high' low high⟩
  · rcases alloc_tight inv positive fits enough with ⟨refused, short⟩ | ⟨page, mem, long, _, found, _⟩
    · refine ⟨fun _ ⟨a, free⟩ => ?_, fun _ => ⟨_, refused⟩⟩
      obtain ⟨i, mem, low, high⟩ := run_in_block inv positive free
      have := short i mem
      omega
    · refine ⟨fun ⟨s, refused⟩ => ?_, fun none => (none ⟨page, fun p low high => ?_⟩).elim⟩
      · rw [found] at refused
        cases refused
      · exact (free_page_iff inv).mpr ⟨page, mem, low, by omega⟩
  · rcases alloc_tight inv positive fits enough with ⟨refused, _⟩ | ⟨page, mem, long, lowest, found, _⟩
    · exact .inl ⟨_, refused⟩
    · exact .inr ⟨page, mem, ⟨_, found⟩, long, lowest⟩

end Pages

def WorldTight (lo size : Nat) (w : World State) : Prop := ∃ xs, TightInv lo size w.state xs w.live

section Runs
variable {lo size base fuel : Nat} {s : State} {w : World State} {c : Call} {xs : List Nat} {live : List Block} {b : Block}

theorem front_listed (inv : TightInv lo size s xs (b :: live)) (front : InFront lo size ⟨s, b :: live⟩ (.free b)) :
    xs = [] ∨ ∃ i ∈ xs, b.base < i := by
  rcases front with none | ⟨i, high, above, flagged⟩
  · refine .inl (List.eq_nil_iff_forall_not_mem.mpr fun i mem => ?_)
    have block := inv_block inv.toFreeInv mem
    have := inv_property_le inv.toFreeInv mem
    change s.nrFree = 0 at none
    omega
  · have within := inv.ledger.within b (by simp)
    have low : lo ≤ b.base := within.1
    exact .inr ⟨i, (inv.flags i (by omega) high).2.mp flagged, above⟩

theorem boot_tight (positive : 0 < size) (fits : size < wordSize)
    (reserved : ∀ i, base ≤ i → i < base + size → (s.pages i).reserved = true) :
    ∃ w, boot fuel s base size = some w ∧ WorldTight base size w := by
  refine ⟨_, boot_run positive fits reserved, [base], boot_free_inv positive fits, boot_ring s base size _, ?_⟩
  intro i mi j mj
  have block := inv_block (boot_free_inv (s := s) positive fits) mi
  have meet : j = i := (List.mem_singleton.mp mj).trans (List.mem_singleton.mp mi).symm
  dsimp only
  omega

theorem serve_tight (inv : WorldTight lo size w) (permitted : Permitted w c) (front : InFront lo size w c)
    (fits : size < wordSize) (enough : size + 2 < fuel) :
    ∃ w', (defaultPmmManager fuel).serve w c = some w' ∧ WorldTight lo size w' := by
  obtain ⟨xs, inv⟩ := inv
  cases c with
  | alloc n =>
    rcases alloc_tight inv permitted fits enough with ⟨refused, _⟩ | ⟨page, _, _, _, found, ys, inv'⟩
    · exact ⟨⟨w.state, w.live⟩, by simp [PmmManager.serve, defaultPmmManager, refused], xs, inv⟩
    · exact ⟨⟨takeBlock w.state page n, ⟨page, n⟩ :: w.live⟩, by simp [PmmManager.serve, defaultPmmManager, found], ys, inv'⟩
  | free b =>
    have held : w.live.Perm (b :: w.live.erase b) := List.perm_cons_erase permitted
    have inv : TightInv lo size w.state xs (b :: w.live.erase b) :=
      { inv with
        ledger := ledger_perm (held.append_left _) inv.ledger
        shared := (total_perm (held.append_left _)).symm.trans inv.shared }
    obtain ⟨s', ys, run, inv'⟩ := free_tight inv (front_listed inv front) fits enough
    exact ⟨⟨s', w.live.erase b⟩, by simp [PmmManager.serve, defaultPmmManager, run], ys, inv'⟩

theorem fronted_frees_complete (positive : 0 < size) (fits : size < wordSize) (enough : size + 2 < fuel)
    (reserved : ∀ i, base ≤ i → i < base + size → (s.pages i).reserved = true) :
    ∃ start, boot fuel s base size = some start ∧ ∀ calls w,
      Run (fun w c w' => InFront base size w c ∧ (defaultPmmManager fuel).request w c = some w') start calls w →
      (∃ xs, Complete base size fuel w xs) ∧ ∀ c, Permitted w c → InFront base size w c →
        ((defaultPmmManager fuel).request w c).isSome := by
  obtain ⟨start, booted, inv⟩ := @boot_tight size base fuel s positive fits reserved
  refine ⟨start, booted, fun calls w run => ?_⟩
  obtain ⟨⟨xs, kept⟩, answered⟩ := runs_keep (fun w c inv permitted front =>
    serve_tight inv permitted front fits enough) inv run
  exact ⟨⟨xs, tight_complete kept fits enough⟩, answered⟩

/- Six pages: every block but the last to come back has a free one behind it. -/
theorem six_pages_complete : ∃ start w, boot 20 reservedPages 0 6 = some start ∧
    Run (fun w c w' => InFront 0 6 w c ∧ (defaultPmmManager 20).request w c = some w') start
      [.alloc 1, .alloc 2, .alloc 1, .free ⟨1, 2⟩, .free ⟨0, 1⟩, .alloc 2, .alloc 1, .alloc 2, .free ⟨4, 2⟩,
        .free ⟨0, 2⟩] w ∧
    w.live = [⟨2, 1⟩, ⟨3, 1⟩] ∧ ∃ xs, Complete 0 6 20 w xs := by
  have answer : ((boot 20 reservedPages 0 6).bind fun start => replay
      ((defaultPmmManager 20).requestWhen fun w c => InFront 0 6 w c) start
      [.alloc 1, .alloc 2, .alloc 1, .free ⟨1, 2⟩, .free ⟨0, 1⟩, .alloc 2, .alloc 1, .alloc 2, .free ⟨4, 2⟩,
        .free ⟨0, 2⟩]).map World.live = some [⟨2, 1⟩, ⟨3, 1⟩] := by decide +kernel
  obtain ⟨w, ran, live⟩ := Option.map_eq_some_iff.mp answer
  obtain ⟨start, booted, ran⟩ := Option.bind_eq_some_iff.mp ran
  have run := request_when_run ran
  obtain ⟨start', booted', complete⟩ := @fronted_frees_complete 6 0 20 reservedPages
    (by decide) (by decide) (by decide) (fun i _ _ => rfl)
  obtain rfl : start = start' := by simpa [booted] using booted'
  exact ⟨start, w, booted, run, live, (complete _ w run).1⟩

/- Three pages: the second block to come back is listed behind the first, is linked back to itself and stays
   unmerged, and a request for both is refused. -/
theorem two_free_pages_refused : ∃ start w, boot 20 reservedPages 0 3 = some start ∧
    Run (fun w c w' => (defaultPmmManager 20).request w c = some w') start
      [.alloc 1, .alloc 1, .alloc 1, .free ⟨0, 1⟩, .free ⟨1, 1⟩] w ∧ ¬ ∃ xs, Complete 0 3 20 w xs := by
  have answer : ((boot 20 reservedPages 0 3).bind fun start => (replay (defaultPmmManager 20).request start
      [.alloc 1, .alloc 1, .alloc 1, .free ⟨0, 1⟩, .free ⟨1, 1⟩])).map
        (fun w => (w.live, (defaultAllocPages 20 w.state 2).map Prod.fst)) = some ([⟨2, 1⟩], some none) := by decide +kernel
  obtain ⟨w, ran, seen⟩ := Option.map_eq_some_iff.mp answer
  obtain ⟨start, booted, ran⟩ := Option.bind_eq_some_iff.mp ran
  obtain ⟨live, refused⟩ := Prod.mk.inj seen
  refine ⟨start, w, booted, replay_run ran, fun ⟨xs, complete⟩ => ?_⟩
  obtain ⟨⟨r, s⟩, refused, rfl⟩ := Option.map_eq_some_iff.mp refused
  refine (complete.null_iff 2 (by decide)).mp ⟨s, refused⟩ ⟨0, fun p _ high => ⟨Nat.zero_le p, by omega, ?_⟩⟩
  rw [live]
  intro b mem inside
  obtain rfl := List.mem_singleton.mp mem
  have : 2 ≤ p := inside.1
  omega

end Runs

end Ucore.DefaultPmm
