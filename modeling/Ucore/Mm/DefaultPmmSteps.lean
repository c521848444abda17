import Ucore.Mm.DefaultPmmRuns

namespace Ucore.DefaultPmm
open CircularList Blocks Words

section Alloc
variable {lo size n page : Nat} {s : State} {pre post : List Nat} {live : List Block}

theorem prev_of_straight {L : ListLinks} {slack : Entry → Prop} {front back : List Entry}
    {elm : Entry} (ring : IsRing L slack freeList (front ++ elm :: back))
    (straight : L.prev elm ≠ elm) : (freeList :: front).getLast? = some (L.prev elm) := by
  obtain ⟨a, before⟩ : ∃ a, (freeList :: front).getLast? = some a := by
    cases h : (freeList :: front).getLast? <;> simp_all
  rcases (ring_neighbours ring before (b := elm) (by simp)).2 with back | ⟨_, self⟩
  · rw [back, before]
  · exact absurd self straight

theorem take_whole_property (exact : (s.pages page).property = n) (i : Nat) :
    ((takeBlock s page n).pages i).property = (s.pages i).property := by
  have no_rest : ¬ (s.pages page).property > n := by omega
  simp only [takeBlock, no_rest, ↓reduceIte, clearPageProperty, State.withPages, Pages.clearPageProperty, Pages.edit]
  by_cases ip : i = page
  · subst i; simp
  · simp [ip]

theorem take_whole_links (exact : (s.pages page).property = n) :
    (takeBlock s page n).links = listDel s.links (.link page) := by
  have no_rest : ¬ (s.pages page).property > n := by omega
  simp [takeBlock, no_rest, clearPageProperty, State.withPages]

theorem take_part_property (positive : 0 < n) (longer : n < (s.pages page).property)
    (small : (s.pages page).property < wordSize) (i : Nat) : ((takeBlock s page n).pages i).property =
      if i = page + n then (s.pages page).property - n else (s.pages i).property := by
  have rest : u32 (((s.pages page).property : Int) - n) = (s.pages page).property - n :=
    u32_exact (by omega) (by omega)
  have ne : n ≠ 0 := by omega
  simp only [takeBlock, gt_iff_lt, longer, ↓reduceIte, clearPageProperty, setPageProperty,
    setProperty, State.withPages, Pages.clearPageProperty, Pages.setPageProperty,
    Pages.setProperty, Pages.edit]
  by_cases ir : i = page + n
  · subst i; simp [ne, rest]
  · by_cases ip : i = page
    · subst i; simp [ne]
    · simp [ir, ip]

theorem take_part_links (longer : n < (s.pages page).property) : (takeBlock s page n).links =
    listAdd (listDel s.links (.link page)) (s.links.prev (.link page)) (.link (page + n)) := by
  simp [takeBlock, longer, clearPageProperty, setPageProperty, setProperty, State.withPages]

/- The block that is taken has exactly the requested size. -/
theorem take_whole_inv (inv : FreeInv lo size s (pre ++ page :: post) live)
    (exact : (s.pages page).property = n)
    (straight : s.links.prev (.link page) ≠ .link page) (fits : size < wordSize) :
    FreeInv lo size (takeBlock s page n) (pre ++ post) (⟨page, n⟩ :: live) := by
  have mem : page ∈ pre ++ page :: post := by simp
  have nodup : (pre ++ page :: post).Nodup := inv.sorted.imp Nat.ne_of_lt
  have fresh : page ∉ pre ++ post := by
    simp [List.nodup_append] at nodup ⊢
    grind
  have bound := inv_nrFree_le inv
  have room := inv_property_le inv mem
  have count : u32 ((s.nrFree : Int) - n) = s.nrFree - n := u32_exact (by omega) (by omega)
  have taken : takeBlock s page n = clearPageProperty
      { s with links := listDel s.links (.link page), nrFree := s.nrFree - n } page := by
    have no_rest : ¬ (s.pages page).property > n := by omega
    simp [takeBlock, no_rest, count]
  have others : (pre ++ post).map (freeBlock (takeBlock s page n)) =
      (pre ++ post).map (freeBlock s) := map_freeBlock_congr fun i _ => take_whole_property exact i
  have before : ((pre ++ page :: post).map (freeBlock s) ++ live).Perm
      ((pre ++ post).map (freeBlock s) ++ ⟨page, n⟩ :: live) := by
    have shape : freeBlock s page = ⟨page, n⟩ := by simp [freeBlock, exact]
    rw [← shape]
    exact (middle_perm _ page).trans List.perm_middle.symm
  refine ⟨?_, ?_, ?_, ?_, ?_, ?_⟩
  · have ring : IsRing s.links (· ≠ freeList) freeList
        (pre.map Entry.link ++ .link page :: post.map Entry.link) := by simpa using inv.ring
    have := list_del_ring ring straight
    rw [taken]
    simpa [clearPageProperty, State.withPages, Pages.clearPageProperty, Pages.edit] using this
  · exact inv.sorted.sublist (by simp)
  · rw [others]
    exact ledger_perm before inv.ledger
  · rw [others, ← total_perm before]
    exact inv.shared
  · have := inv.counted
    rw [total_perm (free_perm _ page)] at this
    rw [others, taken]
    simp only [total_cons, freeBlock] at this
    simp only [clearPageProperty, State.withPages, Pages.clearPageProperty, Pages.edit]
    omega
  · intro i lower upper
    have flags := inv.flags i lower upper
    rw [taken]
    by_cases ip : i = page
    · subst i
      simpa [clearPageProperty, State.withPages, Pages.clearPageProperty, Pages.edit, flags.1] using fresh
    · simpa [clearPageProperty, State.withPages, Pages.clearPageProperty, Pages.edit, ip] using flags

/- The block that is taken is longer: its end goes back on the list in its place. -/
theorem take_part_inv (inv : FreeInv lo size s (pre ++ page :: post) live)
    (positive : 0 < n) (longer : n < (s.pages page).property)
    (straight : s.links.prev (.link page) ≠ .link page) (fits : size < wordSize) :
    FreeInv lo size (takeBlock s page n) (pre ++ (page + n) :: post) (⟨page, n⟩ :: live) := by
  have mem : page ∈ pre ++ page :: post := by simp
  have nodup : (pre ++ page :: post).Nodup := inv.sorted.imp Nat.ne_of_lt
  have fresh : page ∉ pre ++ post := by
    simp [List.nodup_append] at nodup ⊢
    grind
  have block := inv_block inv mem
  have bound := inv_nrFree_le inv
  have room := inv_property_le inv mem
  -- the first page of the rest lies inside the block, so it heads no other block
  have rest_fresh : ∀ i ∈ pre ++ post, i ≠ page + n := by
    intro i mi same
    have mi' : i ∈ pre ++ page :: post := mem_middle.mpr (.inr mi)
    have := inv_gap inv mem mi' (by omega)
    omega
  have below : ∀ i ∈ pre, i < page := by
    intro i mi
    exact (List.pairwise_append.mp inv.sorted).2.2 i mi page (by simp)
  have above : ∀ i ∈ post, page + (s.pages page).property ≤ i := by
    intro i mi
    have lt : page < i :=
      (List.pairwise_cons.mp (List.pairwise_append.mp inv.sorted).2.1).1 i mi
    exact inv_gap inv mem (by simp [mi]) lt
  have count : u32 ((s.nrFree : Int) - n) = s.nrFree - n := u32_exact (by omega) (by omega)
  have ne : n ≠ 0 := by omega
  have properties := take_part_property positive longer (by omega : (s.pages page).property < wordSize)
  have flags' : ∀ i, ((takeBlock s page n).pages i).reserved = (s.pages i).reserved ∧
      ((takeBlock s page n).pages i).pageProperty =
        if i = page then false else if i = page + n then true else (s.pages i).pageProperty := by
    intro i
    simp only [takeBlock, gt_iff_lt, longer, ↓reduceIte, clearPageProperty, setPageProperty,
      setProperty, State.withPages, Pages.clearPageProperty, Pages.setPageProperty,
      Pages.setProperty, Pages.edit]
    by_cases ir : i = page + n
    · subst i; simp [ne]
    · by_cases ip : i = page
      · subst i; simp [ne]
      · simp [ir, ip]
  have links := take_part_links longer
  have nrFree : (takeBlock s page n).nrFree = s.nrFree - n := by
    simp [takeBlock, longer, clearPageProperty, setPageProperty, setProperty, State.withPages, count]
  have others : (pre ++ post).map (freeBlock (takeBlock s page n)) =
      (pre ++ post).map (freeBlock s) := by
    apply map_freeBlock_congr
    intro i mi
    simp [properties, rest_fresh i mi]
  have remainder : freeBlock (takeBlock s page n) (page + n) =
      ⟨page + n, (s.pages page).property - n⟩ := by simp [freeBlock, properties]
  have after : ((pre ++ (page + n) :: post).map (freeBlock (takeBlock s page n))).Perm
      (⟨page + n, (s.pages page).property - n⟩ :: (pre ++ post).map (freeBlock s)) := by
    rw [← others, ← remainder]
    exact free_perm _ _
  have gathered : (((pre ++ (page + n) :: post).map (freeBlock (takeBlock s page n))) ++
      ⟨page, n⟩ :: live).Perm (⟨page, n⟩ :: ⟨page + n, (s.pages page).property - n⟩ ::
        ((pre ++ post).map (freeBlock s) ++ live)) :=
    List.perm_middle.trans ((after.append_right live).cons _)
  have whole := ledger_perm (middle_perm (freeBlock s) page) inv.ledger
  have length : (s.pages page).property = n + ((s.pages page).property - n) := by omega
  refine ⟨?_, ?_, ledger_perm gathered.symm ?_, ?_, ?_, ?_⟩
  · have ring : IsRing s.links (· ≠ freeList) freeList
        (pre.map Entry.link ++ .link page :: post.map Entry.link) := by simpa using inv.ring
    have deleted := list_del_ring ring straight
    have fresh' : Entry.link (page + n) ∉ freeList :: (pre.map Entry.link ++ post.map Entry.link) := by
      simp only [List.mem_cons, List.mem_append, List.mem_map, Entry.link.injEq, exists_eq_right,
        freeList, reduceCtorEq, false_or]
      intro mi
      exact rest_fresh _ (List.mem_append.mpr mi) rfl
    have := list_add_ring deleted (prev_of_straight ring straight) fresh'
    rw [links]
    simpa using this
  · have sorted := inv.sorted
    rw [List.pairwise_append, List.pairwise_cons] at sorted ⊢
    obtain ⟨left, ⟨_, right⟩, cross⟩ := sorted
    refine ⟨left, ⟨?_, right⟩, ?_⟩
    · intro i mi
      have := above i mi
      omega
    · intro i mi j mj
      have low := below i mi
      rcases List.mem_cons.mp mj with same | mj
      · omega
      · have := above j mj
        omega
  · have shape : freeBlock s page = ⟨page, n + ((s.pages page).property - n)⟩ := by
      rw [← length]; rfl
    rw [shape] at whole
    exact ledger_split positive (by omega) whole
  · have := inv.shared
    rw [total_perm (middle_perm (freeBlock s) page)] at this
    rw [total_perm gathered]
    simp only [total_cons, freeBlock] at this ⊢
    omega
  · have := inv.counted
    rw [total_perm (free_perm _ page)] at this
    rw [total_perm after, nrFree]
    simp only [total_cons, freeBlock] at this ⊢
    omega
  · intro i lower upper
    have flags := inv.flags i lower upper
    rw [(flags' i).1, (flags' i).2]
    refine ⟨flags.1, ?_⟩
    by_cases ip : i = page
    · subst i
      simpa [ne] using fresh
    · by_cases ir : i = page + n
      · subst i; simp [ne]
      · simpa [ip, ir] using flags.2

theorem take_block_inv (inv : FreeInv lo size s (pre ++ page :: post) live)
    (positive : 0 < n) (enough : n ≤ (s.pages page).property)
    (straight : s.links.prev (.link page) ≠ .link page) (fits : size < wordSize) :
    ∃ ys, FreeInv lo size (takeBlock s page n) ys (⟨page, n⟩ :: live) := by
  by_cases longer : n < (s.pages page).property
  · exact ⟨_, take_part_inv inv positive longer straight fits⟩
  · exact ⟨_, take_whole_inv inv (by omega) straight fits⟩

/- The block that `default_alloc_pages` would take, in terms of the page array alone. -/
def FirstFit (lo : Nat) (s : State) (n i : Nat) : Prop :=
  lo ≤ i ∧ (s.pages i).pageProperty = true ∧ n ≤ (s.pages i).property ∧
    ∀ j < i, lo ≤ j → (s.pages j).pageProperty = true → (s.pages j).property < n

theorem find_fits (s : State) (n : Nat) (xs : List Nat) :
    (xs.map Entry.link).find? (fits s n) =
      (xs.find? fun i => n ≤ (s.pages i).property).map Entry.link := by
  rw [List.find?_map]
  rfl

theorem free_length_lt {fuel : Nat} (inv : FreeInv lo size s pre live) (enough : size + 2 < fuel) :
    pre.length + 2 < fuel := by
  have shared := inv.shared
  have := length_le_total inv.ledger
  simp only [List.length_append, List.length_map] at this
  omega

/- The loop of `default_alloc_pages` finds the first block that is long enough. -/
theorem search_fits {fuel : Nat} {xs : List Nat} (inv : FreeInv lo size s xs live) (enough : size + 2 < fuel) (n : Nat) :
    search s.links.next freeList (fits s n) fuel freeList =
      some ((xs.find? fun i => n ≤ (s.pages i).property).map Entry.link) := by
  have walk : IsRing s.links (· ≠ freeList) freeList ([] ++ xs.map Entry.link) := inv.ring
  have length := free_length_lt inv enough
  rw [← find_fits]
  exact search_ring _ walk rfl (by simp only [List.length_map]; omega)

theorem found_first {xs front back : List Nat} {i : Nat} (inv : FreeInv lo size s xs live)
    (split : xs = front ++ i :: back) (fit : n ≤ (s.pages i).property)
    (skipped : ∀ j ∈ front, (s.pages j).property < n) : FirstFit lo s n i := by
  have mem : i ∈ xs := by simp [split]
  have block := inv_block inv mem
  have flags := inv.flags i block.2.1 (by omega)
  refine ⟨block.2.1, flags.2.mpr mem, fit, ?_⟩
  intro j before lower free
  have mj : j ∈ xs := (inv.flags j lower (by omega)).2.mp free
  rw [split, List.mem_append] at mj
  rcases mj with mj | mj
  · exact skipped j mj
  · exfalso
    have sorted := inv.sorted
    rw [split] at sorted
    rcases List.mem_cons.mp mj with same | mj
    · omega
    · have := (List.pairwise_cons.mp (List.pairwise_append.mp sorted).2.1).1 j mj
      omega

theorem alloc_run {xs : List Nat} {fuel : Nat} (inv : FreeInv lo size s xs live) (positive : 0 < n)
    (straight : ∀ i < lo + size, FirstFit lo s n i → s.links.prev (.link i) ≠ .link i)
    (fits : size < wordSize) (enough : size + 2 < fuel) :
    (∃ s', defaultAllocPages fuel s n = some (none, s') ∧ ∃ ys, FreeInv lo size s' ys live) ∨
    (∃ page s', defaultAllocPages fuel s n = some (some page, s') ∧
      ∃ ys, FreeInv lo size s' ys (⟨page, n⟩ :: live)) := by
  have nonzero : n ≠ 0 := by omega
  by_cases scarce : n > s.nrFree
  · exact Or.inl ⟨s, by simp [defaultAllocPages, nonzero, scarce], xs, inv⟩
  · have searched := search_fits inv enough n
    cases found : xs.find? fun i => n ≤ (s.pages i).property with
    | none =>
      rw [found] at searched
      exact Or.inl ⟨s, by simp [defaultAllocPages, nonzero, scarce, searched], xs, inv⟩
    | some page =>
      rw [found] at searched
      obtain ⟨fit, front, back, split, skipped⟩ := List.find?_eq_some_iff_append.mp found
      have fit : n ≤ (s.pages page).property := by simpa using fit
      have first := found_first inv split fit (by simpa using skipped)
      have inside : page < lo + size := by
        have := inv_block inv (i := page) (by simp [split])
        omega
      subst xs
      have taken := take_block_inv inv positive fit (straight page inside first) fits
      exact Or.inr ⟨page, takeBlock s page n,
        by simp [defaultAllocPages, nonzero, scarce, searched], taken⟩

end Alloc

section Free
variable {lo size : Nat} {s : State} {xs : List Nat} {live : List Block} {b : Block}

/- The first free block above `base`, in terms of the page array alone. -/
def NextFree (s : State) (base i : Nat) : Prop :=
  base < i ∧ (s.pages i).pageProperty = true ∧
    ∀ j < i, base < j → (s.pages j).pageProperty = false

theorem live_cells_clear (inv : FreeInv lo size s xs (b :: live)) {i : Nat} (cell : b.Contains i) :
    (s.pages i).reserved = false ∧ (s.pages i).pageProperty = false := by
  have mb : b ∈ xs.map (freeBlock s) ++ b :: live := by simp
  have within := inv.ledger.within b mb
  simp only [Block.Within, Block.Contains] at within cell
  have flags := inv.flags i (by omega) (by omega)
  refine ⟨flags.1, ?_⟩
  cases free : (s.pages i).pageProperty
  · rfl
  · have mem := flags.2.mp free
    have block := inv_block inv mem
    have apart := inv_live_apart inv mem (b := b) (by simp)
    simp only [Block.Apart, freeBlock, stop_mk] at apart
    omega

/- The state of `default_free_pages` when its insertion loop starts. -/
def released (s : State) (b : Block) : State :=
  let cleared := { s with pages := releasedPages s.pages b.base b.size }
  let marked := setPageProperty (setProperty cleared b.base b.size) b.base
  { marked with nrFree := u32 (s.nrFree + b.size) }

theorem released_property (s : State) (b : Block) (small : b.size < wordSize) (i : Nat) :
    ((released s b).pages i).property =
      if i = b.base then b.size else (s.pages i).property := by
  simp only [released, setPageProperty, setProperty, State.withPages, Pages.setPageProperty,
    Pages.setProperty, Pages.edit]
  by_cases here : i = b.base
  · subst i; simp [u32_of_nat small]
  · simp only [Function.update, here, ↓reduceDIte, ↓reduceIte]
    exact released_pages_property i

theorem released_flags (inv : FreeInv lo size s xs (b :: live)) (i : Nat) (lower : lo ≤ i)
    (upper : i < lo + size) : ((released s b).pages i).reserved = false ∧
      ((released s b).pages i).pageProperty =
        if i = b.base then true else (s.pages i).pageProperty := by
  have flags := inv.flags i lower upper
  simp only [released, setPageProperty, setProperty, State.withPages, Pages.setPageProperty,
    Pages.setProperty, Pages.edit]
  by_cases here : i = b.base
  · subst i
    simp only [Function.update_self, ↓reduceIte, and_true]
    unfold releasedPages
    split
    · rfl
    · exact flags.1
  · simp only [Function.update, here, ↓reduceDIte, ↓reduceIte]
    unfold releasedPages
    split
    · next cell => simp [(live_cells_clear inv (i := i) ⟨cell.1, cell.2⟩).2]
    · exact ⟨flags.1, rfl⟩

theorem released_inv {pre post : List Nat} {L' : ListLinks}
    (inv : FreeInv lo size s (pre ++ post) (b :: live))
    (below : ∀ j ∈ pre, j < b.base) (above : ∀ j ∈ post, b.base < j)
    (ring : IsRing L' (· ≠ freeList) freeList ((pre ++ b.base :: post).map Entry.link))
    (fits : size < wordSize) :
    FreeInv lo size { released s b with links := L' } (pre ++ b.base :: post) live := by
  have counts := inv.shared
  rw [total_append, ← inv.counted, total_cons] at counts
  have small : b.size < wordSize := by omega
  have properties := released_property s b small
  have fresh : ∀ i ∈ pre ++ post, i ≠ b.base := by
    intro i mem
    rcases List.mem_append.mp mem with mem | mem
    · have := below i mem; omega
    · have := above i mem; omega
  have others : (pre ++ post).map (freeBlock (released s b)) = (pre ++ post).map (freeBlock s) := by
    apply map_freeBlock_congr
    intro i mem
    simp [properties, fresh i mem]
  have back : freeBlock (released s b) b.base = b := by simp [freeBlock, properties]
  have after : ((pre ++ b.base :: post).map (freeBlock (released s b))).Perm
      (b :: (pre ++ post).map (freeBlock s)) := by
    have placed : ((pre ++ b.base :: post).map (freeBlock (released s b))).Perm
        (freeBlock (released s b) b.base :: (pre ++ post).map (freeBlock (released s b))) :=
      free_perm _ b.base
    rwa [back, others] at placed
  have moved : ((pre ++ b.base :: post).map (freeBlock (released s b)) ++ live).Perm
      ((pre ++ post).map (freeBlock s) ++ b :: live) :=
    (after.append_right live).trans List.perm_middle.symm
  refine ⟨ring, ?_, ledger_perm moved.symm inv.ledger, ?_, ?_, ?_⟩
  · have sorted := inv.sorted
    rw [List.pairwise_append] at sorted ⊢
    obtain ⟨left, right, cross⟩ := sorted
    refine ⟨left, List.pairwise_cons.mpr ⟨above, right⟩, ?_⟩
    intro i mi j mj
    rcases List.mem_cons.mp mj with same | mj
    · exact same ▸ below i mi
    · exact cross i mi j mj
  · exact (total_perm moved).trans inv.shared
  · change u32 ((s.nrFree : Int) + b.size) = total ((pre ++ b.base :: post).map (freeBlock (released s b)))
    rw [u32_exact (v := s.nrFree + b.size) (by omega) (by omega), total_perm after, total_cons,
      ← inv.counted]
    omega
  · intro i lower upper
    have flags := inv.flags i lower upper
    have now := released_flags inv i lower upper
    refine ⟨now.1, ?_⟩
    change ((released s b).pages i).pageProperty = true ↔ _
    rw [now.2]
    by_cases here : i = b.base
    · subst i; simp
    · simpa [here] using flags.2

theorem next_free_head {pre post : List Nat} {base i : Nat}
    (inv : FreeInv lo size s (pre ++ post) live) (lower : lo ≤ base)
    (below : ∀ j ∈ pre, j < base) (above : ∀ j ∈ post, base < j)
    (head : post.head? = some i) : i < lo + size ∧ NextFree s base i := by
  obtain ⟨back, split⟩ : ∃ back, post = i :: back := by
    cases post with
    | nil => simp at head
    | cons j back => exact ⟨back, by simp at head; simp [head]⟩
  subst post
  have mem : i ∈ pre ++ i :: back := by simp
  have block := inv_block inv mem
  refine ⟨by omega, above i (by simp), (inv.flags i block.2.1 (by omega)).2.mpr mem, ?_⟩
  intro j before lo_j
  cases free : (s.pages j).pageProperty
  · rfl
  · exfalso
    have mj := (inv.flags j (by omega) (by omega)).2.mp free
    rcases List.mem_append.mp mj with mj | mj
    · have := below j mj; omega
    · rcases List.mem_cons.mp mj with same | mj
      · omega
      · have := (List.pairwise_cons.mp (List.pairwise_append.mp inv.sorted).2.1).1 j mj
        omega

theorem free_run {fuel : Nat} (inv : FreeInv lo size s xs (b :: live))
    (straight : ∀ i < lo + size, NextFree s b.base i → s.links.prev (.link i) ≠ .link i)
    (fits : size < wordSize) (enough : size + 2 < fuel) :
    ∃ s', defaultFreePages fuel s b.base b.size = some s' ∧ ∃ ys, FreeInv lo size s' ys live := by
  have mb : b ∈ xs.map (freeBlock s) ++ b :: live := by simp
  have positive := inv.ledger.positive b mb
  have within := inv.ledger.within b mb
  have nonzero : b.size ≠ 0 := by omega
  have fresh : b.base ∉ xs := by
    intro mem
    have clear := live_cells_clear inv (i := b.base) ⟨Nat.le_refl _, by simp only [Block.stop]; omega⟩
    have free := (inv.flags b.base within.1 (by have := within.2; simp only [Block.stop] at this; omega)).2.mpr mem
    rw [clear.2] at free
    cases free
  have cleared := release_pages_run (p := b.base) (k := b.size) fun i low high =>
    live_cells_clear inv ⟨low, high⟩
  obtain ⟨pre, post, split, below, above⟩ := sorted_cut inv.sorted fresh
  subst xs
  have length := free_length_lt inv enough
  have shorter : pre.length + 2 < fuel := by simp only [List.length_append] at length; omega
  obtain ⟨L', inserted, ring, next⟩ := insert_page_run (s := released s b) inv.ring below above
    (fun i head =>
      have next := next_free_head inv within.1 below above head
      straight i next.1 next.2) shorter
  have inv' := released_inv inv below above ring fits
  obtain ⟨ys, merged, mem, next'⟩ := merge_prev_inv inv' (by simp) next fits
  obtain ⟨zs, done⟩ := merge_next_inv merged mem next' fits
  have opened : defaultFreePages fuel s b.base b.size =
      (insertPage fuel (released s b) b.base).bind fun s =>
        some (mergeNext (mergePrev s b.base).2 (mergePrev s b.base).1) := by
    simp only [defaultFreePages, nonzero, ↓reduceIte, cleared, Option.bind_eq_bind,
      Option.bind_some]
    rfl
  rw [opened, inserted]
  exact ⟨_, rfl, zs, done⟩

end Free

end Ucore.DefaultPmm
