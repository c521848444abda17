import Ucore.Mm.DefaultPmm

namespace Ucore.DefaultPmm
open CircularList Blocks Words

def freeBlock (s : State) (i : Nat) : Block := ⟨i, (s.pages i).property⟩

/- The free list is `xs`: ascending pages, each the first of a free block whose length
   is its property. Free and live blocks share out the region. -/
structure FreeInv (lo size : Nat) (s : State) (xs : List Nat) (live : List Block) : Prop where
  ring : IsRing s.links (· ≠ freeList) freeList (xs.map Entry.link)
  sorted : xs.Pairwise (· < ·)
  ledger : Ledger lo (lo + size) (xs.map (freeBlock s) ++ live)
  shared : total (xs.map (freeBlock s) ++ live) = size
  counted : s.nrFree = total (xs.map (freeBlock s))
  flags : ∀ i, lo ≤ i → i < lo + size →
    (s.pages i).reserved = false ∧ ((s.pages i).pageProperty = true ↔ i ∈ xs)

section Insertion
variable {L : ListLinks} {slack : Entry → Prop} {base : Nat}

theorem map_link_last (xs : List Nat) (x : Nat) :
    (freeList :: (xs ++ [x]).map Entry.link).getLast? = some (.link x) := by
  rw [List.map_append, ← List.cons_append, List.getLast?_append]
  simp

/- The walk passes the blocks below `base` and stops in front of the first one above. -/
theorem insert_loop_before {done mid post : List Nat} {i fuel : Nat} {le : Entry}
    (ring : IsRing L slack freeList ((done ++ (mid ++ i :: post)).map Entry.link))
    (here : (freeList :: done.map Entry.link).getLast? = some le)
    (below : ∀ j ∈ mid, j < base) (above : base < i) (enough : mid.length < fuel) :
    insertLoop base fuel L le = some (listAddBefore L (.link i) (.link base)) := by
  obtain ⟨fuel, rfl⟩ : ∃ k, fuel = k + 1 := ⟨fuel - 1, by omega⟩
  induction mid generalizing done le fuel with
  | nil =>
    have ring' : IsRing L slack freeList (done.map Entry.link ++ (.link i :: post.map Entry.link)) := by
      simpa using ring
    have fwd : L.next le = .link i := (ring_neighbours ring' here rfl).1
    simp [insertLoop, fwd, above]
  | cons j mid ih =>
    have ring' : IsRing L slack freeList
        (done.map Entry.link ++ (.link j :: (mid ++ i :: post).map Entry.link)) := by
      simpa using ring
    have fwd : L.next le = .link j := (ring_neighbours ring' here rfl).1
    have moved : IsRing L slack freeList (((done ++ [j]) ++ (mid ++ i :: post)).map Entry.link) := by
      simpa using ring
    have notLast : L.next (.link j) ≠ freeList := by
      have split : IsRing L slack freeList
          ((done ++ [j]).map Entry.link ++ (mid ++ i :: post).map Entry.link) := by
        simpa using ring
      obtain ⟨k, hk⟩ : ∃ k, ((mid ++ i :: post).map Entry.link ++ [freeList]).head? = some (.link k) := by
        cases mid with
        | nil => exact ⟨i, rfl⟩
        | cons m mid => exact ⟨m, rfl⟩
      rw [(ring_neighbours split (map_link_last done j) hk).1]
      simp [freeList]
    have low := below j (by simp)
    obtain ⟨fuel, rfl⟩ : ∃ k, fuel = k + 1 := ⟨fuel - 1, by simp at enough; omega⟩
    rw [insertLoop]
    simp only [fwd, Nat.not_lt.mpr (Nat.le_of_lt low), ↓reduceIte, notLast]
    exact ih moved (map_link_last done j) (fun m mem => below m (by simp [mem])) fuel
      (by simp at enough; omega)

/- Past the last block the loop inserts, walks on to the block it has inserted and
   inserts that block once more, after itself. -/
theorem insert_loop_tail {done mid : List Nat} {t fuel : Nat} {le : Entry}
    (ring : IsRing L slack freeList ((done ++ (mid ++ [t])).map Entry.link))
    (here : (freeList :: done.map Entry.link).getLast? = some le)
    (below : ∀ j ∈ mid ++ [t], j < base) (enough : mid.length + 2 < fuel) :
    insertLoop base fuel L le =
      some (listAdd (listAdd L (.link t) (.link base)) (.link base) (.link base)) := by
  obtain ⟨fuel, rfl⟩ : ∃ k, fuel = k + 1 := ⟨fuel - 1, by omega⟩
  induction mid generalizing done le fuel with
  | nil =>
    have ring' : IsRing L slack freeList (done.map Entry.link ++ [.link t]) := by simpa using ring
    have closed : IsRing L slack freeList ((done.map Entry.link ++ [.link t]) ++ []) := by
      simpa using ring
    have fwd : L.next le = .link t := (ring_neighbours ring' here rfl).1
    have last : L.next (.link t) = freeList := by
      refine (ring_neighbours closed ?_ rfl).1
      simpa using map_link_last done t
    have low := below t (by simp)
    have notT : Entry.link base ≠ .link t := by simp; omega
    have notHead : Entry.link base ≠ freeList := by simp [freeList]
    obtain ⟨fuel, rfl⟩ : ∃ k, fuel = k + 2 := ⟨fuel - 2, by simp at enough; omega⟩
    simp [insertLoop, fwd, last, Nat.not_lt.mpr (Nat.le_of_lt low), listAdd, listAddAfter,
      listInsert, Links.splice, notT.symm, freeList]
  | cons j mid ih =>
    have ring' : IsRing L slack freeList
        (done.map Entry.link ++ (.link j :: (mid ++ [t]).map Entry.link)) := by
      simpa using ring
    have fwd : L.next le = .link j := (ring_neighbours ring' here rfl).1
    have moved : IsRing L slack freeList (((done ++ [j]) ++ (mid ++ [t])).map Entry.link) := by
      simpa using ring
    have notLast : L.next (.link j) ≠ freeList := by
      have split : IsRing L slack freeList
          ((done ++ [j]).map Entry.link ++ (mid ++ [t]).map Entry.link) := by
        simpa using ring
      obtain ⟨k, hk⟩ : ∃ k, ((mid ++ [t]).map Entry.link ++ [freeList]).head? = some (.link k) := by
        cases mid with
        | nil => exact ⟨t, rfl⟩
        | cons m mid => exact ⟨m, rfl⟩
      rw [(ring_neighbours split (map_link_last done j) hk).1]
      simp [freeList]
    have low := below j (by simp)
    obtain ⟨fuel, rfl⟩ : ∃ k, fuel = k + 1 := ⟨fuel - 1, by simp at enough; omega⟩
    rw [insertLoop]
    simp only [fwd, Nat.not_lt.mpr (Nat.le_of_lt low), ↓reduceIte, notLast]
    exact ih moved (map_link_last done j) (fun m mem => below m (by simp at mem ⊢; tauto)) fuel
      (by simp at enough ⊢; omega)

theorem tail_insert_links {xs : List Nat} {t : Nat}
    (ring : IsRing L slack freeList ((xs ++ [t]).map Entry.link)) :
    let L' := listAdd L (.link t) (.link base)
    listAdd L' (.link base) (.link base) =
      { L' with prev := Function.update L'.prev (.link base) (.link base) } := by
  intro L'
  have closed : IsRing L slack freeList ((xs ++ [t]).map Entry.link ++ []) := by simpa using ring
  have last : L.next (.link t) = freeList := (ring_neighbours closed (map_link_last xs t) rfl).1
  have notHead : Entry.link base ≠ freeList := by simp [freeList]
  have fwd : L'.next (.link base) = freeList := by
    simp [L', listAdd, listAddAfter, listInsert, Links.splice, last]
  have back : L'.prev freeList = .link base := by
    simp [L', listAdd, listAddAfter, listInsert, Links.splice, last, notHead.symm]
  simp only [listAdd, listAddAfter, listInsert, Links.splice, Links.mk.injEq]
  constructor
  · rw [Function.update_idem, Function.update_eq_self]
  · change Function.update (Function.update L'.prev (L'.next (.link base)) (.link base)) _ _ = _
    rw [fwd, ← back, Function.update_eq_self]

theorem sorted_cut {xs : List Nat} (sorted : xs.Pairwise (· < ·)) (fresh : base ∉ xs) :
    ∃ pre post, xs = pre ++ post ∧ (∀ j ∈ pre, j < base) ∧ ∀ j ∈ post, base < j := by
  induction xs with
  | nil => exact ⟨[], [], rfl, by simp, by simp⟩
  | cons x xs ih =>
    obtain ⟨first, rest⟩ := List.pairwise_cons.mp sorted
    by_cases low : x < base
    · obtain ⟨pre, post, split, below, above⟩ := ih rest (by simp at fresh; exact fresh.2)
      exact ⟨x :: pre, post, by simp [split], by simpa [low] using below, above⟩
    · have ne : base ≠ x := by simp at fresh; exact fresh.1
      have high : base < x := by omega
      refine ⟨[], x :: xs, rfl, by simp, ?_⟩
      intro j mem
      rcases List.mem_cons.mp mem with same | mem
      · omega
      · have := first j mem; omega

/- No entry after `i` on the list is linked back to itself. -/
def NextStraight (L : ListLinks) (i : Nat) : Prop :=
  ∀ j, L.next (.link i) = .link j → L.prev (.link j) ≠ .link j

theorem insert_page_run {s : State} {pre post : List Nat} {fuel : Nat}
    (ring : IsRing s.links (· ≠ freeList) freeList ((pre ++ post).map Entry.link))
    (below : ∀ j ∈ pre, j < base) (above : ∀ j ∈ post, base < j)
    (straight : ∀ i, post.head? = some i → s.links.prev (.link i) ≠ .link i)
    (enough : pre.length + 2 < fuel) :
    ∃ L', insertPage fuel s base = some { s with links := L' } ∧
      IsRing L' (· ≠ freeList) freeList ((pre ++ base :: post).map Entry.link) ∧
      NextStraight L' base := by
  have fresh : Entry.link base ∉ freeList :: (pre ++ post).map Entry.link := by
    simp only [List.mem_cons, List.mem_map, List.mem_append, Entry.link.injEq, exists_eq_right,
      freeList, reduceCtorEq, false_or]
    intro mem
    rcases mem with mem | mem
    · exact Nat.lt_irrefl _ (below base mem)
    · exact Nat.lt_irrefl _ (above base mem)
  have notHead : Entry.link base ≠ freeList := by simp [freeList]
  cases post with
  | cons i post =>
    have split : IsRing s.links (· ≠ freeList) freeList
        (pre.map Entry.link ++ (.link i :: post.map Entry.link)) := by simpa using ring
    have nonempty : listEmpty s.links freeList = false := by
      cases h : listEmpty s.links freeList
      · rfl
      · have := (list_empty_iff ring).mp h
        simp at this
    have walk : IsRing s.links (· ≠ freeList) freeList
        (([] ++ (pre ++ i :: post)).map Entry.link) := by simpa using ring
    have run : insertLoop base fuel s.links freeList =
        some (listAddBefore s.links (.link i) (.link base)) :=
      insert_loop_before walk rfl below (above i (by simp)) (by omega)
    refine ⟨listAddBefore s.links (.link i) (.link base), ?_, ?_, ?_⟩
    · simp [insertPage, nonempty, run]
    · have fresh' : Entry.link base ∉ freeList :: (pre.map Entry.link ++ (.link i :: post.map Entry.link)) := by
        simpa using fresh
      have := list_add_before_ring split (b := .link i) rfl
        (fun self => absurd self (straight i rfl)) fresh'
      simpa using this
    · intro j fwd
      have next : (listAddBefore s.links (.link i) (.link base)).next (.link base) = .link i := by
        simp [listAddBefore, listInsert, Links.splice]
      have same : Entry.link i = .link j := next.symm.trans fwd
      have ne : i ≠ base := Nat.ne_of_gt (above i (by simp))
      obtain rfl : i = j := by simpa using same
      simp [listAddBefore, listInsert, Links.splice, ne, Ne.symm ne]
  | nil =>
    have closed : IsRing s.links (· ≠ freeList) freeList (pre.map Entry.link ++ []) := by
      simpa using ring
    rcases List.eq_nil_or_concat pre with empty | ⟨front, t, split⟩
    · subst pre
      have isEmpty : listEmpty s.links freeList = true := (list_empty_iff ring).mpr (by simp)
      refine ⟨listAdd s.links freeList (.link base), by simp [insertPage, isEmpty], ?_, ?_⟩
      · simpa using list_add_ring closed (a := freeList) rfl (by simp [freeList])
      · intro j fwd
        have last : s.links.next freeList = freeList := (ring_neighbours closed rfl rfl).1
        have next : (listAdd s.links freeList (.link base)).next (.link base) = freeList := by
          simp [listAdd, listAddAfter, listInsert, Links.splice, last]
        exact absurd (next.symm.trans fwd) (by simp [freeList])
    · simp only [List.concat_eq_append] at split
      subst pre
      have nonempty : listEmpty s.links freeList = false := by
        cases h : listEmpty s.links freeList
        · rfl
        · have := (list_empty_iff ring).mp h
          simp at this
      have walk : IsRing s.links (· ≠ freeList) freeList
          (([] ++ (front ++ [t])).map Entry.link) := by simpa using ring
      have run : insertLoop base fuel s.links freeList =
          some (listAdd (listAdd s.links (.link t) (.link base)) (.link base) (.link base)) :=
        insert_loop_tail walk rfl below (by simp at enough; omega)
      have freshLink : Entry.link base ∉ freeList :: ((front ++ [t]).map Entry.link ++ []) := by
        simpa using fresh
      have inserted := list_add_ring closed (a := .link t) (by simpa using map_link_last front t)
        freshLink
      have ringTail : IsRing s.links (· ≠ freeList) freeList ((front ++ [t]).map Entry.link) := by
        simpa using ring
      refine ⟨listAdd (listAdd s.links (.link t) (.link base)) (.link base) (.link base),
        by simp [insertPage, nonempty, run], ?_, ?_⟩
      · rw [tail_insert_links ringTail]
        have := self_link_ring inserted notHead
        simpa using this
      · intro j fwd
        have last : s.links.next (.link t) = freeList :=
          (ring_neighbours closed (by simpa using map_link_last front t) rfl).1
        rw [tail_insert_links ringTail] at fwd
        have next : (listAdd s.links (.link t) (.link base)).next (.link base) = freeList := by
          simp [listAdd, listAddAfter, listInsert, Links.splice, last]
        exact absurd (next.symm.trans fwd) (by simp [freeList])

end Insertion

section Invariant
variable {lo size : Nat} {s : State} {xs pre post : List Nat} {live : List Block}

theorem free_perm (f : Nat → Block) (x : Nat) :
    ((pre ++ x :: post).map f).Perm (f x :: (pre ++ post).map f) := by
  simp

theorem middle_perm (f : Nat → Block) (x : Nat) :
    ((pre ++ x :: post).map f ++ live).Perm (f x :: ((pre ++ post).map f ++ live)) :=
  (free_perm f x).append_right live

theorem inv_block (inv : FreeInv lo size s xs live) {i : Nat} (mem : i ∈ xs) :
    0 < (s.pages i).property ∧ lo ≤ i ∧ i + (s.pages i).property ≤ lo + size := by
  have inside : freeBlock s i ∈ xs.map (freeBlock s) ++ live := by
    simp only [List.mem_append, List.mem_map]
    exact Or.inl ⟨i, mem, rfl⟩
  have within := inv.ledger.within _ inside
  exact ⟨inv.ledger.positive _ inside, within.1, within.2⟩

theorem inv_gap (inv : FreeInv lo size s xs live) {i j : Nat} (mi : i ∈ xs) (mj : j ∈ xs)
    (lt : i < j) : i + (s.pages i).property ≤ j := by
  have pairs := (List.pairwise_append.mp inv.ledger.apart).1
  rw [List.pairwise_map] at pairs
  have symm : Std.Symm fun a b => (freeBlock s a).Apart (freeBlock s b) := ⟨fun _ _ => apart_symm⟩
  have apart := pairs.forall mi mj (Nat.ne_of_lt lt)
  simp only [Block.Apart, freeBlock, stop_mk] at apart
  omega

theorem inv_live_apart (inv : FreeInv lo size s xs live) {i : Nat} {b : Block} (mi : i ∈ xs)
    (mb : b ∈ live) : (freeBlock s i).Apart b :=
  ledger_append_apart inv.ledger (List.mem_map_of_mem mi) mb

theorem inv_property_le (inv : FreeInv lo size s xs live) {i : Nat} (mem : i ∈ xs) :
    (s.pages i).property ≤ s.nrFree := by
  obtain ⟨front, back, rfl⟩ := List.append_of_mem mem
  rw [inv.counted]
  simp [freeBlock]
  omega

theorem inv_nrFree_le (inv : FreeInv lo size s xs live) : s.nrFree ≤ size := by
  have := inv.shared
  rw [total_append, ← inv.counted] at this
  omega

theorem map_freeBlock_congr {s' : State}
    (same : ∀ i ∈ xs, (s'.pages i).property = (s.pages i).property) :
    xs.map (freeBlock s') = xs.map (freeBlock s) := by
  apply List.map_congr_left
  intro i mem
  simp [freeBlock, same i mem]

theorem merge_grown {p q : Nat} (inv : FreeInv lo size s xs live) (mp : p ∈ xs) (mq : q ∈ xs)
    (touch : p + (s.pages p).property = q) (fits : size < wordSize) :
    u32 ((s.pages p).property + (s.pages q).property) = (s.pages p).property + (s.pages q).property := by
  have bp := inv_block inv mp
  have bq := inv_block inv mq
  exact u32_exact (by omega) (by omega)

theorem merge_property {p q : Nat} (ne : p ≠ q) (grown : u32 ((s.pages p).property + (s.pages q).property) =
      (s.pages p).property + (s.pages q).property) (i : Nat) :
    ((clearPageProperty (setProperty s p ((s.pages p).property + (s.pages q).property)) q).pages i).property =
      if i = p then (s.pages p).property + (s.pages q).property else (s.pages i).property := by
  simp only [clearPageProperty, setProperty, State.withPages, Pages.clearPageProperty, Pages.setProperty, Pages.edit]
  by_cases ip : i = p
  · subst i
    simp [ne, grown]
  · by_cases iq : i = q
    · subst i
      simp [ip]
    · simp [ip, iq]

/- Two free blocks that touch become one: the shared last step of both merges. -/
theorem merge_inv {p q : Nat} (inv : FreeInv lo size s (pre ++ p :: q :: post) live)
    (touch : p + (s.pages p).property = q) (straight : s.links.prev (.link q) ≠ .link q)
    (fits : size < wordSize) :
    let s' := clearPageProperty (setProperty s p ((s.pages p).property + (s.pages q).property)) q
    FreeInv lo size { s' with links := listDel s.links (.link q) } (pre ++ p :: post) live := by
  intro s'
  have mp : p ∈ pre ++ p :: q :: post := by simp
  have mq : q ∈ pre ++ p :: q :: post := by simp
  have bp := inv_block inv mp
  have ne : p ≠ q := by omega
  have grown := merge_grown inv mp mq touch fits
  have nodup : (pre ++ p :: q :: post).Nodup := inv.sorted.imp Nat.ne_of_lt
  have fresh : ∀ i ∈ pre ++ post, i ≠ p ∧ i ≠ q := by
    intro i mem
    simp [List.nodup_append] at nodup mem
    grind
  have properties : ∀ i, (s'.pages i).property =
      if i = p then (s.pages p).property + (s.pages q).property else (s.pages i).property := merge_property ne grown
  have others : (pre ++ post).map (freeBlock s') = (pre ++ post).map (freeBlock s) := by
    apply map_freeBlock_congr
    intro i mem
    simp [properties, (fresh i mem).1]
  have joined : freeBlock s' p = ⟨p, (s.pages p).property + (s.pages q).property⟩ := by
    simp [freeBlock, properties]
  have before : ((pre ++ p :: q :: post).map (freeBlock s) ++ live).Perm
      (freeBlock s p :: freeBlock s q :: ((pre ++ post).map (freeBlock s) ++ live)) :=
    (middle_perm _ p).trans ((middle_perm _ q).cons _)
  have merged : ((pre ++ p :: post).map (freeBlock s')).Perm
      (⟨p, (s.pages p).property + (s.pages q).property⟩ :: (pre ++ post).map (freeBlock s)) := by
    rw [← others, ← joined]
    exact free_perm (freeBlock s') p
  have after : ((pre ++ p :: post).map (freeBlock s') ++ live).Perm
      (⟨p, (s.pages p).property + (s.pages q).property⟩ ::
        ((pre ++ post).map (freeBlock s) ++ live)) := merged.append_right live
  have touching : freeBlock s q = ⟨p + (s.pages p).property, (s.pages q).property⟩ := by
    simp [freeBlock, touch]
  have ledger := ledger_perm before inv.ledger
  rw [touching] at ledger
  refine ⟨?_, ?_, ledger_perm after.symm (ledger_join ledger), ?_, ?_, ?_⟩
  · have ring : IsRing s.links (· ≠ freeList) freeList
        ((pre ++ [p]).map Entry.link ++ .link q :: post.map Entry.link) := by
      simpa using inv.ring
    have := list_del_ring ring straight
    simpa using this
  · exact inv.sorted.sublist (by simp)
  · have := inv.shared
    rw [total_perm before] at this
    change total ((pre ++ p :: post).map (freeBlock s') ++ live) = size
    rw [total_perm after]
    simp only [total_cons, freeBlock] at this ⊢
    omega
  · have := inv.counted
    change s.nrFree = total ((pre ++ p :: post).map (freeBlock s'))
    rw [total_perm merged, this, total_perm ((free_perm _ p).trans ((free_perm _ q).cons _))]
    simp only [total_cons, freeBlock]
    omega
  · intro i lower upper
    have flags := inv.flags i lower upper
    by_cases iq : i = q
    · subst i
      simp only [List.mem_append, List.mem_cons, true_or, or_true, iff_true] at flags
      have gone : q ∉ pre ++ p :: post := by
        simp [List.nodup_append] at nodup
        grind
      simpa [s', clearPageProperty, setProperty, State.withPages, Pages.clearPageProperty, Pages.setProperty, Pages.edit, Ne.symm ne, flags.1] using gone
    · by_cases ip : i = p
      · subst i
        simpa [s', clearPageProperty, setProperty, State.withPages, Pages.clearPageProperty, Pages.setProperty, Pages.edit, ne] using flags
      · simpa [s', clearPageProperty, setProperty, State.withPages, Pages.clearPageProperty, Pages.setProperty, Pages.edit, ip, iq] using flags

theorem merge_next_inv {b : Nat} (inv : FreeInv lo size s xs live) (mem : b ∈ xs)
    (straight : NextStraight s.links b) (fits : size < wordSize) :
    ∃ ys, FreeInv lo size (mergeNext s b) ys live := by
  obtain ⟨pre, post, rfl⟩ := List.append_of_mem mem
  have cut : IsRing s.links (· ≠ freeList) freeList
      ((pre ++ [b]).map Entry.link ++ post.map Entry.link) := by simpa using inv.ring
  unfold mergeNext
  cases post with
  | nil =>
    have fwd : s.links.next (.link b) = freeList :=
      (ring_neighbours cut (map_link_last pre b) rfl).1
    exact ⟨_, by simpa [fwd, freeList] using inv⟩
  | cons q post =>
    have fwd : s.links.next (.link b) = .link q :=
      (ring_neighbours cut (map_link_last pre b) rfl).1
    simp only [fwd]
    by_cases touch : b + (s.pages b).property = q
    · simp only [touch, ↓reduceIte]
      exact ⟨_, merge_inv inv touch (straight q fwd) fits⟩
    · simp only [touch, ↓reduceIte]
      exact ⟨_, inv⟩

theorem merge_prev_inv {base : Nat} (inv : FreeInv lo size s xs live) (mem : base ∈ xs)
    (straight : NextStraight s.links base) (fits : size < wordSize) :
    ∃ ys, FreeInv lo size (mergePrev s base).2 ys live ∧ (mergePrev s base).1 ∈ ys ∧
      NextStraight (mergePrev s base).2.links (mergePrev s base).1 := by
  obtain ⟨pre, post, rfl⟩ := List.append_of_mem mem
  have stay : ∃ ys, FreeInv lo size s ys live ∧ base ∈ ys ∧ NextStraight s.links base :=
    ⟨_, inv, mem, straight⟩
  have cut : IsRing s.links (· ≠ freeList) freeList
      (pre.map Entry.link ++ .link base :: post.map Entry.link) := by simpa using inv.ring
  unfold mergePrev
  rcases List.eq_nil_or_concat pre with empty | ⟨front, p, split⟩
  · subst pre
    rcases (ring_neighbours cut (a := freeList) rfl rfl).2 with back | ⟨_, self⟩
    · simpa [back, freeList] using stay
    · have := (inv_block inv mem).1
      have apart : ¬ base + (s.pages base).property = base := by omega
      simpa only [self, apart, ↓reduceIte] using stay
  · simp only [List.concat_eq_append] at split
    subst pre
    have mp : p ∈ (front ++ [p]) ++ base :: post := by simp
    have low : p < base := by
      have := inv.sorted
      rw [List.append_assoc, List.singleton_append] at this
      exact (List.pairwise_cons.mp (List.pairwise_append.mp this).2.1).1 base (by simp)
    rcases (ring_neighbours cut (map_link_last front p) rfl).2 with back | ⟨_, self⟩
    · simp only [back]
      by_cases touch : p + (s.pages p).property = base
      · simp only [touch, ↓reduceIte]
        have ne : s.links.prev (.link base) ≠ .link base := by
          rw [back]
          simp
          omega
        have inv' : FreeInv lo size s (front ++ p :: base :: post) live := by simpa using inv
        refine ⟨_, merge_inv inv' touch ne fits, by simp, ?_⟩
        -- the entry that followed base now follows p, and is linked back to p
        intro j fwd
        have wide : IsRing s.links (· ≠ freeList) freeList
            (((front ++ [p]) ++ [base]).map Entry.link ++ post.map Entry.link) := by
          simpa using inv.ring
        obtain ⟨e, after⟩ : ∃ e, (post.map Entry.link ++ [freeList]).head? = some e := by
          cases post <;> simp
        have old : s.links.next (.link base) = e :=
          (ring_neighbours wide (map_link_last _ base) after).1
        simp only [listDel, listUnlink, Links.bypass, back, clearPageProperty, setProperty,
          State.withPages, Pages.clearPageProperty, Pages.setProperty, Pages.edit, Function.update_self, old] at fwd ⊢
        have same : e = .link j := fwd
        have jp : j ∈ post := by
          rw [same] at after
          cases post with
          | nil => simp [freeList] at after
          | cons k post => simp at after; simp [after]
        have high : base < j := by
          have := inv.sorted
          exact (List.pairwise_cons.mp (List.pairwise_append.mp this).2.1).1 j jp
        have ne : p ≠ j := by omega
        simpa [same] using ne
      · simpa only [touch, ↓reduceIte] using stay
    · have := (inv_block inv mem).1
      have apart : ¬ base + (s.pages base).property = base := by omega
      simpa only [self, apart, ↓reduceIte] using stay

end Invariant

end Ucore.DefaultPmm
