import Ucore.Mm.KmallocSizes

/- What a call makes of the blocks, and runs of the calls. -/
namespace Ucore.Slob
open Words CyclicOrder Tiling Transitions
variable {arena a b fuel fuel' m size run n p x units : Nat} {F L P Q : Finset Nat} {g h t : Heap} {answers left growth : List Nat}
  {big : List BigBlock} {bb : BigBlock} {call : Call} {calls : List Call} {r : Option Nat × List Nat × Heap} {s u : Store}

theorem bases_cons : bases (bb :: big) = insert bb.base (bases big) := List.toFinset_cons

theorem mem_bases (mem : bb ∈ big) : bb.base ∈ bases big := List.mem_toFinset.mpr (List.mem_map_of_mem mem)

/- The large blocks stay outside when a page is obtained. -/
theorem Whole.outside_more (whole : Whole arena s) (fair : Fair arena s size growth run) (mem : bb ∈ s.heap.bigblocks) :
    Outside arena (s.pages ∪ obtained growth) bb.pages (runBytes bb) := by
  refine (whole.outside bb mem).more fun q obtained => ?_
  obtain ⟨given, some_page⟩ := mem_obtained.mp obtained
  exact ((fair.page q given some_page).2 bb mem).symm

/- Nothing is given or taken. -/
theorem Whole.same (whole : Whole arena s) (sound : Sound arena F (s.small ∪ bases s.heap.bigblocks) (s.pages ∪ obtained growth) t)
    (fair : Fair arena s size growth run) (kept : ∀ a ∈ s.small ∪ bases s.heap.bigblocks, t.units a = s.heap.units a) :
    Whole arena ⟨withBig s.heap.bigblocks t, s.small, s.pages ∪ obtained growth⟩ where
  sound := ⟨F, t, sound, rfl⟩
  distinct := whole.distinct
  apart := whole.apart
  descriptors a mem := (kept a (Finset.mem_union_right _ mem)).trans (whole.descriptors a mem)
  headers a mem := (whole.headers a mem).trans_eq (kept a (Finset.mem_union_left _ mem)).symm
  outside _ mem := whole.outside_more fair mem
  runs := whole.runs

theorem Whole.add_small (whole : Whole arena s)
    (sound : Sound arena F (insert m (s.small ∪ bases s.heap.bigblocks)) (s.pages ∪ obtained growth) t)
    (fair : Fair arena s size growth run) (new : m ∉ s.small ∪ bases s.heap.bigblocks) (two : 2 ≤ t.units m)
    (kept : ∀ a ∈ s.small ∪ bases s.heap.bigblocks, t.units a = s.heap.units a) :
    Whole arena ⟨withBig s.heap.bigblocks t, insert m s.small, s.pages ∪ obtained growth⟩ where
  sound := ⟨F, t, (Finset.insert_union m s.small _).symm ▸ sound, rfl⟩
  distinct := whole.distinct
  apart a mem := by
    rcases Finset.mem_insert.mp mem with rfl | old
    · exact fun base => new (Finset.mem_union_right _ base)
    · exact whole.apart a old
  descriptors a mem := (kept a (Finset.mem_union_right _ mem)).trans (whole.descriptors a mem)
  headers a mem := by
    rcases Finset.mem_insert.mp mem with rfl | old
    · exact two
    · exact (whole.headers a old).trans_eq (kept a (Finset.mem_union_left _ old)).symm
  outside _ mem := whole.outside_more fair mem
  runs := whole.runs

theorem Whole.add_big (whole : Whole arena s)
    (sound : Sound arena F (insert bb.base (s.small ∪ bases s.heap.bigblocks)) (s.pages ∪ obtained growth) t)
    (fair : Fair arena s size growth run) (new : bb.base ∉ s.small ∪ bases s.heap.bigblocks)
    (at_units : t.units bb.base = slobUnits sizeofBigblock)
    (kept : ∀ a ∈ s.small ∪ bases s.heap.bigblocks, t.units a = s.heap.units a)
    (outside : Outside arena (s.pages ∪ obtained growth) bb.pages (runBytes bb))
    (apart : RunsApart s.heap.bigblocks bb.pages (runBytes bb)) :
    Whole arena ⟨withBig (bb :: s.heap.bigblocks) t, s.small, s.pages ∪ obtained growth⟩ where
  sound := by
    refine ⟨F, t, ?_, rfl⟩
    change Sound arena F (s.small ∪ bases (bb :: s.heap.bigblocks)) _ t
    rw [bases_cons, Finset.union_insert]
    exact sound
  distinct := by
    refine List.nodup_cons.mpr ⟨fun mem => new (Finset.mem_union_right _ ?_), whole.distinct⟩
    exact List.mem_toFinset.mpr mem
  apart a mem base := by
    change a ∈ bases (bb :: s.heap.bigblocks) at base
    rw [bases_cons] at base
    rcases Finset.mem_insert.mp base with rfl | old
    · exact new (Finset.mem_union_left _ mem)
    · exact whole.apart a mem old
  descriptors a mem := by
    change a ∈ bases (bb :: s.heap.bigblocks) at mem
    rw [bases_cons] at mem
    rcases Finset.mem_insert.mp mem with rfl | old
    · exact at_units
    · exact (kept a (Finset.mem_union_right _ old)).trans (whole.descriptors a old)
  headers a mem := (whole.headers a mem).trans_eq (kept a (Finset.mem_union_left _ mem)).symm
  outside other mem := by
    rcases List.mem_cons.mp mem with rfl | old
    · exact outside
    · exact whole.outside_more fair old
  runs := List.pairwise_cons.mpr ⟨apart, whole.runs⟩

def Outcome (arena : Nat) (s : Store) (size : Nat) (growth : List Nat) (m : Option Nat) (t : Heap) : Prop :=
  Whole arena (s.after size growth m t) ∧ ∀ block, m = some block → ∃ n, Gives s (s.after size growth m t) block n ∧
    (size < 4080 → size ≤ n) ∧ (4080 ≤ size → n = PAGE_SIZE <<< findOrder (i32 size))

theorem after_none (s : Store) (size : Nat) (growth : List Nat) (t : Heap) :
    s.after size growth none t = ⟨t, s.small, s.pages ∪ obtained growth⟩ := by
  unfold Store.after
  rw [Option.map_none, Option.toFinset_none, Finset.union_empty, ite_self]

theorem after_small (small : size < 4080) (s : Store) (growth : List Nat) (m : Nat) (t : Heap) :
    s.after size growth (some (m + SLOB_UNIT)) t = ⟨t, insert m s.small, s.pages ∪ obtained growth⟩ := by
  unfold Store.after
  rw [if_pos (by unfold PAGE_SIZE SLOB_UNIT; omega), Option.map_some, Nat.add_sub_cancel, Option.toFinset_some,
    Finset.union_comm, ← Finset.insert_eq]

theorem after_big (large : 4080 ≤ size) (s : Store) (growth : List Nat) (m : Option Nat) (t : Heap) :
    s.after size growth m t = ⟨t, s.small, s.pages ∪ obtained growth⟩ := by
  unfold Store.after
  rw [if_neg (by unfold PAGE_SIZE SLOB_UNIT; omega)]

theorem units_same (same : s.heap = withBig big g) (a : Nat) : g.units a = s.heap.units a :=
  congrFun (congrArg Heap.units same).symm a

/- A live block has two units, and the arena one. -/
theorem Whole.away (whole : Whole arena s) (sound : Sound arena F (s.small ∪ bases s.heap.bigblocks) s.pages g)
    (same : s.heap = withBig s.heap.bigblocks g) : arena ∉ s.small ∪ bases s.heap.bigblocks := by
  intro mem
  have unit := sound.unit
  rw [units_same same] at unit
  rcases Finset.mem_union.mp mem with small | base
  · have two := whole.headers arena small
    omega
  · have two : s.heap.units arena = 2 := whole.descriptors arena base
    omega

theorem lacked (whole : Whole arena s) (sound : Sound arena F (s.small ∪ bases s.heap.bigblocks) (s.pages ∪ obtained growth) t)
    (fair : Fair arena s size growth run) (kept : ∀ a ∈ s.small ∪ bases s.heap.bigblocks, t.units a = s.heap.units a) :
    Outcome arena s size growth none (withBig s.heap.bigblocks t) := by
  refine ⟨?_, fun block is => nomatch is⟩
  rw [after_none]
  exact whole.same sound fair kept

theorem small_outcome (whole : Whole arena s) (low : 1 ≤ size) (high : size < 4064) (fair : Fair arena s size growth run) :
    ∃ fuel m left t, kmalloc fuel size (growth ++ [run]) s.heap = some (m, left, t) ∧ Outcome arena s size growth m t := by
  obtain ⟨F, g, sound, same⟩ := whole.sound
  have is_header : header size = size + SLOB_UNIT := header_small (by omega)
  have unit : SLOB_UNIT = 16 := rfl
  obtain ⟨fuel, b, t, done, served⟩ := fair_alloc sound (whole.away sound same) same fair (by omega) (by omega)
  rw [is_header] at done served
  refine ⟨fuel, b.map (· + SLOB_UNIT), [run], withBig s.heap.bigblocks t, ?_, ?_⟩
  · rw [kmalloc_small (by omega), same, alloc_big (by omega), done]
    rfl
  cases b with
  | none =>
    obtain ⟨rfl, got⟩ := served.lacks
    exact lacked whole (got.symm ▸ sound) fair fun a _ => units_same same a
  | some m =>
    obtain ⟨F', sound', new, at_units, kept⟩ := served.gives
    have kept' : ∀ a ∈ s.small ∪ bases s.heap.bigblocks, t.units a = s.heap.units a := fun a mem =>
      (kept a mem).trans (units_same same a)
    have room := room_left size
    have two : 2 ≤ slobUnits (size + SLOB_UNIT) := by
      unfold slobUnits SLOB_UNIT
      omega
    unfold Outcome
    rw [Option.map_some, after_small (by omega)]
    refine ⟨whole.add_small sound' fair new (two.trans_eq at_units.symm) kept', fun block is => ?_⟩
    obtain rfl := Option.some.inj is
    have size_bytes : bytes t m = slobUnits (size + SLOB_UNIT) * SLOB_UNIT := by
      unfold bytes
      rw [at_units]
    refine ⟨bytes t m - SLOB_UNIT, ⟨.inl ⟨m, Finset.mem_insert_self _ _, rfl, ?_⟩, ?_⟩, fun _ => by omega, fun _ => by omega⟩
    · change bytes t m - SLOB_UNIT + SLOB_UNIT = bytes t m
      omega
    rintro a n (⟨mem, rfl⟩ | ⟨bb, mem, rfl, rfl⟩)
    · have ne : a ≠ m := fun is => new (is ▸ mem)
      have same_bytes : bytes s.heap a = bytes t a := by
        unfold bytes
        rw [kept' a mem]
      have clear := sound'.blocks_apart (mem_live (Finset.mem_insert_self m _)) (mem_live (Finset.mem_insert_of_mem mem)) ne.symm
      unfold Apart at clear
      omega
    · have clear := (whole.outside_more fair mem).block_apart (Nat.lt_of_lt_of_le (by decide) (run_positive bb.order)) sound'.toLaid
        (mem_live (Finset.mem_insert_self m _))
      omega

/- `__kmalloc` once it has a descriptor. -/
def bigRest (fuel size : Nat) : Option Nat × List Nat × Heap → Option (Option Nat × List Nat × Heap)
  | (none, answers, h) => some (none, answers, h)
  | (some _, [], _) => none
  | (some bb, pages :: answers, h) =>
      if pages ≠ 0 then some (some pages, answers, { h with bigblocks := ⟨bb, findOrder (i32 size), pages⟩ :: h.bigblocks })
      else (slobFree fuel bb sizeofBigblock h).map fun h => (none, answers, h)

theorem kmalloc_big (large : 4080 ≤ size) (fuel : Nat) (answers : List Nat) (h : Heap) :
    kmalloc fuel size answers h = (slobAlloc fuel sizeofBigblock 0 answers h).bind (bigRest fuel size) := by
  unfold kmalloc
  rw [if_neg (by unfold PAGE_SIZE SLOB_UNIT; omega)]
  change Option.bind _ _ = _
  congr 1
  funext r
  rcases r with ⟨_ | bb, _ | ⟨pages, answers⟩, h⟩
  · rfl
  · rfl
  · rfl
  · unfold bigRest
    dsimp only
    split_ifs with some_pages
    · rfl
    · exact Option.map_eq_bind.symm

theorem big_outcome (whole : Whole arena s) (large : 4080 ≤ size) (fair : Fair arena s size growth run) :
    ∃ fuel m left t, kmalloc fuel size (growth ++ [run]) s.heap = some (m, left, t) ∧ Outcome arena s size growth m t := by
  obtain ⟨F, g, sound, same⟩ := whole.sound
  have is_header : header size = sizeofBigblock := header_big large
  obtain ⟨fuel, b, t, done, served⟩ := fair_alloc sound (whole.away sound same) same fair (by rw [is_header]; decide) (by rw [is_header]; decide)
  rw [is_header] at done served
  have alloced : ∀ more, slobAlloc (fuel + more) sizeofBigblock 0 (growth ++ [run]) s.heap =
      some (b, [run], withBig s.heap.bigblocks t) := by
    intro more
    rw [same, alloc_big (by decide), alloc_mono (by decide) done (Nat.le_add_right fuel more)]
    rfl
  cases b with
  | none =>
    obtain ⟨rfl, got⟩ := served.lacks
    refine ⟨fuel + 0, none, [run], withBig s.heap.bigblocks t, ?_, lacked whole (got.symm ▸ sound) fair fun a _ =>
      units_same same a⟩
    rw [kmalloc_big large, alloced]
    rfl
  | some m =>
    obtain ⟨F', sound', new, at_units, kept⟩ := served.gives
    have kept' : ∀ a ∈ s.small ∪ bases s.heap.bigblocks, t.units a = s.heap.units a := fun a mem =>
      (kept a mem).trans (units_same same a)
    by_cases lack : run = 0
    · subst lack
      have away := sound'.gives_away (whole.away sound same) (at_units ▸ (by decide))
      have live := Finset.mem_insert_self m (s.small ∪ bases s.heap.bigblocks)
      obtain ⟨t', F'', freed, sound'', kept'', _⟩ := free_run sound' (fun mem => absurd mem away) live
        (sound'.not_meets_only away live) (Nat.lt_succ_self _)
      rw [Finset.erase_insert new] at sound'' kept''
      refine ⟨fuel + (F'.card + 1), none, [], withBig s.heap.bigblocks t', ?_, lacked whole sound'' fair fun a mem =>
        (kept'' a mem).trans (kept' a mem)⟩
      rw [kmalloc_big large, alloced]
      change Option.map _ (slobFree _ m sizeofBigblock _) = _
      rw [free_big, free_sized at_units, free_mono freed (Nat.le_add_left _ fuel)]
      rfl
    · obtain ⟨outside, apart⟩ := fair.whole lack
      let bb : BigBlock := ⟨m, findOrder (i32 size), run⟩
      refine ⟨fuel + 0, some run, [], withBig (bb :: s.heap.bigblocks) t, ?_, ?_⟩
      · rw [kmalloc_big large, alloced]
        exact if_pos lack
      unfold Outcome
      rw [after_big large]
      refine ⟨whole.add_big sound' fair new at_units kept' outside apart, fun block is => ?_⟩
      obtain rfl := Option.some.inj is
      refine ⟨runBytes bb, ⟨.inr ⟨bb, List.mem_cons_self, rfl, rfl⟩, ?_⟩, fun small => by omega, fun _ => rfl⟩
      rintro a n (⟨mem, rfl⟩ | ⟨other, mem, rfl, rfl⟩)
      · have clear := outside.block_apart (Nat.lt_of_lt_of_le (by decide) (run_positive bb.order)) sound'.toLaid
          (mem_live (Finset.mem_insert_of_mem mem))
        unfold bytes at clear ⊢
        rw [kept' a mem] at clear
        exact clear
      · exact apart other mem

theorem whole_outcome (whole : Whole arena s) (low : 1 ≤ size) (none_between : size < 4064 ∨ 4080 ≤ size)
    (fair : Fair arena s size growth run) :
    ∃ fuel m left t, kmalloc fuel size (growth ++ [run]) s.heap = some (m, left, t) ∧ Outcome arena s size growth m t := by
  rcases none_between with high | large
  · exact small_outcome whole low high fair
  · exact big_outcome whole large fair

/- With its header the request is one that `slob_alloc` refuses. -/
theorem kmalloc_fails (low : 4064 ≤ size) (high : size < 4080) (fuel : Nat) (answers : List Nat) (h : Heap) :
    kmalloc fuel size answers h = none := by
  rw [kmalloc_small high]
  unfold slobAlloc
  rw [if_neg (by unfold SLOB_UNIT PAGE_SIZE; omega)]
  rfl

theorem kmalloc_mono (ends : kmalloc fuel size answers h = some r) (more : fuel ≤ fuel') :
    kmalloc fuel' size answers h = some r := by
  by_cases small : size < 4080
  · by_cases fails : 4064 ≤ size
    · rw [kmalloc_fails fails small] at ends
      cases ends
    · have unit : SLOB_UNIT = 16 := rfl
      rw [kmalloc_small small] at ends ⊢
      obtain ⟨r', alloced, is⟩ := Option.map_eq_some_iff.mp ends
      rw [alloc_mono (by omega) alloced more]
      exact congrArg some is
  · rw [kmalloc_big (by omega)] at ends ⊢
    obtain ⟨⟨b, left, t⟩, alloced, rest⟩ := Option.bind_eq_some_iff.mp ends
    rw [alloc_mono (by decide) alloced more]
    change bigRest fuel' size (b, left, t) = some r
    rcases b with _ | bb
    · exact rest
    rcases left with _ | ⟨pages, left⟩
    · cases rest
    · unfold bigRest at rest ⊢
      dsimp only at rest ⊢
      split_ifs at rest ⊢ with some_pages
      · exact rest
      · obtain ⟨t', freed, is⟩ := Option.map_eq_some_iff.mp rest
        exact Option.map_eq_some_iff.mpr ⟨t', free_mono freed more, is⟩

theorem bases_erase (distinct : (big.map (·.base)).Nodup) (mem : bb ∈ big) : bases (big.erase bb) = (bases big).erase bb.base := by
  ext a
  unfold bases
  simp only [Finset.mem_erase, List.mem_toFinset, List.mem_map, distinct.of_map.mem_erase_iff]
  constructor
  · rintro ⟨c, ⟨ne, mc⟩, rfl⟩
    exact ⟨fun same => ne (List.inj_on_of_nodup_map distinct mc mem same), c, mc, rfl⟩
  · rintro ⟨ne, c, mc, rfl⟩
    exact ⟨c, ⟨fun same => ne (congrArg BigBlock.base same), mc⟩, rfl⟩

theorem Whole.remove_small (whole : Whole arena s)
    (sound : Sound arena F ((s.small ∪ bases s.heap.bigblocks).erase b) s.pages t) (mem : b ∈ s.small)
    (kept : ∀ a ∈ (s.small ∪ bases s.heap.bigblocks).erase b, t.units a = s.heap.units a) :
    Whole arena ⟨withBig s.heap.bigblocks t, s.small.erase b, s.pages⟩ := by
  rw [Finset.erase_union_distrib, Finset.erase_eq_of_notMem (whole.apart b mem)] at sound kept
  exact {
    sound := ⟨F, t, sound, rfl⟩
    distinct := whole.distinct
    apart := fun a there => whole.apart a (Finset.mem_of_mem_erase there)
    descriptors := fun a there => (kept a (Finset.mem_union_right _ there)).trans (whole.descriptors a there)
    headers := fun a there => (whole.headers a (Finset.mem_of_mem_erase there)).trans_eq (kept a (Finset.mem_union_left _ there)).symm
    outside := whole.outside
    runs := whole.runs }

theorem Whole.remove_big (whole : Whole arena s) (mem : bb ∈ s.heap.bigblocks)
    (sound : Sound arena F ((s.small ∪ bases s.heap.bigblocks).erase bb.base) s.pages t)
    (kept : ∀ a ∈ (s.small ∪ bases s.heap.bigblocks).erase bb.base, t.units a = s.heap.units a) :
    Whole arena ⟨withBig (s.heap.bigblocks.erase bb) t, s.small, s.pages⟩ := by
  have other : bb.base ∉ s.small := fun small => whole.apart _ small (mem_bases mem)
  have rest := bases_erase whole.distinct mem
  rw [Finset.erase_union_distrib, Finset.erase_eq_of_notMem other, ← rest] at sound kept
  exact {
    sound := ⟨F, t, sound, rfl⟩
    distinct := whole.distinct.sublist (List.erase_sublist.map _)
    apart := fun a small base => whole.apart a small (Finset.mem_of_mem_erase (rest ▸ base))
    descriptors := fun a base => (kept a (Finset.mem_union_right _ base)).trans
      (whole.descriptors a (Finset.mem_of_mem_erase (rest ▸ base)))
    headers := fun a small => (whole.headers a small).trans_eq (kept a (Finset.mem_union_left _ small)).symm
    outside := fun c there => whole.outside c (List.mem_of_mem_erase there)
    runs := whole.runs.sublist List.erase_sublist }

/- A small block is not taken for a large one: what is behind its header is still its own. -/
theorem kfree_small_eq (whole : Whole arena s) (mem : b ∈ s.small) (fuel : Nat) :
    kfree fuel (b + SLOB_UNIT) s.heap = slobFree fuel b 0 s.heap := by
  obtain ⟨F, g, sound, same⟩ := whole.sound
  have absent : s.heap.bigblocks.find? (·.pages = b + SLOB_UNIT) = none := by
    refine List.find?_eq_none.mpr fun bb there is => ?_
    have clear := (whole.outside bb there).block_apart (Nat.lt_of_lt_of_le (by decide) (run_positive bb.order)) sound.toLaid
      (mem_live (Finset.mem_union_left _ mem))
    have positive : PAGE_SIZE ≤ runBytes bb := run_positive bb.order
    have two : 2 ≤ g.units b := (whole.headers b mem).trans_eq (units_same same b).symm
    have at_pages : bb.pages = b + SLOB_UNIT := of_decide_eq_true is
    unfold runBytes at positive
    unfold bytes at clear
    unfold PAGE_SIZE at positive
    unfold SLOB_UNIT at *
    omega
  unfold kfree
  rw [if_neg (by unfold SLOB_UNIT; omega), absent, ite_self, Nat.add_sub_cancel]

theorem kfree_big_eq (whole : Whole arena s) (mem : bb ∈ s.heap.bigblocks) (fuel : Nat) :
    kfree fuel bb.pages s.heap = slobFree fuel bb.base sizeofBigblock (withBig (s.heap.bigblocks.erase bb) s.heap) := by
  have outside := whole.outside bb mem
  have here : s.heap.bigblocks.find? (·.pages = bb.pages) = some bb := by
    cases found : s.heap.bigblocks.find? (·.pages = bb.pages) with
    | none => exact absurd (decide_eq_true rfl) (List.find?_eq_none.mp found bb mem)
    | some other =>
      by_contra ne
      have matched := List.find?_some found
      have same : other.pages = bb.pages := of_decide_eq_true matched
      have clear := whole.runs.forall (List.mem_of_find?_eq_some found) mem fun is => ne (congrArg some is)
      have one := run_positive other.order
      have two := run_positive bb.order
      unfold RunsBeside runBytes at clear
      unfold PAGE_SIZE at one two clear
      omega
  unfold kfree
  rw [if_neg outside.nonzero, if_pos (Nat.mod_eq_zero_of_dvd outside.aligned), here]
  rfl

theorem kfree_small (whole : Whole arena s) (mem : b ∈ s.small) (done : kfree fuel (b + SLOB_UNIT) s.heap = some t) :
    Whole arena ⟨t, s.small.erase b, s.pages⟩ := by
  obtain ⟨F, g, sound, same⟩ := whole.sound
  rw [kfree_small_eq whole mem, same, free_big] at done
  obtain ⟨t', freed, rfl⟩ := Option.map_eq_some_iff.mp done
  have away := whole.away sound same
  have live := Finset.mem_union_left (bases s.heap.bigblocks) mem
  obtain ⟨t'', F', freed', sound', kept, _⟩ := free_run sound (fun mem => absurd mem away) live
    (sound.not_meets_only away live) (Nat.lt_succ_self _)
  obtain rfl := free_unique freed freed'
  exact whole.remove_small sound' mem fun a there => (kept a there).trans (units_same same a)

theorem kfree_big (whole : Whole arena s) (mem : bb ∈ s.heap.bigblocks) (done : kfree fuel bb.pages s.heap = some t) :
    Whole arena ⟨t, s.small, s.pages⟩ := by
  obtain ⟨F, g, sound, same⟩ := whole.sound
  have at_units : g.units bb.base = slobUnits sizeofBigblock :=
    (units_same same bb.base).trans (whole.descriptors _ (mem_bases mem))
  have plain : withBig (s.heap.bigblocks.erase bb) s.heap = withBig (s.heap.bigblocks.erase bb) g := by
    conv_lhs => rw [same]
    rfl
  rw [kfree_big_eq whole mem, plain, free_big, free_sized at_units] at done
  obtain ⟨t', freed, rfl⟩ := Option.map_eq_some_iff.mp done
  have away := whole.away sound same
  have live := Finset.mem_union_right s.small (mem_bases mem)
  obtain ⟨t'', F', freed', sound', kept, _⟩ := free_run sound (fun mem => absurd mem away) live
    (sound.not_meets_only away live) (Nat.lt_succ_self _)
  obtain rfl := free_unique freed freed'
  exact whole.remove_big mem sound' fun a there => (kept a there).trans (units_same same a)

theorem step_whole (whole : Whole arena s) (step : SizeStep arena s call u) : Whole arena u := by
  cases step with
  | @kmalloc fuel size run growth left m t low fair done =>
    have none_between : size < 4064 ∨ 4080 ≤ size := by
      by_contra between
      obtain ⟨above, below⟩ := not_or.mp between
      rw [kmalloc_fails (by omega) (by omega)] at done
      cases done
    obtain ⟨fuel', m', left', t', done', whole', _⟩ := whole_outcome whole low none_between fair
    have one := kmalloc_mono done (Nat.le_max_left fuel fuel')
    rw [kmalloc_mono done' (Nat.le_max_right fuel fuel')] at one
    obtain ⟨rfl, rfl, rfl⟩ := one
    exact whole'
  | kfree mem done => exact kfree_small whole mem done
  | kfreeBig mem done => exact kfree_big whole mem done

theorem empty_whole (arena : Nat) : Whole arena (empty arena) := by
  have sound := initial_sound arena
  have none_live : (empty arena).small ∪ bases (empty arena).heap.bigblocks = ∅ := rfl
  exact {
    sound := ⟨{arena}, (initial arena).heap, none_live ▸ sound, rfl⟩
    distinct := List.nodup_nil
    apart := fun b mem => absurd mem (Finset.notMem_empty b)
    descriptors := fun b mem => absurd mem (Finset.notMem_empty b)
    headers := fun b mem => absurd mem (Finset.notMem_empty b)
    outside := fun b mem => absurd mem List.not_mem_nil
    runs := List.Pairwise.nil }

/- `alloc_pages` may have no memory. -/
theorem fair_lack (arena : Nat) (s : Store) (size : Nat) : ∃ growth, Fair arena s size growth 0 := by
  by_cases room : ∃ a, Listed s.heap a ∧ slobUnits (header size) ≤ s.heap.units a
  · exact ⟨[], by decide, iff_of_true rfl room, fun p mem => absurd mem List.not_mem_nil, fun lack => absurd rfl lack⟩
  · exact ⟨[0], by decide, iff_of_false (List.cons_ne_nil 0 []) room, fun p mem some_page => absurd (List.mem_singleton.mp mem)
      some_page, fun lack => absurd rfl lack⟩

theorem honours_iff (whole : Whole arena s) (low : 1 ≤ size) : HonoursSize arena s size ↔ Fits size := by
  constructor
  · rintro ⟨enough, ends⟩
    by_cases small : size < 4064
    · exact .inl small
    by_cases large : 4080 ≤ size
    · exact .inr ⟨large, (whole_run_iff size).mp (enough large)⟩
    · obtain ⟨growth, fair⟩ := fair_lack arena s size
      obtain ⟨fuel, m, left, t, done, _⟩ := ends growth 0 fair
      rw [kmalloc_fails (by omega) (by omega)] at done
      cases done
  · intro fits
    have enough : 4080 ≤ size → size ≤ PAGE_SIZE <<< findOrder (i32 size) := by
      intro large
      rcases fits with small | ⟨_, covered⟩
      · omega
      · exact (whole_run_iff size).mpr covered
    refine ⟨enough, fun growth run fair => ?_⟩
    obtain ⟨fuel, m, left, t, done, _, gives⟩ := whole_outcome whole low (fits.imp_right And.left) fair
    refine ⟨fuel, m, left, t, done, fun block is => ?_⟩
    obtain ⟨n, given, short, long⟩ := gives block is
    refine ⟨n, ?_, given⟩
    by_cases small : size < 4080
    · exact short small
    · exact (enough (by omega)).trans_eq (long (by omega)).symm

theorem sizes_honoured_exactly_when (run : Run (SizeStep arena) (empty arena) calls s) (low : 1 ≤ size) :
    HonoursSize arena s size ↔ Fits size := by
  have keep : ∀ s c u, Whole arena s → SizeStep arena s c u → Whole arena u := fun _ _ _ => step_whole
  exact honours_iff (run_invariant keep run (empty_whole arena)) low

theorem fits_9000 : Fits 9000 := by
  refine .inr ⟨by decide, by decide, fun k => ?_⟩
  by_cases few : k < 2
  · interval_cases k <;> decide
  · have := Nat.pow_le_pow_right (n := 2) (by decide) (show 2 ≤ k by omega)
    omega

/- Two pages for 5000 bytes, with the descriptor in a page of its own, then a small block. -/
theorem pages_and_block_honoured : ∃ s, s.small = {4128} ∧ s.heap.bigblocks.map (·.pages) = [8192] ∧ s.pages = {4096} ∧
    HonoursSize 100 s 9000 := by
  have order : findOrder (i32 (5000 : Nat)) = 1 := by
    unfold findOrder
    rw [if_pos (by decide)]
    unfold findOrder
    rw [if_neg (by decide)]
  have page : Outside 100 (empty 100).pages 4096 PAGE_SIZE :=
    ⟨by decide, by decide, by decide, fun q mem => absurd mem (Finset.notMem_empty q)⟩
  have pages : Outside 100 ((empty 100).pages ∪ obtained [4096]) 8192 (PAGE_SIZE <<< findOrder (i32 (5000 : Nat))) := by
    rw [order]
    exact ⟨by decide, by decide, by decide, by decide⟩
  have first_fair : Fair 100 (empty 100) 5000 [4096] 8192 := by
    refine ⟨by decide, iff_of_false (List.cons_ne_nil 4096 []) ?_, fun p mem _ => ?_, fun _ => ⟨pages, fun bb mem => absurd mem
      List.not_mem_nil⟩⟩
    · rintro ⟨a, _, room⟩
      exact absurd (show 2 ≤ 1 from room) (by decide)
    · obtain rfl := List.mem_singleton.mp mem
      exact ⟨page, fun bb mem => absurd mem List.not_mem_nil⟩
  have first := @SizeStep.kmalloc 100 (empty 100) 9 5000 8192 [4096] [] (some 8192) _ (by decide) first_fair rfl
  have run := Run.call first (.call (@SizeStep.kmalloc 100 _ 9 100 0 [] [0] (some 4144) _ (by decide)
    ⟨by decide, iff_of_true rfl ⟨4128, ⟨1, by decide⟩, by decide⟩, fun p mem => absurd mem List.not_mem_nil,
      fun lack => absurd rfl lack⟩ rfl) (.stop _))
  exact ⟨_, by decide, rfl, by decide, (sizes_honoured_exactly_when run (by decide)).mpr fits_9000⟩

/- 4064 bytes with the header are a whole page, which the assertion excludes; 8193 bytes do not fit into two pages. -/
theorem some_sizes_not_honoured : ¬ (HonoursSize 100 (empty 100) 4064 ∨ HonoursSize 100 (empty 100) 8193) := by
  rw [honours_iff (empty_whole 100) (by decide), honours_iff (empty_whole 100) (by decide)]
  rintro (fits | fits)
  · unfold Fits at fits
    omega
  · have between := (fits.resolve_left (by decide)).2.2 1
    exact between (by decide)

end Ucore.Slob
