import Ucore.Lib.Transitions
import Ucore.Mm.KmallocSteps

/- Sequences of `kmalloc` and `kfree` of small blocks. -/
namespace Ucore.Slob
open CyclicOrder Tiling
variable {arena a b c k n m p x size units align cur prev fuel fuel' : Nat} {F L P : Finset Nat} {h t u : Heap} {answers left : List Nat}
  {r : Option Nat × List Nat × Heap}

/- More fuel changes nothing. -/
theorem find_mono (found : slobFind b h fuel cur = some c) (more : fuel ≤ fuel') : slobFind b h fuel' cur = some c := by
  induction fuel generalizing cur fuel' with
  | zero => cases found
  | succ fuel ih =>
    obtain ⟨less, rfl⟩ : ∃ less, fuel' = less + 1 := ⟨fuel' - 1, by omega⟩
    unfold slobFind at found ⊢
    split_ifs at found ⊢ with test
    · exact found
    · exact ih found (by omega)

theorem free_mono (freed : slobFree fuel b size h = some t) (more : fuel ≤ fuel') : slobFree fuel' b size h = some t := by
  unfold slobFree at freed ⊢
  by_cases none_given : b = 0
  · rw [if_pos none_given] at freed ⊢
    exact freed
  · rw [if_neg none_given] at freed ⊢
    dsimp only at freed ⊢
    obtain ⟨cur, found, merged⟩ := Option.map_eq_some_iff.mp freed
    exact Option.map_eq_some_iff.mpr ⟨cur, find_mono found more, merged⟩

theorem free_unique (first : slobFree fuel b size h = some t) (second : slobFree fuel' b size h = some u) : t = u := by
  have one := free_mono first (Nat.le_max_left fuel fuel')
  rw [free_mono second (Nat.le_max_right fuel fuel')] at one
  exact (Option.some.inj one).symm

/- What the loop does once it is round. -/
def slobGrow (size units align fuel : Nat) (answers : List Nat) (h : Heap) : Option (Option Nat × List Nat × Heap) :=
  match answers with
  | [] => none
  | page :: answers =>
      if page = 0 then some (none, answers, h)
      else (slobFree fuel page PAGE_SIZE h).bind fun h =>
        slobLoop size units align fuel answers h.slobfree (h.next h.slobfree) h

theorem loop_take (room : units ≤ h.units cur) :
    slobLoop size units 0 (fuel + 1) answers prev cur h =
      some (some (takeBlock units 0 prev cur h).1, answers, (takeBlock units 0 prev cur h).2) := by
  unfold slobLoop
  dsimp only
  rw [if_neg (show ¬ (0 : Nat) ≠ 0 from not_not.mpr rfl), Nat.add_zero, if_pos room]

theorem loop_grow (small : size ≠ PAGE_SIZE) (full : ¬ units ≤ h.units cur) (round : cur = h.slobfree) :
    slobLoop size units 0 (fuel + 1) answers prev cur h = slobGrow size units 0 fuel answers h := by
  unfold slobLoop
  dsimp only
  rw [if_neg (show ¬ (0 : Nat) ≠ 0 from not_not.mpr rfl), Nat.add_zero, if_neg full, if_pos round, if_neg small]
  rfl

theorem loop_next (full : ¬ units ≤ h.units cur) (on : cur ≠ h.slobfree) :
    slobLoop size units 0 (fuel + 1) answers prev cur h = slobLoop size units 0 fuel answers cur (h.next cur) h := by
  conv_lhs => unfold slobLoop
  dsimp only
  rw [if_neg (show ¬ (0 : Nat) ≠ 0 from not_not.mpr rfl), Nat.add_zero, if_neg full, if_neg on]

theorem loop_mono (small : size ≠ PAGE_SIZE) (done : slobLoop size units 0 fuel answers prev cur h = some r)
    (more : fuel ≤ fuel') : slobLoop size units 0 fuel' answers prev cur h = some r := by
  induction fuel generalizing fuel' answers prev cur h with
  | zero => cases done
  | succ fuel ih =>
    obtain ⟨less, rfl⟩ : ∃ less, fuel' = less + 1 := ⟨fuel' - 1, by omega⟩
    by_cases room : units ≤ h.units cur
    · rw [loop_take room] at done ⊢
      exact done
    · by_cases round : cur = h.slobfree
      · rw [loop_grow small room round] at done ⊢
        unfold slobGrow at done ⊢
        cases answers with
        | nil => cases done
        | cons page answers =>
          dsimp only at done ⊢
          split_ifs at done ⊢ with lack
          · exact done
          · obtain ⟨t, freed, later⟩ := Option.bind_eq_some_iff.mp done
            exact Option.bind_eq_some_iff.mpr ⟨t, free_mono freed (by omega), ih later (by omega)⟩
      · rw [loop_next room round] at done ⊢
        exact ih done (by omega)

/- From behind `prev` up to the first time at the start of the list: a block with room is taken, or there is none. -/
theorem pass (small : size ≠ PAGE_SIZE) (circle : Circle F h.next) (mp : prev ∈ F)
    (last : h.next^[k] (h.next prev) = h.slobfree) (first : ∀ i < k, h.next^[i] (h.next prev) ≠ h.slobfree) :
    (∃ p ∈ F, units ≤ h.units (h.next p) ∧ ∃ fuel, slobLoop size units 0 fuel answers prev (h.next prev) h =
        some (some (takeBlock units 0 p (h.next p) h).1, answers, (takeBlock units 0 p (h.next p) h).2)) ∨
      (∀ i ≤ k, h.units (h.next^[i] (h.next prev)) < units) ∧
        ∀ fuel, slobLoop size units 0 (k + fuel + 1) answers prev (h.next prev) h = slobGrow size units 0 fuel answers h := by
  induction k generalizing prev with
  | zero =>
    by_cases room : units ≤ h.units (h.next prev)
    · exact .inl ⟨prev, mp, room, 1, loop_take room⟩
    · refine .inr ⟨fun i low => ?_, fun fuel => ?_⟩
      · obtain rfl : i = 0 := by omega
        exact Nat.lt_of_not_le room
      · rw [Nat.zero_add]
        exact loop_grow small room last
  | succ k ih =>
    by_cases room : units ≤ h.units (h.next prev)
    · exact .inl ⟨prev, mp, room, 1, loop_take room⟩
    · have on : h.next prev ≠ h.slobfree := first 0 (Nat.succ_pos k)
      rcases ih (circle.mem prev mp) last fun i low => first (i + 1) (by omega) with ⟨p, there, fits, fuel, taken⟩ | ⟨full, grown⟩
      · refine .inl ⟨p, there, fits, fuel + 1, ?_⟩
        rw [loop_next room on]
        exact taken
      · refine .inr ⟨fun i low => ?_, fun fuel => ?_⟩
        · cases i with
          | zero => exact Nat.lt_of_not_le room
          | succ i => exact full i (by omega)
        · rw [show k + 1 + fuel + 1 = (k + fuel + 1) + 1 by omega, loop_next room on]
          exact grown fuel

/- The way from one place to itself meets everything. -/
theorem round_covers (circle : Circle F h.next) (start : h.slobfree ∈ F) :
    ∃ k, h.next^[k] (h.next h.slobfree) = h.slobfree ∧ (∀ i < k, h.next^[i] (h.next h.slobfree) ≠ h.slobfree) ∧
      ∀ a ∈ F, ∃ i ≤ k, h.next^[i] (h.next h.slobfree) = a := by
  have mn := circle.mem _ start
  have back := reaches circle start mn
  refine ⟨Nat.find back, Nat.find_spec back, fun i low => Nat.find_min back low, fun a ma => ?_⟩
  have there := reaches circle ma mn
  refine ⟨Nat.find there, ?_, Nat.find_spec there⟩
  by_contra far
  apply Nat.find_min there (show Nat.find there - (Nat.find back + 1) < Nat.find there by omega)
  have whole : h.next^[Nat.find back + 1] (h.next h.slobfree) = h.next h.slobfree := by
    rw [Function.iterate_succ_apply', Nat.find_spec back]
  have reached := Nat.find_spec there
  rw [show Nat.find there = (Nat.find there - (Nat.find back + 1)) + (Nat.find back + 1) by omega, Function.iterate_add_apply,
    whole] at reached
  exact reached

theorem round (small : size ≠ PAGE_SIZE) (circle : Circle F h.next) (start : h.slobfree ∈ F) (units : Nat) (answers : List Nat) :
    (∃ p ∈ F, units ≤ h.units (h.next p) ∧ ∃ fuel, slobLoop size units 0 fuel answers h.slobfree (h.next h.slobfree) h =
        some (some (takeBlock units 0 p (h.next p) h).1, answers, (takeBlock units 0 p (h.next p) h).2)) ∨
      (∀ a ∈ F, h.units a < units) ∧ ∃ k, ∀ fuel,
        slobLoop size units 0 (k + fuel + 1) answers h.slobfree (h.next h.slobfree) h = slobGrow size units 0 fuel answers h := by
  obtain ⟨k, last, first, all⟩ := round_covers circle start
  rcases pass small circle start last first with taken | ⟨full, grown⟩
  · exact .inl taken
  · refine .inr ⟨fun a ma => ?_, k, grown⟩
    obtain ⟨i, low, rfl⟩ := all a ma
    exact full i low

/- `slob_free` of a new page. -/
theorem grow_run (sound : Sound arena F L P h) (placed : arena ∈ L → arena ≠ 0) (page : Page arena p) (fresh : p ∉ P)
    (clear : ¬ MeetsOnly h p PAGE_SIZE) :
    ∃ fuel t F', slobFree fuel p PAGE_SIZE h = some t ∧ Sound arena F' L (insert p P) t ∧ (∀ a ∈ L, t.units a = h.units a) ∧
      ∃ a ∈ F', 256 ≤ t.units a := by
  have paged := page_sound sound page fresh
  have placed' : arena ∈ insert p L → arena ≠ 0 := fun mem =>
    (Finset.mem_insert.mp mem).elim (fun same => same ▸ page.2.1) placed
  obtain ⟨t, F', freed, sound', kept, a, ma, more⟩ := free_run paged placed' (Finset.mem_insert_self p L)
    (by rw [page_bytes]; exact clear) (Nat.lt_succ_self _)
  have new : p ∉ L := fun mem => sound.page_new page fresh (mem_live mem)
  rw [Finset.erase_insert new] at sound' kept
  refine ⟨F.card + 1, t, F', ?_, sound', fun a mem => ?_, a, ma, ?_⟩
  · rw [← freed]
    unfold slobFree
    rw [if_neg page.2.1, if_neg page.2.1]
    rfl
  · rw [kept a mem]
    exact Function.update_of_ne (show a ≠ p from fun same => new (same ▸ mem)) ..
  · refine Nat.le_trans ?_ more
    dsimp only
    rw [Function.update_self]
    decide

/- What an allocation of `units` makes of the live blocks `L` and the pages `P`. -/
inductive Served (arena units : Nat) (L P : Finset Nat) (h : Heap) : List Nat → Option Nat × List Nat × Heap → Prop
  | here {m : Nat} {F : Finset Nat} {t : Heap} {answers : List Nat} (sound : Sound arena F (insert m L) P t)
      (new : m ∉ L) (size : t.units m = units) (kept : ∀ a ∈ L, t.units a = h.units a) : Served arena units L P h answers (some m, answers, t)
  | grown {m p : Nat} {F : Finset Nat} {t : Heap} {answers : List Nat} (sound : Sound arena F (insert m L) (insert p P) t)
      (some_page : p ≠ 0) (new : m ∉ L) (size : t.units m = units) (kept : ∀ a ∈ L, t.units a = h.units a) :
      Served arena units L P h (p :: answers) (some m, answers, t)
  | lack {answers : List Nat} : Served arena units L P h (0 :: answers) (none, answers, h)

/-- Once the free list has taken in the page `p`, a request of `units` finds more than one block. -/
def Joins (h : Heap) (units p : Nat) : Prop :=
  ¬ MeetsOnly h p PAGE_SIZE ∧ ∀ fuel t, slobFree fuel p PAGE_SIZE h = some t → ¬ FromOnly t units

/- Where there is room, there is another block in front of it. -/
theorem Sound.other (sound : Sound arena F L P h) (only : ¬ FromOnly h units) (mp : p ∈ F) (room : units ≤ h.units (h.next p)) :
    h.next p ≠ p := by
  intro self
  have alone := sound.alone mp self
  rw [self] at room
  exact only ⟨alone ▸ self, alone ▸ room⟩

/- `alloc_pages` is asked if there is no room. -/
theorem loop_run (sound : Sound arena F L P h) (placed : arena ∈ L → arena ≠ 0) (small : size ≠ PAGE_SIZE)
    (some_units : 0 < units) (low : units ≤ 256) (only : ¬ FromOnly h units)
    (fresh : ∀ p ∈ answers, p ≠ 0 → Page arena p ∧ p ∉ P)
    (joins : (∀ a ∈ F, h.units a < units) → ∀ p ∈ answers.head?, p ≠ 0 → Joins h units p) :
    (∃ fuel r, slobLoop size units 0 fuel answers h.slobfree (h.next h.slobfree) h = some r ∧ Served arena units L P h answers r ∧
        (r.2.1 = answers ↔ ∃ a ∈ F, units ≤ h.units a)) ∨
      answers = [] ∧ ∀ fuel, slobLoop size units 0 fuel answers h.slobfree (h.next h.slobfree) h = none := by
  rcases round small sound.circle sound.start units answers with ⟨p, mp, room, fuel, taken⟩ | ⟨full, k, grown⟩
  · obtain ⟨t, F', split, sound', new, at_units, kept⟩ := take_sound sound mp room (sound.other only mp room) some_units
    rw [split] at taken
    exact .inl ⟨fuel, _, taken, .here sound' new at_units kept,
      iff_of_true rfl ⟨h.next p, sound.circle.mem p mp, room⟩⟩
  · have none_fits : ∀ p, answers = p :: answers.tail → (answers.tail = answers ↔ ∃ a ∈ F, units ≤ h.units a) := by
      intro p shape
      refine iff_of_false (fun same => ?_) fun ⟨a, ma, room⟩ => ?_
      · rw [same] at shape
        exact List.cons_ne_self p answers shape.symm
      · have := full a ma
        omega
    cases answers with
    | nil =>
      refine .inr ⟨rfl, fun fuel => ?_⟩
      cases done : slobLoop size units 0 fuel [] h.slobfree (h.next h.slobfree) h with
      | none => rfl
      | some r =>
        have later := loop_mono small done (show fuel ≤ k + fuel + 1 by omega)
        rw [grown fuel] at later
        cases later
    | cons page answers =>
      left
      by_cases none_left : page = 0
      · subst none_left
        exact ⟨k + 0 + 1, _, grown 0, .lack, none_fits 0 rfl⟩
      · obtain ⟨good, new_page⟩ := fresh page List.mem_cons_self none_left
        obtain ⟨clear, others⟩ := joins full page rfl none_left
        obtain ⟨fuel, t, F', freed, sound', kept, a, ma, more⟩ := grow_run sound placed good new_page clear
        rcases round small sound'.circle sound'.start units answers with ⟨p, mp, room, fuel', taken⟩ | ⟨full', _⟩
        · obtain ⟨t', F'', split, sound'', new, at_units, kept'⟩ := take_sound sound' mp room
            (sound'.other (others fuel t freed) mp room) some_units
          rw [split] at taken
          refine ⟨k + max fuel fuel' + 1, _, ?_,
            .grown sound'' none_left new at_units fun a mem => (kept' a mem).trans (kept a mem), none_fits page rfl⟩
          rw [grown]
          unfold slobGrow
          dsimp only
          rw [if_neg none_left]
          exact Option.bind_eq_some_iff.mpr ⟨t, free_mono freed (Nat.le_max_left ..), loop_mono small taken (Nat.le_max_right ..)⟩
        · have := full' a ma
          omega

theorem Sound.home_free (sound : Sound arena F L P h) (away : arena ∉ L) : arena ∈ F :=
  (Finset.mem_union.mp sound.home).resolve_right away

/- Where the free list has the arena and is one block, it is the arena. -/
theorem Sound.only_arena (sound : Sound arena F L P h) (away : arena ∉ L) (self : h.next h.slobfree = h.slobfree) :
    h.slobfree = arena := by
  rcases sound.circle.follows _ sound.start with ⟨less, _⟩ | ⟨_, ends⟩
  · omega
  · have := ends arena (sound.home_free away)
    omega

theorem Sound.not_from_only (sound : Sound arena F L P h) (away : arena ∉ L) (two : 2 ≤ units) : ¬ FromOnly h units := by
  rintro ⟨self, room⟩
  rw [sound.only_arena away self, sound.unit] at room
  omega

theorem Sound.not_meets_only (sound : Sound arena F L P h) (away : arena ∉ L) (mb : b ∈ L) : ¬ MeetsOnly h b (bytes h b) := by
  rintro ⟨self, meet⟩
  exact sound.ends_apart (mem_live mb) (meet.trans (sound.only_arena away self))

theorem Sound.joins (sound : Sound arena F L P h) (away : arena ∉ L) (two : 2 ≤ units) (page : Page arena p) (fresh : p ∉ P) :
    Joins h units p := by
  have clear : ¬ MeetsOnly h p PAGE_SIZE := by
    rintro ⟨self, meet⟩
    have only := sound.only_arena away self
    have apart := page.2.2
    unfold SLOB_UNIT at apart
    omega
  obtain ⟨fuel, t, F', freed, sound', _⟩ := grow_run sound (fun mem => absurd mem away) page fresh clear
  exact ⟨clear, fun fuel' t' freed' => free_unique freed freed' ▸ sound'.not_from_only away two⟩

/- What is given has two units, and so is not the arena. -/
theorem Sound.gives_away (sound : Sound arena F (insert b L) P h) (away : arena ∉ L) (two : 2 ≤ h.units b) : arena ∉ insert b L := by
  intro mem
  rcases Finset.mem_insert.mp mem with rfl | old
  · rw [sound.unit] at two
    omega
  · exact away old

/- `slob_alloc` of more than a header. -/
theorem alloc_run (sound : Sound arena F L P h) (away : arena ∉ L) (low : 17 ≤ size) (high : size < 4080)
    (fresh : ∀ p ∈ answers, p ≠ 0 → Page arena p ∧ p ∉ P) :
    (∃ fuel r, slobAlloc fuel size 0 answers h = some r ∧ Served arena (slobUnits size) L P h answers r ∧
        (r.2.1 = answers ↔ ∃ a ∈ F, slobUnits size ≤ h.units a)) ∨
      answers = [] ∧ ∀ fuel, slobAlloc fuel size 0 answers h = none := by
  have loops : ∀ fuel, slobAlloc fuel size 0 answers h =
      slobLoop size (slobUnits size) 0 fuel answers h.slobfree (h.next h.slobfree) h := fun fuel =>
    if_pos (by unfold PAGE_SIZE SLOB_UNIT; omega)
  have small : size ≠ PAGE_SIZE := by
    unfold PAGE_SIZE
    omega
  have two : 2 ≤ slobUnits size := by
    unfold slobUnits SLOB_UNIT
    omega
  have few : slobUnits size ≤ 256 := by
    unfold slobUnits SLOB_UNIT
    omega
  simp only [loops]
  refine loop_run sound (fun mem => absurd mem away) small (by omega) few (sound.not_from_only away two) fresh ?_
  intro _ p first some_page
  obtain ⟨page, new⟩ := fresh p (List.mem_of_mem_head? first) some_page
  exact sound.joins away two page new

theorem alloc_mono (high : size < 4080) (ends : slobAlloc fuel size 0 answers h = some r) (more : fuel ≤ fuel') :
    slobAlloc fuel' size 0 answers h = some r := by
  have small : size ≠ PAGE_SIZE := by
    unfold PAGE_SIZE
    omega
  unfold slobAlloc at ends ⊢
  rw [if_pos (by unfold PAGE_SIZE SLOB_UNIT; omega)] at ends ⊢
  exact loop_mono small ends more

theorem alloc_served (sound : Sound arena F L P h) (away : arena ∉ L) (low : 17 ≤ size) (high : size < 4080)
    (fresh : ∀ p ∈ answers, p ≠ 0 → Page arena p ∧ p ∉ P) (done : slobAlloc fuel size 0 answers h = some r) :
    Served arena (slobUnits size) L P h answers r ∧ (r.2.1 = answers ↔ ∃ a ∈ F, slobUnits size ≤ h.units a) := by
  rcases alloc_run sound away low high fresh with ⟨fuel', r', done', served⟩ | ⟨_, never⟩
  · have one := alloc_mono high done (Nat.le_max_left fuel fuel')
    rw [alloc_mono high done' (Nat.le_max_right fuel fuel')] at one
    obtain rfl := Option.some.inj one
    exact served
  · rw [never] at done
    cases done

/- Behind the header. -/
def behind (r : Option Nat × List Nat × Heap) : Option Nat × List Nat × Heap := (r.1.map (· + SLOB_UNIT), r.2)

theorem kmalloc_small (small : size < 4080) (fuel : Nat) (answers : List Nat) (h : Heap) :
    kmalloc fuel size answers h = (slobAlloc fuel (size + SLOB_UNIT) 0 answers h).map behind := by
  unfold kmalloc
  rw [if_pos (by unfold PAGE_SIZE SLOB_UNIT; omega), Option.map_eq_bind]
  rfl

/- `kmalloc` of a small block. -/
theorem kmalloc_run (sound : Sound arena F L P h) (away : arena ∉ L) (low : 1 ≤ size) (high : size < 4064)
    (fresh : ∀ p ∈ answers, p ≠ 0 → Page arena p ∧ p ∉ P) :
    (∃ fuel r, kmalloc fuel size answers h = some (behind r) ∧
        Served arena (slobUnits (size + SLOB_UNIT)) L P h answers r) ∨
      answers = [] ∧ ∀ fuel, kmalloc fuel size answers h = none := by
  have header : size + SLOB_UNIT = size + 16 := rfl
  simp only [kmalloc_small (show size < 4080 by omega)]
  rcases alloc_run sound away (show 17 ≤ size + SLOB_UNIT by omega) (by omega) fresh with ⟨fuel, r, done, served, _⟩ | ⟨empty, never⟩
  · exact .inl ⟨fuel, r, congrArg (Option.map behind) done, served⟩
  · exact .inr ⟨empty, fun fuel => congrArg (Option.map behind) (never fuel)⟩

/- `kfree` of what `kmalloc` gave. -/
theorem kfree_eq (big : h.bigblocks = []) (fuel b : Nat) : kfree fuel (b + SLOB_UNIT) h = slobFree fuel b 0 h := by
  unfold kfree
  rw [if_neg (by unfold SLOB_UNIT; omega), big, Nat.add_sub_cancel, List.find?_nil, ite_self]

/-- The allocator and what is known of the calls: the live blocks, by their headers, the sizes that were asked for, and
the pages that were obtained. A block that is given twice is twice in `live`. -/
structure Machine where
  heap : Heap
  live : List Nat
  want : Nat → Nat
  pages : Finset Nat

inductive Call
  | kmalloc (size : Nat)
  | kfree (block : Nat)

/-- `used` are the answers of `alloc_pages` that the call has taken. -/
inductive Step (arena : Nat) : Machine → Call → Machine → Prop
  | kmalloc {s : Machine} {fuel size block : Nat} {used left : List Nat} {t : Heap} (low : 1 ≤ size) (high : size < 4064)
      (fresh : ∀ p ∈ used ++ left, p ≠ 0 → Page arena p ∧ p ∉ s.pages)
      (done : kmalloc fuel size (used ++ left) s.heap = some (some block, left, t)) :
      Step arena s (.kmalloc size) ⟨t, (block - SLOB_UNIT) :: s.live, Function.update s.want (block - SLOB_UNIT) size,
        s.pages ∪ {p ∈ used.toFinset | p ≠ 0}⟩
  | lack {s : Machine} {fuel size : Nat} {used left : List Nat} {t : Heap} (low : 1 ≤ size) (high : size < 4064)
      (fresh : ∀ p ∈ used ++ left, p ≠ 0 → Page arena p ∧ p ∉ s.pages)
      (done : kmalloc fuel size (used ++ left) s.heap = some (none, left, t)) :
      Step arena s (.kmalloc size) ⟨t, s.live, s.want, s.pages ∪ {p ∈ used.toFinset | p ≠ 0}⟩
  | kfree {s : Machine} {fuel b : Nat} {t : Heap} (mem : b ∈ s.live) (done : kfree fuel (b + SLOB_UNIT) s.heap = some t) :
      Step arena s (.kfree (b + SLOB_UNIT)) ⟨t, s.live.erase b, s.want, s.pages⟩

def initial (arena : Nat) : Machine :=
  ⟨⟨fun _ => 1, fun _ => arena, arena, []⟩, [], fun _ => 0, ∅⟩

/-- What holds between the calls. -/
structure Kept (arena : Nat) (s : Machine) : Prop where
  sound : ∃ F, Sound arena F s.live.toFinset s.pages s.heap
  away : arena ∉ s.live.toFinset
  distinct : s.live.Nodup
  rooms : ∀ b ∈ s.live, s.want b + SLOB_UNIT ≤ bytes s.heap b

/- The free list is the arena at first. -/
theorem initial_sound (arena : Nat) : Sound arena {arena} ∅ ∅ (initial arena).heap := by
  have unit : bytes (initial arena).heap arena = SLOB_UNIT := Nat.one_mul _
  refine ⟨⟨mem_free (Finset.mem_singleton_self _), rfl, ⟨fun a _ => Finset.mem_singleton_self _, fun a mem => ?_⟩,
    fun a _ live => absurd live (Finset.notMem_empty a), ⟨fun a _ => ?_, fun a ma b mb less => ?_, fun x => ?_⟩,
    fun a mem far => ?_, fun p mem => absurd mem (Finset.notMem_empty p), rfl⟩, Finset.mem_singleton_self _,
    fun a ma b mb => ?_⟩
  · obtain rfl := Finset.mem_singleton.mp mem
    exact .inr ⟨Nat.le_refl a, fun c there => by rw [Finset.mem_singleton.mp there]; exact ⟨Nat.le_refl a, Nat.le_refl a⟩⟩
  · exact Nat.lt_of_lt_of_eq (by decide : 0 < SLOB_UNIT) (Nat.one_mul _).symm
  · have one := Finset.mem_singleton.mp (Finset.union_empty {arena} ▸ ma)
    have two := Finset.mem_singleton.mp (Finset.union_empty {arena} ▸ mb)
    omega
  · constructor
    · rintro ⟨a, mem, low, upper⟩
      obtain rfl := Finset.mem_singleton.mp (Finset.union_empty {arena} ▸ mem)
      exact .inl ⟨low, unit ▸ upper⟩
    · rintro (⟨low, upper⟩ | ⟨p, mem, _⟩)
      · exact ⟨arena, mem_free (Finset.mem_singleton_self _), low, by rw [unit]; exact upper⟩
      · exact absurd mem (Finset.notMem_empty p)
  · exact absurd (Finset.mem_singleton.mp (Finset.union_empty {arena} ▸ mem)) far
  · obtain rfl := Finset.mem_singleton.mp ma
    obtain rfl := Finset.mem_singleton.mp mb
    rw [unit]
    unfold SLOB_UNIT
    omega

theorem initial_kept (arena : Nat) : Kept arena (initial arena) where
  sound := ⟨{arena}, initial_sound arena⟩
  away := Finset.notMem_empty arena
  distinct := List.nodup_nil
  rooms _ mem := absurd mem List.not_mem_nil

theorem erase_finset {live : List Nat} (distinct : live.Nodup) (b : Nat) : (live.erase b).toFinset = live.toFinset.erase b := by
  ext c
  rw [List.mem_toFinset, distinct.mem_erase_iff, Finset.mem_erase, List.mem_toFinset]

theorem served_of {m : Option Nat} (sound : Sound arena F L P h) (away : arena ∉ L) (low : 1 ≤ size) (high : size < 4064)
    (fresh : ∀ p ∈ answers, p ≠ 0 → Page arena p ∧ p ∉ P) (done : kmalloc fuel size answers h = some (m, left, t)) :
    ∃ b, Served arena (slobUnits (size + SLOB_UNIT)) L P h answers (b, left, t) ∧ m = b.map (· + SLOB_UNIT) := by
  have header : size + SLOB_UNIT = size + 16 := rfl
  rw [kmalloc_small (by omega)] at done
  obtain ⟨r, alloced, is⟩ := Option.map_eq_some_iff.mp done
  injection is with is_block rest
  have served := (alloc_served sound away (show 17 ≤ size + SLOB_UNIT by omega) (by omega) fresh alloced).1
  obtain ⟨b, left', t'⟩ := r
  injection rest with is_left is_heap
  subst is_left is_heap
  exact ⟨b, served, is_block.symm⟩

/- The pages among the answers. -/
def obtained (used : List Nat) : Finset Nat := {p ∈ used.toFinset | p ≠ 0}

theorem Served.gives {used : List Nat} (served : Served arena units L P h (used ++ left) (some m, left, t)) :
    ∃ F, Sound arena F (insert m L) (P ∪ obtained used) t ∧ m ∉ L ∧ t.units m = units ∧ ∀ a ∈ L, t.units a = h.units a := by
  generalize whole : used ++ left = answers at served
  cases served with
  | @here _ F _ _ sound new at_units same =>
    obtain rfl : used = [] := List.append_left_eq_self.mp whole
    have got : P ∪ obtained [] = P := by
      unfold obtained
      rw [List.toFinset_nil, Finset.filter_empty, Finset.union_empty]
    refine ⟨F, ?_, new, at_units, same⟩
    rw [got]
    exact sound
  | @grown _ p F _ _ sound some_page new at_units same =>
    obtain rfl : used = [p] := List.append_cancel_right (whole : used ++ left = [p] ++ left)
    have got : P ∪ obtained [p] = insert p P := by
      ext q
      unfold obtained
      simp only [Finset.mem_union, Finset.mem_filter, List.mem_toFinset, List.mem_singleton, Finset.mem_insert]
      constructor
      · rintro (old | ⟨here, _⟩)
        · exact .inr old
        · exact .inl here
      · rintro (rfl | old)
        · exact .inr ⟨rfl, some_page⟩
        · exact .inl old
    refine ⟨F, ?_, new, at_units, same⟩
    rw [got]
    exact sound

theorem Served.lacks {used : List Nat} (served : Served arena units L P h (used ++ left) (none, left, t)) :
    t = h ∧ P ∪ obtained used = P := by
  generalize whole : used ++ left = answers at served
  cases served with
  | lack =>
    obtain rfl : used = [0] := List.append_cancel_right (whole : used ++ left = [0] ++ left)
    exact ⟨rfl, Finset.union_eq_left.mpr fun q mem => absurd
      (List.mem_singleton.mp (List.mem_toFinset.mp (Finset.mem_filter.mp mem).1)) (Finset.mem_filter.mp mem).2⟩

theorem room_left (size : Nat) : size + SLOB_UNIT ≤ slobUnits (size + SLOB_UNIT) * SLOB_UNIT := by
  unfold slobUnits SLOB_UNIT
  omega

/- A new live block has the room asked for, and the others keep theirs. -/
theorem room_insert {want : Nat → Nat} {live : List Nat} (rooms : ∀ b ∈ live, want b + SLOB_UNIT ≤ bytes h b)
    (at_units : t.units m = slobUnits (size + SLOB_UNIT)) (kept : ∀ a ∈ live, t.units a = h.units a) (new : m ∉ live) :
    ∀ b ∈ m :: live, Function.update want m size b + SLOB_UNIT ≤ bytes t b := by
  intro b mem
  rcases List.mem_cons.mp mem with rfl | old
  · unfold bytes
    rw [Function.update_self, at_units]
    exact room_left size
  · unfold bytes
    rw [Function.update_of_ne (show b ≠ m from fun same => new (same ▸ old)), kept b old]
    exact rooms b old

theorem step_kept {s t : Machine} {call : Call} (kept : Kept arena s) (step : Step arena s call t) : Kept arena t := by
  obtain ⟨⟨F, sound⟩, away, distinct, rooms⟩ := kept
  cases step with
  | @kmalloc fuel size block used left t low high fresh done =>
    obtain ⟨m, served, is_block⟩ := served_of sound away low high fresh done
    cases m with
    | none => cases is_block
    | some m =>
      obtain rfl : block = m + SLOB_UNIT := Option.some.inj is_block
      obtain ⟨F', sound', new, at_units, same⟩ := served.gives
      have two : 2 ≤ t.units m := by
        rw [at_units]
        unfold slobUnits SLOB_UNIT
        omega
      have given : (m :: s.live).toFinset = insert m s.live.toFinset := List.toFinset_cons
      rw [Nat.add_sub_cancel]
      constructor
      case sound => exact ⟨F', given ▸ sound'⟩
      case away => exact given ▸ sound'.gives_away away two
      case distinct => exact List.nodup_cons.mpr ⟨fun mem => new (List.mem_toFinset.mpr mem), distinct⟩
      case rooms =>
        exact room_insert rooms at_units (fun a mem => same a (List.mem_toFinset.mpr mem)) fun mem =>
          new (List.mem_toFinset.mpr mem)
  | @lack fuel size used left t low high fresh done =>
    obtain ⟨m, served, is_block⟩ := served_of sound away low high fresh done
    cases m with
    | some m => cases is_block
    | none =>
      obtain ⟨rfl, got⟩ := served.lacks
      refine ⟨⟨F, ?_⟩, away, distinct, rooms⟩
      change Sound arena F s.live.toFinset (s.pages ∪ obtained used) s.heap
      rw [got]
      exact sound
  | @kfree _ b t mem done =>
    have live := List.mem_toFinset.mpr mem
    rw [kfree_eq sound.big] at done
    obtain ⟨t', F', freed, sound', same, _⟩ := free_run sound (fun mem => absurd mem away) live
      (sound.not_meets_only away live) (Nat.lt_succ_self _)
    obtain rfl := free_unique done freed
    rw [← erase_finset distinct] at sound' same
    constructor
    case sound => exact ⟨F', sound'⟩
    case away =>
      rw [erase_finset distinct]
      exact fun there => away (Finset.mem_of_mem_erase there)
    case distinct => exact distinct.erase b
    case rooms =>
      intro c there
      unfold bytes
      dsimp only
      rw [same c (List.mem_toFinset.mpr there)]
      exact rooms c (List.mem_of_mem_erase there)

def Listed (h : Heap) (a : Nat) : Prop := ∃ k, h.next^[k] h.slobfree = a

theorem listed_iff (sound : Sound arena F L P h) : Listed h a ↔ a ∈ F := by
  constructor
  · rintro ⟨k, rfl⟩
    exact stays sound.circle sound.start k
  · intro mem
    exact reaches sound.circle mem sound.start

/-- The blocks `a` and `b` share nothing. -/
def Apart (h : Heap) (a b : Nat) : Prop := a + bytes h a ≤ b ∨ b + bytes h b ≤ a

structure Tidy (s : Machine) : Prop where
  distinct : s.live.Nodup
  room : ∀ b ∈ s.live, s.want b + SLOB_UNIT ≤ bytes s.heap b
  live_apart : ∀ a ∈ s.live, ∀ b ∈ s.live, a ≠ b → Apart s.heap a b
  circular : ∃ k, 0 < k ∧ s.heap.next^[k] s.heap.slobfree = s.heap.slobfree
  ordered : ∃! a, Listed s.heap a ∧ s.heap.next a ≤ a
  merged : ∀ a b, Listed s.heap a → Listed s.heap b → a + bytes s.heap a ≠ b
  free_apart : ∀ a, Listed s.heap a → ∀ b ∈ s.live, Apart s.heap a b
  covered : ∀ p ∈ s.pages, ∀ i < PAGE_SIZE / SLOB_UNIT, ∃! a, (Listed s.heap a ∨ a ∈ s.live) ∧
    a ≤ p + i * SLOB_UNIT ∧ p + (i + 1) * SLOB_UNIT ≤ a + bytes s.heap a

theorem Laid.blocks_apart (laid : Laid arena F L P h) (ma : a ∈ F ∪ L) (mb : b ∈ F ∪ L) (ne : a ≠ b) : Apart h a b := by
  rcases Nat.lt_or_gt_of_ne ne with less | more
  · exact .inl (laid.tiles.apart a ma b mb less)
  · exact .inr (laid.tiles.apart b mb a ma more)

/- The units of a page are not cut. -/
theorem Laid.unit_inside (laid : Laid arena F L P h) (mp : p ∈ P) (i : Nat) (inside : i < PAGE_SIZE / SLOB_UNIT) :
    ∃! a, a ∈ F ∪ L ∧ a ≤ p + i * SLOB_UNIT ∧ p + (i + 1) * SLOB_UNIT ≤ a + bytes h a := by
  obtain ⟨whole, _, clear⟩ := laid.pages p mp
  have page : Area arena P (p + i * SLOB_UNIT) := .inr ⟨p, mp, Nat.le_add_right .., by
    unfold PAGE_SIZE SLOB_UNIT at *
    omega⟩
  obtain ⟨a, ⟨ma, low, high⟩, only⟩ := laid.tiles.unique page
  have far : a ≠ arena := by
    rintro rfl
    rw [laid.arena_bytes] at high
    unfold PAGE_SIZE SLOB_UNIT at *
    omega
  refine ⟨a, ⟨ma, low, ?_⟩, fun b ⟨mb, low', high'⟩ => only b ⟨mb, low', ?_⟩⟩
  · obtain ⟨u, at_a⟩ := laid.aligned a ma far
    obtain ⟨v, at_p⟩ := whole
    unfold bytes PAGE_SIZE SLOB_UNIT at *
    omega
  · unfold SLOB_UNIT at *
    omega

theorem kept_tidy {s : Machine} (kept : Kept arena s) : Tidy s := by
  obtain ⟨⟨F, sound⟩, away, distinct, rooms⟩ := kept
  have live : ∀ {a}, a ∈ s.live → a ∈ s.live.toFinset := List.mem_toFinset.mpr
  refine ⟨distinct, rooms, fun a ma b mb ne => ?_, ?_, ?_, fun a b la lb => ?_, fun a la b mb => ?_, fun p mp i inside => ?_⟩
  · exact sound.blocks_apart (mem_live (live ma)) (mem_live (live mb)) ne
  · obtain ⟨k, back⟩ := reaches sound.circle sound.start (sound.circle.mem _ sound.start)
    exact ⟨k + 1, Nat.succ_pos k, back⟩
  · obtain ⟨top, mem, largest⟩ := F.exists_max_image id ⟨_, sound.start⟩
    refine ⟨top, ⟨(listed_iff sound).mpr mem, (descends_iff sound.circle mem).mpr largest⟩, fun a ⟨la, down⟩ => ?_⟩
    have ma := (listed_iff sound).mp la
    exact Nat.le_antisymm (largest a ma) ((descends_iff sound.circle ma).mp down top mem)
  · exact sound.merged a ((listed_iff sound).mp la) b ((listed_iff sound).mp lb)
  · have ma := (listed_iff sound).mp la
    exact sound.blocks_apart (mem_free ma) (mem_live (live mb)) fun same => sound.disjoint a ma (same ▸ live mb)
  · have either : ∀ a, Listed s.heap a ∨ a ∈ s.live ↔ a ∈ F ∪ s.live.toFinset := fun a => by
      rw [listed_iff sound, Finset.mem_union, List.mem_toFinset]
    simp only [either]
    exact sound.unit_inside mp i inside

/- The calls end: `kfree` of a live block, and `kmalloc` once `alloc_pages` has answered. -/
def Ends (arena : Nat) (s : Machine) : Prop :=
  (∀ b ∈ s.live, ∃ fuel t, kfree fuel (b + SLOB_UNIT) s.heap = some t) ∧
    ∀ size answer, 1 ≤ size → size < 4064 → (answer ≠ 0 → Page arena answer ∧ answer ∉ s.pages) →
      ∃ fuel m left t, kmalloc fuel size [answer] s.heap = some (m, left, t) ∧ (m = none → answer = 0)

theorem kept_ends {s : Machine} (kept : Kept arena s) : Ends arena s := by
  obtain ⟨⟨F, sound⟩, away, _⟩ := kept
  refine ⟨fun b mem => ?_, fun size answer low high fresh => ?_⟩
  · have live := List.mem_toFinset.mpr mem
    obtain ⟨t, _, freed, _⟩ := free_run sound (fun mem => absurd mem away) live (sound.not_meets_only away live)
      (Nat.lt_succ_self _)
    exact ⟨F.card + 1, t, (kfree_eq sound.big ..).trans freed⟩
  · have fresh' : ∀ p ∈ [answer], p ≠ 0 → Page arena p ∧ p ∉ s.pages := fun p mem => List.mem_singleton.mp mem ▸ fresh
    rcases kmalloc_run sound away low high fresh' with ⟨fuel, r, done, served⟩ | ⟨empty, _⟩
    · refine ⟨fuel, _, _, _, done, fun lack => ?_⟩
      cases served with
      | here => cases lack
      | grown => cases lack
      | lack => rfl
    · cases empty

theorem small_blocks_tidy {s : Machine} {calls : List Call} (run : Transitions.Run (Step arena) (initial arena) calls s) :
    Tidy s ∧ Ends arena s := by
  have keep : ∀ s c t, Kept arena s → Step arena s c t → Kept arena t := fun _ _ _ => step_kept
  have kept := Transitions.run_invariant keep run (initial_kept arena)
  exact ⟨kept_tidy kept, kept_ends kept⟩

theorem page_above_arena : Page 100 4096 := by
  unfold Page PAGE_SIZE SLOB_UNIT
  omega

theorem three_calls_tidy : ∃ s, s.live = [4224] ∧ s.pages = {4096} ∧ s.want 4224 = 200 ∧ Tidy s ∧ Ends 100 s := by
  have fresh : ∀ p ∈ [4096] ++ [], p ≠ 0 → Page 100 p ∧ p ∉ (initial 100).pages := fun p mem _ =>
    ⟨List.mem_singleton.mp mem ▸ page_above_arena, Finset.notMem_empty p⟩
  have first := @Step.kmalloc 100 (initial 100) 9 100 4112 [4096] [] _ (by decide) (by decide) fresh rfl
  have run := Transitions.Run.call first (.call (@Step.kmalloc 100 _ 9 200 4240 [] [] _ (by decide) (by decide)
    (fun p mem => absurd mem List.not_mem_nil) rfl) (.call (@Step.kfree 100 _ 9 4096 _ (by decide) rfl) (.stop _)))
  exact ⟨_, by decide, by decide, rfl, small_blocks_tidy run⟩
end Ucore.Slob
