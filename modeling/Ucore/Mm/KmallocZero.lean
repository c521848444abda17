import Ucore.Mm.KmallocRuns

/- The calls for blocks below a page, those for no bytes among them. A header alone fits into the arena, and without the arena
   the free list may be one block. -/
namespace Ucore.Slob
open CyclicOrder Transitions
variable {arena b fuel size units i k n p cur prev : Nat} {F L P : Finset Nat} {h t : Heap} {answers left used : List Nat}
  {r : Option Nat × List Nat × Heap}

/-- The live blocks are a list, so that one given twice is in it twice. -/
structure Blocks where
  heap : Heap
  live : List Nat
  pages : Finset Nat

/-- A call, with the answers of `alloc_pages` that it takes. -/
inductive SmallCall
  | kmalloc (size : Nat) (used : List Nat)
  | kfree (block : Nat)

def boot (arena : Nat) : Blocks := ⟨(initial arena).heap, [], ∅⟩

inductive SmallStep (arena : Nat) : Blocks → SmallCall → Blocks → Prop
  | kmalloc {s : Blocks} {fuel size block : Nat} {used left : List Nat} {t : Heap} (small : size < PAGE_SIZE - SLOB_UNIT)
      (fresh : ∀ p ∈ used ++ left, p ≠ 0 → Page arena p ∧ p ∉ s.pages)
      (done : kmalloc fuel size (used ++ left) s.heap = some (some block, left, t)) :
      SmallStep arena s (.kmalloc size used) ⟨t, (block - SLOB_UNIT) :: s.live, s.pages ∪ obtained used⟩
  | lack {s : Blocks} {fuel size : Nat} {used left : List Nat} {t : Heap} (small : size < PAGE_SIZE - SLOB_UNIT)
      (fresh : ∀ p ∈ used ++ left, p ≠ 0 → Page arena p ∧ p ∉ s.pages)
      (done : kmalloc fuel size (used ++ left) s.heap = some (none, left, t)) :
      SmallStep arena s (.kmalloc size used) ⟨t, s.live, s.pages ∪ obtained used⟩
  | kfree {s : Blocks} {fuel b : Nat} {t : Heap} (mem : b ∈ s.live) (done : kfree fuel (b + SLOB_UNIT) s.heap = some t) :
      SmallStep arena s (.kfree (b + SLOB_UNIT)) ⟨t, s.live.erase b, s.pages⟩

/-- No request is served, whole or in part, by the only block of the free list, and nothing is put into the list right in front
of its only block. -/
def KeepsList (s : Blocks) : SmallCall → Prop
  | .kmalloc size used => ¬ FromOnly s.heap (slobUnits (size + SLOB_UNIT)) ∧
      ∀ p ∈ used, p ≠ 0 → Joins s.heap (slobUnits (size + SLOB_UNIT)) p
  | .kfree block => ¬ MeetsOnly s.heap (block - SLOB_UNIT) (bytes s.heap (block - SLOB_UNIT))

def KeepingStep (arena : Nat) (s : Blocks) (call : SmallCall) (t : Blocks) : Prop :=
  SmallStep arena s call t ∧ KeepsList s call

/-- The free list is round after `n` blocks. -/
structure OneTrip (h : Heap) (n : Nat) : Prop where
  some_block : 0 < n
  back : h.next^[n] h.slobfree = h.slobfree
  first : ∀ i, 0 < i → i < n → h.next^[i] h.slobfree ≠ h.slobfree

/-- `kfree` of a live block, and `slob_free` of a new page, look at no block of the list twice. -/
structure Orderly (arena : Nat) (s : Blocks) : Prop where
  distinct : s.live.Nodup
  ends : ∃ n, OneTrip s.heap n ∧ (∀ b ∈ s.live, ∃ t, kfree n (b + SLOB_UNIT) s.heap = some t) ∧
    ∀ p, Page arena p → p ∉ s.pages → ∃ t, slobFree n p PAGE_SIZE s.heap = some t

def Held (arena : Nat) (s : Blocks) : Prop := s.live.Nodup ∧ ∃ F, Sound arena F s.live.toFinset s.pages s.heap

theorem one_trip (circle : Circle F h.next) (start : h.slobfree ∈ F) :
    ∃ n, OneTrip h n ∧ ∀ a ∈ F, ∃ i < n, h.next^[i] h.slobfree = a := by
  obtain ⟨k, last, first, all⟩ := round_covers circle start
  refine ⟨k + 1, ⟨Nat.succ_pos k, last, fun i low high => ?_⟩, fun a ma => ?_⟩
  · obtain ⟨j, rfl⟩ : ∃ j, i = j + 1 := ⟨i - 1, by omega⟩
    exact first j (by omega)
  · obtain ⟨i, low, reached⟩ := all a ma
    by_cases at_last : i = k
    · subst at_last
      exact ⟨0, Nat.succ_pos i, last.symm.trans reached⟩
    · exact ⟨i + 1, by omega, reached⟩

/- The search ends where there is a place, or before. -/
theorem find_within (place : Between p b (h.next p)) (there : h.next^[i] cur = p) (low : i < fuel) :
    ∃ c, slobFind b h fuel cur = some c := by
  induction i generalizing cur fuel with
  | zero =>
    obtain ⟨less, rfl⟩ : ∃ less, fuel = less + 1 := ⟨fuel - 1, by omega⟩
    obtain rfl : cur = p := there
    exact ⟨cur, if_pos place⟩
  | succ i ih =>
    obtain ⟨less, rfl⟩ : ∃ less, fuel = less + 1 := ⟨fuel - 1, by omega⟩
    unfold slobFind
    split_ifs with test
    · exact ⟨cur, rfl⟩
    · exact ih there (by omega)

theorem free_within (sound : Sound arena F L P h) (placed : arena ≠ 0) (mb : b ∈ L) (all : ∀ a ∈ F, ∃ i < n, h.next^[i] h.slobfree = a) :
    ∃ t, slobFree n b 0 h = some t := by
  obtain ⟨p, mp, place⟩ := place_exists sound.circle ⟨_, sound.start⟩ fun mem => sound.disjoint b mem mb
  obtain ⟨i, low, there⟩ := all p mp
  obtain ⟨c, found⟩ := find_within place there low
  refine ⟨slobMerge b c h, ?_⟩
  unfold slobFree
  rw [if_neg (sound.nonzero (fun _ => placed) (mem_live mb))]
  dsimp only
  rw [if_neg (by decide), found]
  rfl

theorem held_orderly {s : Blocks} (placed : arena ≠ 0) (held : Held arena s) : Orderly arena s := by
  obtain ⟨distinct, F, sound⟩ := held
  obtain ⟨n, trip, all⟩ := one_trip sound.circle sound.start
  refine ⟨distinct, n, trip, fun b mem => ?_, fun p page fresh => ?_⟩
  · rw [kfree_eq sound.big]
    exact free_within sound placed (List.mem_toFinset.mpr mem) all
  · obtain ⟨t, freed⟩ := free_within (page_sound sound page fresh) placed (Finset.mem_insert_self p _) all
    refine ⟨t, ?_⟩
    rw [← freed]
    unfold slobFree
    rw [if_neg page.2.1, if_neg page.2.1]
    rfl

/- The answers that are left are the last ones. -/
theorem loop_suffix (small : size ≠ PAGE_SIZE) (done : slobLoop size units 0 fuel answers prev cur h = some r) :
    r.2.1 <:+ answers := by
  induction fuel generalizing answers prev cur h with
  | zero => cases done
  | succ fuel ih =>
    by_cases room : units ≤ h.units cur
    · rw [loop_take room] at done
      obtain rfl := Option.some.inj done
      exact List.suffix_rfl
    by_cases round : cur = h.slobfree
    · rw [loop_grow small room round] at done
      unfold slobGrow at done
      cases answers with
      | nil => cases done
      | cons page answers =>
        dsimp only at done
        split_ifs at done with lack
        · obtain rfl := Option.some.inj done
          exact List.suffix_cons page answers
        · obtain ⟨t, -, later⟩ := Option.bind_eq_some_iff.mp done
          exact (ih later).trans (List.suffix_cons page answers)
    · rw [loop_next room round] at done
      exact ih done

/- Where no block has room, the first answer is taken. -/
theorem full_takes (small : size ≠ PAGE_SIZE) (circle : Circle F h.next) (start : h.slobfree ∈ F)
    (full : ∀ a ∈ F, h.units a < units)
    (done : slobLoop size units 0 fuel answers h.slobfree (h.next h.slobfree) h = some r) :
    ∃ p rest, answers = p :: rest ∧ r.2.1 <:+ rest := by
  rcases round small circle start units answers with ⟨p, mp, room, -⟩ | ⟨-, k, grown⟩
  · have less := full _ (circle.mem p mp)
    omega
  · have later := loop_mono small done (show fuel ≤ k + fuel + 1 by omega)
    rw [grown fuel] at later
    unfold slobGrow at later
    cases answers with
    | nil => cases later
    | cons page rest =>
      refine ⟨page, rest, rfl, ?_⟩
      dsimp only at later
      split_ifs at later with lack
      · obtain rfl := Option.some.inj later
        exact List.suffix_rfl
      · obtain ⟨t, -, last⟩ := Option.bind_eq_some_iff.mp later
        exact loop_suffix small last

/- The requests from 4064 on fail the assertion. -/
theorem small_served {m : Option Nat} (sound : Sound arena F L P h) (placed : arena ≠ 0) (small : size < 4080)
    (only : ¬ FromOnly h (slobUnits (size + SLOB_UNIT)))
    (joins : ∀ p ∈ used, p ≠ 0 → Joins h (slobUnits (size + SLOB_UNIT)) p)
    (fresh : ∀ p ∈ used ++ left, p ≠ 0 → Page arena p ∧ p ∉ P)
    (done : kmalloc fuel size (used ++ left) h = some (m, left, t)) :
    ∃ b, Served arena (slobUnits (size + SLOB_UNIT)) L P h (used ++ left) (b, left, t) ∧ m = b.map (· + SLOB_UNIT) := by
  rw [kmalloc_small small] at done
  obtain ⟨⟨b, left', t'⟩, alloced, is⟩ := Option.map_eq_some_iff.mp done
  injection is with is_block rest
  injection rest with is_left is_heap
  subst is_left is_heap
  unfold slobAlloc at alloced
  split_ifs at alloced with fits
  have whole : size + SLOB_UNIT ≠ PAGE_SIZE := by omega
  have few : 0 < slobUnits (size + SLOB_UNIT) ∧ slobUnits (size + SLOB_UNIT) ≤ 256 := by
    unfold slobUnits SLOB_UNIT at *
    unfold PAGE_SIZE at fits
    omega
  have asked : (∀ a ∈ F, h.units a < slobUnits (size + SLOB_UNIT)) → ∀ p ∈ (used ++ left').head?, p ≠ 0 →
      Joins h (slobUnits (size + SLOB_UNIT)) p := by
    intro full p first
    refine joins p ?_
    obtain ⟨q, rest, shape, last⟩ := full_takes whole sound.circle sound.start full alloced
    cases used with
    | nil =>
      have longer := last.length_le
      rw [List.nil_append] at shape
      dsimp only at longer
      rw [shape, List.length_cons] at longer
      omega
    | cons page used =>
      rw [List.cons_append, List.head?_cons, Option.mem_some_iff] at first
      exact first ▸ List.mem_cons_self
  rcases loop_run sound (fun _ => placed) whole few.1 few.2 only fresh asked with ⟨fuel', r, done', served, -⟩ | ⟨-, never⟩
  · have one := loop_mono whole alloced (Nat.le_max_left fuel fuel')
    rw [loop_mono whole done' (Nat.le_max_right fuel fuel')] at one
    obtain rfl := Option.some.inj one
    exact ⟨b, served, is_block.symm⟩
  · rw [never] at alloced
    cases alloced

theorem step_held {s t : Blocks} {call : SmallCall} (placed : arena ≠ 0) (held : Held arena s)
    (step : KeepingStep arena s call t) : Held arena t := by
  obtain ⟨distinct, F, sound⟩ := held
  obtain ⟨step, keeps⟩ := step
  cases step with
  | @kmalloc fuel size block used left t small fresh done =>
    obtain ⟨m, served, is_block⟩ := small_served sound placed small keeps.1 keeps.2 fresh done
    cases m with
    | none => cases is_block
    | some m =>
      obtain rfl : block = m + SLOB_UNIT := Option.some.inj is_block
      obtain ⟨F', sound', new, _⟩ := served.gives
      rw [Nat.add_sub_cancel]
      refine ⟨List.nodup_cons.mpr ⟨fun mem => new (List.mem_toFinset.mpr mem), distinct⟩, F', ?_⟩
      dsimp only
      rw [List.toFinset_cons]
      exact sound'
  | @lack fuel size used left t small fresh done =>
    obtain ⟨m, served, is_block⟩ := small_served sound placed small keeps.1 keeps.2 fresh done
    cases m with
    | some m => cases is_block
    | none =>
      obtain ⟨rfl, got⟩ := served.lacks
      refine ⟨distinct, F, ?_⟩
      dsimp only
      rw [got]
      exact sound
  | @kfree fuel b t mem done =>
    change ¬ MeetsOnly s.heap (b + SLOB_UNIT - SLOB_UNIT) (bytes s.heap (b + SLOB_UNIT - SLOB_UNIT)) at keeps
    rw [Nat.add_sub_cancel] at keeps
    rw [kfree_eq sound.big] at done
    obtain ⟨t', F', freed, sound', _⟩ := free_run sound (fun _ => placed) (List.mem_toFinset.mpr mem) keeps (Nat.lt_succ_self _)
    obtain rfl := free_unique done freed
    refine ⟨distinct.erase b, F', ?_⟩
    dsimp only
    rw [erase_finset distinct]
    exact sound'

theorem boot_held (arena : Nat) : Held arena (boot arena) := ⟨List.nodup_nil, {arena}, initial_sound arena⟩

/- The search for a block that is the only one of the list goes round for ever. -/
theorem find_never (self : h.next cur = cur) (fuel : Nat) : slobFind cur h fuel cur = none := by
  induction fuel with
  | zero => rfl
  | succ fuel ih =>
    unfold slobFind
    rw [self, if_neg (by omega)]
    exact ih

/- Given whole, the only block of the list stays in it. -/
theorem take_only_whole (fit : h.units h.slobfree = units) :
    takeBlock units 0 h.slobfree h.slobfree h = (h.slobfree, h) := by
  unfold takeBlock
  dsimp only
  rw [if_pos rfl]
  dsimp only
  rw [if_pos fit, Function.update_eq_self]

/- Where its front is given, the rest is a list of its own, and `slobfree` is the block given. -/
theorem take_only_part (some_units : 0 < units) (less : h.units h.slobfree ≠ units) :
    ∃ t, takeBlock units 0 h.slobfree h.slobfree h = (h.slobfree, t) ∧ t.slobfree = h.slobfree ∧
      ∃ rest, rest ≠ h.slobfree ∧ t.next h.slobfree = rest ∧ t.next rest = rest := by
  have ne : h.slobfree + units * SLOB_UNIT ≠ h.slobfree := by
    unfold SLOB_UNIT
    omega
  obtain ⟨rest, at_rest⟩ : ∃ rest, rest = h.slobfree + units * SLOB_UNIT := ⟨_, rfl⟩
  rw [← at_rest] at ne
  have taken : takeBlock units 0 h.slobfree h.slobfree h = (h.slobfree, { h with
      units := Function.update (Function.update h.units rest (h.units h.slobfree - units)) h.slobfree units
      next := Function.update (Function.update h.next h.slobfree rest) rest rest }) := by
    unfold takeBlock
    dsimp only
    rw [if_pos rfl]
    dsimp only
    rw [if_neg less, ← at_rest, Function.update_self]
  refine ⟨_, taken, rfl, rest, ne, ?_, Function.update_self ..⟩
  dsimp only
  rw [Function.update_of_ne ne.symm, Function.update_self]

/- What the only block of the list serves stays in it, or leaves it open. -/
theorem only_block_disorderly {s t : Blocks} (placed : arena ≠ 0) (held : Held arena s)
    (step : SmallStep arena s (.kmalloc size used) t) (only : FromOnly s.heap (slobUnits (size + SLOB_UNIT))) :
    ¬ Orderly arena t := by
  obtain ⟨-, F, sound⟩ := held
  obtain ⟨self, room⟩ := only
  have some_units : 0 < slobUnits (size + SLOB_UNIT) := by
    unfold slobUnits SLOB_UNIT
    omega
  have served : ∀ {fuel answers m left u}, kmalloc fuel size answers s.heap = some (m, left, u) → size < 4080 →
      ∃ b, takeBlock (slobUnits (size + SLOB_UNIT)) 0 s.heap.slobfree s.heap.slobfree s.heap = (b, u) ∧ m = some (b + SLOB_UNIT) := by
    intro fuel answers m left u done small
    rw [kmalloc_small small] at done
    obtain ⟨r, alloced, is⟩ := Option.map_eq_some_iff.mp done
    unfold slobAlloc at alloced
    split_ifs at alloced
    cases fuel with
    | zero => cases alloced
    | succ fuel =>
      rw [self, loop_take room] at alloced
      obtain rfl := Option.some.inj alloced
      injection is with is_block rest
      injection rest with _ is_heap
      exact ⟨_, Prod.ext rfl is_heap, is_block.symm⟩
  rintro ⟨-, n, trip, ends, -⟩
  cases step with
  | lack small fresh done =>
    obtain ⟨b, -, is_block⟩ := served done small
    cases is_block
  | @kmalloc fuel _ block _ left u small fresh done =>
    obtain ⟨b, taken, is_block⟩ := served done small
    obtain rfl := Option.some.inj is_block
    dsimp only at trip ends
    by_cases fit : s.heap.units s.heap.slobfree = slobUnits (size + SLOB_UNIT)
    · rw [take_only_whole fit] at taken
      obtain ⟨rfl, rfl⟩ := Prod.mk.inj taken
      obtain ⟨w, freed⟩ := ends s.heap.slobfree (by rw [Nat.add_sub_cancel]; exact List.mem_cons_self)
      have nonzero := sound.nonzero (fun _ => placed) (mem_free sound.start)
      rw [kfree_eq sound.big] at freed
      unfold slobFree at freed
      rw [if_neg nonzero, if_neg (by decide)] at freed
      dsimp only at freed
      rw [find_never self] at freed
      cases freed
    · obtain ⟨t, part, start, rest, ne, first, round⟩ := take_only_part some_units fit
      obtain ⟨rfl, rfl⟩ := Prod.mk.inj (taken.symm.trans part)
      obtain ⟨m, rfl⟩ : ∃ m, n = m + 1 := ⟨n - 1, by have := trip.some_block; omega⟩
      have back := trip.back
      rw [start, Function.iterate_succ_apply, first, Function.iterate_fixed round] at back
      exact ne back

theorem orderly_while_list_kept {s : Blocks} {calls : List SmallCall} (placed : arena ≠ 0)
    (run : Run (KeepingStep arena) (boot arena) calls s) : Orderly arena s ∧ ∀ size used t,
      SmallStep arena s (.kmalloc size used) t → FromOnly s.heap (slobUnits (size + SLOB_UNIT)) → ¬ Orderly arena t := by
  have keep : ∀ s c t, Held arena s → KeepingStep arena s c t → Held arena t := fun _ _ _ => step_held placed
  have held := run_invariant keep run (boot_held arena)
  exact ⟨held_orderly placed held, fun size used t step only => only_block_disorderly placed held step only⟩

/- Both blocks given back leave the arena the first of two, and it is given for no bytes. -/
theorem empty_blocks_orderly : ∃ s, s.live = [100] ∧ s.pages = {4096} ∧ Orderly 100 s := by
  have none_fresh : ∀ {P : Finset Nat}, ∀ p ∈ ([] : List Nat) ++ [], p ≠ 0 → Page 100 p ∧ p ∉ P := fun p mem =>
    absurd mem List.not_mem_nil
  have none_used : ∀ {h : Heap} {units : Nat}, ∀ p ∈ ([] : List Nat), p ≠ 0 → Joins h units p := fun p mem =>
    absurd mem List.not_mem_nil
  have fresh : ∀ p ∈ [4096] ++ [], p ≠ 0 → Page 100 p ∧ p ∉ (boot 100).pages := fun p mem _ =>
    ⟨List.mem_singleton.mp mem ▸ page_above_arena, Finset.notMem_empty p⟩
  have joins : ∀ p ∈ [4096], p ≠ 0 → Joins (boot 100).heap 2 p := fun p mem _ =>
    List.mem_singleton.mp mem ▸ (initial_sound 100).joins (Finset.notMem_empty _) (by decide) page_above_arena (Finset.notMem_empty _)
  have first : KeepingStep 100 (boot 100) (.kmalloc 16 [4096]) _ :=
    ⟨@SmallStep.kmalloc 100 (boot 100) 9 16 4112 [4096] [] _ (by decide) fresh rfl,
      fun only => absurd only.2 (by decide), joins⟩
  have run := Run.call first
    (.call ⟨@SmallStep.kmalloc 100 _ 9 16 4144 [] [] _ (by decide) none_fresh rfl, fun only => absurd only.1 (by decide), none_used⟩
    (.call ⟨@SmallStep.kfree 100 _ 9 4096 _ (by decide) rfl, fun only => absurd only.1 (by decide)⟩
    (.call ⟨@SmallStep.kfree 100 _ 9 4128 _ (by decide) rfl, fun only => absurd only.1 (by decide)⟩
    (.call ⟨@SmallStep.kmalloc 100 _ 9 0 116 [] [] _ (by decide) none_fresh rfl, fun only => absurd only.1 (by decide), none_used⟩
    (.stop _)))))
  exact ⟨_, by decide, by decide, (orderly_while_list_kept (by decide) run).1⟩

/- The arena is given, stays in the list, and is given again. -/
theorem arena_given_twice : ¬ ∀ arena calls s, arena ≠ 0 → Run (SmallStep arena) (boot arena) calls s → Orderly arena s := by
  intro always
  have first := @SmallStep.kmalloc 100 (boot 100) 1 0 116 [] [] _ (by decide) (fun p mem => absurd mem List.not_mem_nil) rfl
  have run := Run.call first (.call (@SmallStep.kmalloc 100 _ 1 0 116 [] [] _ (by decide)
    (fun p mem => absurd mem List.not_mem_nil) rfl) (.stop _))
  exact absurd (always 100 _ _ (by decide) run).distinct (by decide)

end Ucore.Slob
