import Ucore.Mm.FrameCounts

/- `dup_mmap` copies an address space. -/
namespace Ucore.PageTable
open Programs Transitions

/- What happens to the address spaces of the directories: a call, or a word written to a mapped page. -/
inductive MemEvent where
  | call (call : PageCall) (answers : List (Option Nat))
  | write (r la i word : Nat)

def MemStep (dirs : Finset Nat) (s : PmmState) : MemEvent → PmmState → Prop
  | .call call answers, t => CallStep dirs s (call, answers) t
  | .write r la i word, t => r ∈ dirs ∧ la < USERTOP ∧ ∃ f flags, s.translate r la = some (f, flags) ∧
      t = { s with mem := Function.update s.mem f (Function.update (s.mem f) i word) }

/-- The page at `la` of `src` in `s` has been copied to `dst` in `c`, into a frame that was free. -/
def CopyOf (s c : PmmState) (dst src la : Nat) : Prop :=
  match s.translate src la with
  | none => c.translate dst la = none
  | some (f, flags) => ∃ g ∈ s.free, c.translate dst la = some (g, PTE_V ||| (flags &&& PTE_USER)) ∧ c.mem g = s.mem f

/-- From `s` to `c` the pages that are `finished` have been copied, and nothing else has changed. -/
structure Copying (s c : PmmState) (dirs : Finset Nat) (place : Nat → Option Place) (dst src : Nat)
    (finished : Nat → Prop) : Prop where
  ok : ∃ place', TablesOk c dirs place' ∧ (∀ z, place z = none → z ∉ s.free → place' z = none) ∧
    ∀ t x, place t = some x → place' t = some x
  others : ∀ r ∈ dirs, r ≠ dst → ∀ la < USERTOP, c.translate r la = s.translate r la
  frames : ∀ z, place z = none → z ∉ s.free → c.mem z = s.mem z ∧ c.ref z = s.ref z ∧ z ∉ c.free
  fresh : ∀ la < USERTOP, ¬ finished la → c.translate dst la = none
  copied : ∀ la < USERTOP, finished la → CopyOf s c dst src la

section
variable {s c u : PmmState} {dirs : Finset Nat} {place : Nat → Option Place} {dst src start last la : Nat}
  {finished : Nat → Prop}

theorem mapped_data {r f flags : Nat} (ok : TablesOk s dirs place) (dir : r ∈ dirs) (user : la < USERTOP)
    (mapped : s.translate r la = some (f, flags)) : place f = none ∧ f ∉ s.free := by
  have frame : (s.pageMap dirs r (PPN la)).map Prod.fst = some f := by
    rw [map_here dir user, mapped]
    rfl
  exact mapped_frame ok frame

theorem copying_refl (ok : TablesOk s dirs place) (empty : ∀ la < USERTOP, s.translate dst la = none) :
    Copying s s dirs place dst src fun _ => False :=
  ⟨⟨place, ok, fun _ data _ => data, fun _ _ here => here⟩, fun _ _ _ _ _ => rfl, fun _ _ used => ⟨rfl, rfl, used⟩,
    fun la user _ => empty la user, fun _ _ never => never.elim⟩

/- A page of `src` that is not there is copied as it is. -/
theorem absent_copied (absent : s.translate src la = none) (unmapped : c.translate dst la = none) :
    CopyOf s c dst src la := by
  unfold CopyOf
  rw [absent]
  exact unmapped

/- A free page at `c` was free at `s`. -/
theorem free_before (copying : Copying s c dirs place dst src finished) {g : Nat} (free : g ∈ c.free) : g ∈ s.free := by
  obtain ⟨place', ok, _, stays⟩ := copying.ok
  by_contra used
  cases here : place g with
  | none => exact (copying.frames g here used).2.2 free
  | some x => exact (ok.placed.used g x (stays g x here)).1 free

/- A turn of `copy_range` on pages that are not finished. -/
theorem copying_turn {next : Nat} (copying : Copying s c dirs place dst src finished) (dstDir : dst ∈ dirs)
    (srcDir : src ∈ dirs) (other : src ≠ dst) (ok : TablesOk s dirs place) (user : start < USERTOP)
    (aligned : start % PGSIZE = 0) (ahead : ∀ la, start ≤ la → la < start + PGSIZE → ¬ finished la)
    (ran : copyTurn dst src start c = .ok (some next, u)) :
    Copying s u dirs place dst src (fun la => finished la ∨ (start ≤ la ∧ la < next)) ∧
      next % PGSIZE = 0 ∧ start + PGSIZE ≤ next := by
  obtain ⟨placeC, okC, dataC, staysC⟩ := copying.ok
  have met := copy_turn_meets okC dstDir srcDir user aligned
  unfold Meets at met
  rw [ran] at met
  obtain ⟨⟨placeU, okU, dataU, staysU⟩, _, result⟩ := met
  rcases result with ⟨failed, _⟩ | ⟨n, same, rfl, aligned', progress, absent⟩ | ⟨same, copied⟩
  · cases failed
  · cases same
    refine ⟨⟨copying.ok, copying.others, copying.frames, fun la low unfinished => ?_, fun la low now => ?_⟩, aligned',
      progress⟩
    · exact copying.fresh la low fun before => unfinished (.inl before)
    · by_cases before : finished la
      · exact copying.copied la low before
      · obtain ⟨behind, below⟩ := now.resolve_left before
        have gone := absent la low behind below
        rw [copying.others src srcDir other la low] at gone
        exact absent_copied gone (copying.fresh la low before)
  · cases same
    obtain ⟨f, flags, g, mapped, free, content, maps, frames⟩ := copied
    have unmapped : c.translate dst start = none :=
      copying.fresh start user (ahead start (le_refl _) (Nat.lt_add_of_pos_right (by decide)))
    have page : ∀ la, PPN la = PPN start ↔ start ≤ la ∧ la < start + PGSIZE := by
      intro la
      rw [ppn_eq, ppn_eq]
      unfold PGSIZE at *
      omega
    rw [copying.others src srcDir other start user] at mapped
    refine ⟨⟨⟨placeU, okU, ?_, fun t x here => staysU t x (staysC t x here)⟩, fun r dir notDst la low => ?_,
      fun z data used => ?_, fun la low unfinished => ?_, fun la low now => ?_⟩, ?_, le_refl _⟩
    · exact fun z data used => dataU z (dataC z data used) (copying.frames z data used).2.2
    · rw [maps r dir la low, if_neg fun both => notDst both.1]
      exact copying.others r dir notDst la low
    · obtain ⟨mem, ref, used'⟩ := copying.frames z data used
      obtain ⟨memU, kept⟩ := frames z (dataC z data used) used'
      obtain ⟨refU, usedU⟩ := kept unmapped
      exact ⟨memU.trans mem, refU.trans ref, usedU⟩
    · rw [maps dst dstDir la low, if_neg fun both => unfinished (.inr ((page la).mp both.2))]
      exact copying.fresh la low fun before => unfinished (.inl before)
    · by_cases here : PPN la = PPN start
      · have source : s.translate src la = some (f, flags) := (translate_page here).trans mapped
        unfold CopyOf
        rw [source]
        have inUse : c.mem f = s.mem f := by
          obtain ⟨data, used⟩ := mapped_data ok srcDir low source
          exact (copying.frames f data used).1
        refine ⟨g, free_before copying free, ?_, content.trans inUse⟩
        rw [maps dst dstDir la low, if_pos ⟨rfl, here⟩]
      · have before : finished la := now.resolve_right fun inside => here ((page la).mpr inside)
        have old := copying.copied la low before
        unfold CopyOf at old ⊢
        have kept : u.translate dst la = c.translate dst la := by
          rw [maps dst dstDir la low, if_neg fun both => here both.2]
        cases source : s.translate src la with
        | none =>
          rw [source] at old
          exact kept.trans old
        | some x =>
          rw [source] at old
          obtain ⟨g', free', mapped', content'⟩ := old
          obtain ⟨data, used⟩ := mapped_data okC dstDir low mapped'
          exact ⟨g', free', kept.trans mapped', (frames g' data used).1.trans content'⟩
    · unfold PGSIZE at *
      omega

/- The loop of `copy_range`, where it succeeds. -/
theorem copying_loop {fuel first : Nat} {ret : Int} (copying : Copying s c dirs place dst src fun la =>
      finished la ∨ (first ≤ la ∧ la < start)) (dstDir : dst ∈ dirs) (srcDir : src ∈ dirs) (other : src ≠ dst)
    (ok : TablesOk s dirs place) (top : last ≤ USERTOP) (below : start < last) (behind : first ≤ start)
    (aligned : start % PGSIZE = 0) (whole : last % PGSIZE = 0) (above : ∀ la, finished la → last ≤ la)
    (ran : copyLoop dst src last fuel start c = .ok (ret, u)) (done : ret = 0) :
    ∃ stop, last ≤ stop ∧ Copying s u dirs place dst src fun la => finished la ∨ (first ≤ la ∧ la < stop) := by
  induction fuel generalizing start c with
  | zero => cases ran
  | succ fuel ih =>
    unfold copyLoop at ran
    obtain ⟨next, v, turn, ran⟩ := bind_ran ran
    cases next with
    | none =>
      cases ran
      cases done
    | some next =>
      have ahead : ∀ la, start ≤ la → la < start + PGSIZE →
          ¬ (finished la ∨ (first ≤ la ∧ la < start)) := by
        rintro la after early (before | ⟨_, passed⟩)
        · have beyond := above la before
          unfold PGSIZE at *
          omega
        · omega
      obtain ⟨copied, aligned', progress⟩ :=
        copying_turn copying dstDir srcDir other ok (Nat.lt_of_lt_of_le below top) aligned ahead turn
      have moved : Copying s v dirs place dst src fun la => finished la ∨ (first ≤ la ∧ la < next) := by
        have same : (fun la => (finished la ∨ (first ≤ la ∧ la < start)) ∨ (start ≤ la ∧ la < next)) =
            fun la => finished la ∨ (first ≤ la ∧ la < next) := by
          funext la
          apply propext
          constructor
          · rintro ((before | ⟨after, early⟩) | ⟨after, early⟩)
            · exact .inl before
            · exact .inr ⟨after, by omega⟩
            · exact .inr ⟨by omega, early⟩
          · rintro (before | ⟨after, early⟩)
            · exact .inl (.inl before)
            · by_cases passed : la < start
              · exact .inl (.inr ⟨after, passed⟩)
              · exact .inr ⟨by omega, early⟩
        rw [← same]
        exact copied
      dsimp only at ran
      by_cases again : next ≠ 0 ∧ next < last
      · rw [if_pos again] at ran
        exact ih moved again.2 (by omega) aligned' ran
      · rw [if_neg again] at ran
        cases ran
        refine ⟨next, ?_, moved⟩
        by_contra more
        exact again ⟨by unfold PGSIZE at *; omega, by omega⟩

/- `copy_range`, where it succeeds. -/
theorem copying_range {ret : Int} (copying : Copying s c dirs place dst src finished) (dstDir : dst ∈ dirs)
    (srcDir : src ∈ dirs) (other : src ≠ dst) (ok : TablesOk s dirs place) (above : ∀ la, finished la → last ≤ la)
    (ran : copyRange dst src start last c = .ok (ret, u)) (done : ret = 0) :
    start < last ∧ ∃ stop, last ≤ stop ∧
      Copying s u dirs place dst src fun la => finished la ∨ (start ≤ la ∧ la < stop) := by
  obtain ⟨aligned, ran⟩ := check_ran ran
  obtain ⟨access, ran⟩ := check_ran ran
  have begun : Copying s c dirs place dst src fun la => finished la ∨ (start ≤ la ∧ la < start) := by
    have same : (fun la => finished la ∨ (start ≤ la ∧ la < start)) = finished := by
      funext la
      apply propext
      constructor
      · rintro (before | ⟨after, early⟩)
        · exact before
        · omega
      · exact Or.inl
    rw [same]
    exact copying
  exact ⟨access.2.1, copying_loop begun dstDir srcDir other ok access.2.2 access.2.1 (le_refl _) aligned.1 aligned.2
    above ran done⟩

/- A VMA below those of the list goes to its front. -/
theorem insert_vma_front {list out : List VmaStruct} {vma : VmaStruct}
    (lower : ∀ old ∈ list, vma.vmEnd ≤ old.vmStart) (ran : insertVmaStruct list vma c = .ok (out, u)) :
    u = c ∧ out = vma :: list := by
  unfold insertVmaStruct at ran
  obtain ⟨proper, ran⟩ := check_ran ran
  have passed : list.takeWhile (fun old => old.vmStart ≤ vma.vmStart) = [] := by
    cases list with
    | nil => rfl
    | cons old rest =>
      have beyond := lower old (.head _)
      exact List.takeWhile_cons_of_neg (by simpa using by omega)
  have rest : list.dropWhile (fun old => old.vmStart ≤ vma.vmStart) = list := by
    have whole := List.takeWhile_append_dropWhile (p := fun old : VmaStruct => old.vmStart ≤ vma.vmStart) (l := list)
    rw [passed] at whole
    exact whole
  dsimp only at ran
  rw [passed, rest] at ran
  cases list with
  | nil =>
    cases ran
    exact ⟨rfl, rfl⟩
  | cons old later =>
    change (checkVmaOverlap vma old >>= fun _ => pure (vma :: old :: later)) c = _ at ran
    unfold checkVmaOverlap at ran
    rw [bind_assoc] at ran
    obtain ⟨_, ran⟩ := check_ran ran
    rw [bind_assoc] at ran
    obtain ⟨_, ran⟩ := check_ran ran
    obtain ⟨_, ran⟩ := check_ran ran
    cases ran
    exact ⟨rfl, rfl⟩

/- The loop of `dup_mmap`, where it succeeds. -/
theorem copying_vmas {vmas list out : List VmaStruct} {created : List Bool}
    (copying : Copying s c dirs place dst src finished) (dstDir : dst ∈ dirs) (srcDir : src ∈ dirs)
    (other : src ≠ dst) (ok : TablesOk s dirs place)
    (sorted : vmas.Pairwise fun high low => low.vmEnd ≤ high.vmStart)
    (lower : ∀ vma ∈ vmas, ∀ old ∈ list, vma.vmEnd ≤ old.vmStart)
    (above : ∀ vma ∈ vmas, ∀ la, finished la → vma.vmEnd ≤ la)
    (ran : dupVmas dst src vmas created list c = .ok ((0, out), u)) :
    out = vmas.reverse ++ list ∧ ∃ finished', Copying s u dirs place dst src finished' ∧
      (∀ la, finished la → finished' la) ∧
      ∀ vma ∈ vmas, ∀ la, vma.vmStart ≤ la → la < vma.vmEnd → finished' la := by
  induction vmas generalizing created list c finished with
  | nil =>
    cases ran
    exact ⟨rfl, finished, copying, fun _ before => before, fun _ mem => absurd mem List.not_mem_nil⟩
  | cons vma rest ih =>
    unfold dupVmas at ran
    by_cases failed : created.head? ≠ some true
    · rw [if_pos failed] at ran
      cases ran
    · rw [if_neg failed] at ran
      obtain ⟨list', v, inserted, ran⟩ := bind_ran ran
      obtain ⟨rfl, rfl⟩ := insert_vma_front (fun old mem => lower vma (.head _) old mem) inserted
      obtain ⟨ret, w, range, ran⟩ := bind_ran ran
      by_cases some_left : ret ≠ 0
      · rw [if_pos some_left] at ran
        cases ran
      · rw [if_neg some_left] at ran
        obtain ⟨proper, stop, beyond, copied⟩ := copying_range copying dstDir srcDir other ok
          (fun la before => above vma (.head _) la before) range (not_not.mp some_left)
        obtain ⟨below, sorted⟩ := List.pairwise_cons.mp sorted
        have lower' : ∀ low ∈ rest, ∀ old ∈ vma :: list, low.vmEnd ≤ old.vmStart := by
          intro low mem old inside
          rcases List.mem_cons.mp inside with rfl | later
          · exact below low mem
          · exact lower low (.tail _ mem) old later
        have above' : ∀ low ∈ rest, ∀ la, finished la ∨ (vma.vmStart ≤ la ∧ la < stop) → low.vmEnd ≤ la := by
          rintro low mem la (before | ⟨after, _⟩)
          · exact above low (.tail _ mem) la before
          · exact Nat.le_trans (below low mem) after
        obtain ⟨whole, finished', all, stays, covered⟩ := ih copied sorted lower' above' ran
        refine ⟨?_, finished', all, fun la before => stays la (.inl before), fun one mem la after before => ?_⟩
        · rw [whole, List.reverse_cons, List.append_assoc, List.singleton_append]
        · rcases List.mem_cons.mp mem with rfl | later
          · exact stays la (.inr ⟨after, by omega⟩)
          · exact covered one later la after before

theorem mem_step_ok {e : MemEvent} {t : PmmState} (ok : TablesOk s dirs place) (step : MemStep dirs s e t) :
    ∃ place, TablesOk t dirs place := by
  cases e with
  | call call answers =>
    obtain ⟨turns, run⟩ := call_turns ok step
    exact page_run_ok ⟨place, ok⟩ run
  | write r la i word =>
    obtain ⟨dir, user, f, flags, mapped, rfl⟩ := step
    have data := (mapped_data ok dir user mapped).1
    have tables : ∀ z, place z ≠ none →
        Function.update s.mem f (Function.update (s.mem f) i word) z = s.mem z := by
      intro z there
      apply Function.update_of_ne
      rintro rfl
      exact there data
    exact ⟨place, (same_tables_ok (u := { s with mem := _ }) ok tables (Finset.Subset.refl _) rfl rfl).1⟩

theorem mem_run_ok {es : List MemEvent} {t : PmmState} (blank : Blank s dirs) (run : Run (MemStep dirs) s es t) :
    ∃ place, TablesOk t dirs place := by
  have keep : ∀ s e t, (∃ place, TablesOk s dirs place) → MemStep dirs s e t → ∃ place, TablesOk t dirs place := by
    rintro s e t ⟨place, ok⟩ step
    exact mem_step_ok ok step
  exact run_invariant keep run ⟨_, blank_ok blank⟩

/- The permissions of a valid entry that are copied are the user's. -/
theorem copied_flags {flags : Nat} (valid : flags % 2 = 1) :
    (PTE_V ||| (flags &&& PTE_USER)) &&& PTE_USER = flags &&& PTE_USER := by
  have low : flags &&& PTE_USER = flags % 32 := by
    rw [show PTE_USER = 2 ^ 5 - 1 from rfl, Nat.and_two_pow_sub_one_eq_mod]
  have small : ∀ m < 32, m % 2 = 1 → (PTE_V ||| m) &&& PTE_USER = m := by decide
  rw [low]
  exact small _ (by omega) (by omega)

theorem translate_valid {f flags : Nat} (mapped : s.translate src la = some (f, flags)) : flags % 2 = 1 := by
  cases table : s.leafTable src la with
  | none =>
    rw [translate_none table] at mapped
    cases mapped
  | some pt =>
    rw [translate_entry table] at mapped
    unfold entryMap at mapped
    split_ifs at mapped with valid
    cases mapped
    rw [valid_iff] at valid
    omega

/- The page at `la` of `src` in `s` is a page of `dst` in `u`: with the permissions and the words that it
has in `s`, in a frame that `src` does not use. -/
def SamePage (s u : PmmState) (dst src la : Nat) : Prop :=
  match s.translate src la, u.translate dst la with
  | none, none => True
  | some (f, flags), some (g, flags') => flags' &&& PTE_USER = flags &&& PTE_USER ∧ u.mem g = s.mem f ∧
      ∀ la' < USERTOP, ∀ f' flags', s.translate src la' = some (f', flags') → g ≠ f'
  | _, _ => False

theorem copy_is_same (ok : TablesOk s dirs place) (srcDir : src ∈ dirs) (copied : CopyOf s u dst src la) :
    SamePage s u dst src la := by
  unfold CopyOf at copied
  unfold SamePage
  cases source : s.translate src la with
  | none =>
    rw [source] at copied
    rw [copied]
    trivial
  | some x =>
    obtain ⟨f, flags⟩ := x
    rw [source] at copied
    obtain ⟨g, free, mapped, content⟩ := copied
    rw [mapped]
    refine ⟨copied_flags (translate_valid source), content, ?_⟩
    rintro la' user' f' flags' other rfl
    exact (mapped_data ok srcDir user' other).2 free

end

/-- Where `dup_mmap` of a reachable address space into an empty one returns 0, the child has the VMAs and
the pages of the parent, in frames of its own, and the parent has what it had. -/
theorem fork_copies {dirs : Finset Nat} {s t u : PmmState} {es : List MemEvent} {dst src : Nat}
    {vmas out : List VmaStruct} {created : List Bool} {answers : List (Option Nat)} (blank : Blank s dirs)
    (run : Run (MemStep dirs) s es t) (dstDir : dst ∈ dirs) (srcDir : src ∈ dirs) (other : src ≠ dst)
    (sorted : vmas.Pairwise fun low high => low.vmEnd ≤ high.vmStart)
    (within : ∀ la < USERTOP, t.translate src la ≠ none → ∃ vma ∈ vmas, vma.vmStart ≤ la ∧ la < vma.vmEnd)
    (empty : ∀ la < USERTOP, t.translate dst la = none)
    (ran : dupMmap dst src vmas created { t with answers := answers } = .ok ((0, out), u)) :
    out = vmas ∧ ∀ la < USERTOP, SamePage t u dst src la ∧ u.translate src la = t.translate src la ∧
      ∀ f flags, t.translate src la = some (f, flags) → u.mem f = t.mem f ∧ u.ref f = t.ref f := by
  obtain ⟨place, ok⟩ := mem_run_ok blank run
  have fresh : TablesOk { t with answers := answers } dirs place := ok_answers answers ok
  have down : vmas.reverse.Pairwise fun high low => low.vmEnd ≤ high.vmStart := List.pairwise_reverse.mpr sorted
  obtain ⟨whole, finished, copying, _, covered⟩ := copying_vmas (copying_refl fresh empty) dstDir srcDir other fresh
    down (fun _ _ _ mem => absurd mem List.not_mem_nil) (fun _ _ _ never => never.elim) ran
  refine ⟨?_, fun la user => ⟨?_, copying.others src srcDir other la user, fun f flags mapped => ?_⟩⟩
  · rw [whole, List.reverse_reverse, List.append_nil]
  · apply copy_is_same (s := { t with answers := answers }) fresh srcDir
    by_cases done : finished la
    · exact copying.copied la user done
    · refine absent_copied ?_ (copying.fresh la user done)
      by_contra there
      obtain ⟨vma, mem, after, before⟩ := within la user there
      exact done (covered vma (List.mem_reverse.mpr mem) la after before)
  · obtain ⟨data, used⟩ := mapped_data ok srcDir user mapped
    obtain ⟨mem, ref, _⟩ := copying.frames f data used
    exact ⟨mem, ref⟩

def memReplay (dirs : Finset Nat) (s : PmmState) : MemEvent → Option PmmState
  | .call call answers => callReplay dirs s (call, answers)
  | .write r la i word =>
      if r ∈ dirs ∧ la < USERTOP then
        (s.translate r la).map fun x => { s with mem := Function.update s.mem x.1 (Function.update (s.mem x.1) i word) }
      else none

theorem mem_replayed {dirs : Finset Nat} {s t : PmmState} {e : MemEvent} (done : memReplay dirs s e = some t) :
    MemStep dirs s e t := by
  cases e with
  | call call answers => exact call_replayed done
  | write r la i word =>
    unfold memReplay at done
    dsimp only at done
    split_ifs at done with user
    obtain ⟨⟨f, flags⟩, mapped, rfl⟩ := Option.map_eq_some_iff.mp done
    exact ⟨user.1, user.2, f, flags, mapped, rfl⟩

/- A page is mapped in directory 0 and written to. -/
def mapAndWrite : List MemEvent :=
  [.call (.page (.pgdirAlloc 0 0x200000 0x1E)) [some 5, some 6, some 7], .write 0 0x200000 3 77]

def onePage : VmaStruct := ⟨⟨0x200000, 0x201000⟩, 3⟩

def NoTables (t : PmmState) (r : Nat) : Prop := ∀ i < userDirs, t.tableOf r i = none

instance (t : PmmState) (r : Nat) : Decidable (NoTables t r) := inferInstanceAs (Decidable (∀ _ < _, _))

/- The tables of `onePage` in directory 0 are the pages 6 and 7. -/
def OnlyPage (t : PmmState) : Prop :=
  t.tableOf 0 1 = none ∧ t.tableOf 0 0 = some 6 ∧ (∀ j < 512, j ≠ 1 → t.tableOf 6 j = none) ∧
    t.tableOf 6 1 = some 7 ∧ ∀ k < 512, k ≠ 0 → ¬ Valid (t.mem 7 k)

instance (t : PmmState) : Decidable (OnlyPage t) := inferInstanceAs (Decidable (_ ∧ _ ∧ _ ∧ _ ∧ _))

theorem only_page {t : PmmState} {la : Nat} (parent : OnlyPage t) (user : la < USERTOP)
    (there : t.translate 0 la ≠ none) : onePage.vmStart ≤ la ∧ la < onePage.vmEnd := by
  obtain ⟨above, first, beside, second, pages⟩ := parent
  have root : PDX1 la = 0 := by
    by_contra other
    have one : PDX1 la = 1 := by
      have low : PDX1 la < 2 := user_dir user
      omega
    apply there
    apply translate_none
    unfold PmmState.leafTable
    rw [one, above]
    rfl
  have middle : PDX0 la = 1 := by
    by_contra other
    apply there
    apply translate_none
    unfold PmmState.leafTable
    rw [root, first]
    exact beside _ pdx0_lt other
  have leaf : PTX la = 0 := by
    by_contra other
    apply there
    have table : t.leafTable 0 la = some 7 := by
      unfold PmmState.leafTable
      rw [root, first, Option.bind_some, middle, second]
    rw [translate_entry table]
    exact if_neg (pages _ ptx_lt other)
  rw [pdx1_eq] at root
  rw [pdx0_eq] at middle
  rw [ptx_eq] at leaf
  unfold USERTOP at user
  unfold onePage
  dsimp only
  omega

theorem page_is_copied : ∃ t u out, Run (MemStep {0, 1}) sparePages mapAndWrite t ∧ out = [onePage] ∧
    u.translate 1 0x200000 = some (10, 0x1F) ∧ u.mem 10 3 = 77 ∧ SamePage t u 1 0 0x200000 := by
  have seen : (replay (memReplay {0, 1}) sparePages mapAndWrite).any (fun t =>
      decide (OnlyPage t) && decide (NoTables t 1) &&
      (dupMmap 1 0 [onePage] [true] { t with answers := [some 8, some 9, some 10] }).toOption.any fun r =>
        decide (r.1.1 = 0 ∧ r.2.translate 1 0x200000 = some (10, 0x1F) ∧ r.2.mem 10 3 = 77)) = true := by
    decide +kernel
  obtain ⟨t, done, facts⟩ := (Option.any_eq_true _ _).mp seen
  rw [Bool.and_eq_true, Bool.and_eq_true] at facts
  obtain ⟨⟨parent, child⟩, copied⟩ := facts
  have unmapped : NoTables t 1 := of_decide_eq_true child
  obtain ⟨⟨⟨ret, out⟩, u⟩, some_result, shown⟩ := (Option.any_eq_true _ _).mp copied
  obtain ⟨rfl, mapped, word⟩ := of_decide_eq_true shown
  have ran : dupMmap 1 0 [onePage] [true] { t with answers := [some 8, some 9, some 10] } = .ok ((0, out), u) := by
    cases result : dupMmap 1 0 [onePage] [true] { t with answers := [some 8, some 9, some 10] } with
    | error e =>
      rw [result] at some_result
      cases some_result
    | ok r =>
      rw [result] at some_result
      exact congrArg Except.ok (Option.some.inj some_result)
  have run : Run (MemStep {0, 1}) sparePages mapAndWrite t := run_mono (fun s e t => mem_replayed) (replay_run done)
  have within : ∀ la < USERTOP, t.translate 0 la ≠ none → ∃ vma ∈ [onePage], vma.vmStart ≤ la ∧ la < vma.vmEnd := by
    intro la user there
    exact ⟨onePage, .head _, only_page (of_decide_eq_true parent) user there⟩
  have empty : ∀ la < USERTOP, t.translate 1 la = none := by
    intro la user
    apply translate_none
    unfold PmmState.leafTable
    rw [unmapped _ (user_dir user)]
    rfl
  have law := fork_copies spare_pages_blank run (by decide) (by decide) (by decide) (List.pairwise_singleton _ _)
    within empty ran
  exact ⟨t, u, out, run, law.1, mapped, word, (law.2 0x200000 (by decide)).1⟩

end Ucore.PageTable
