import Ucore.Mm.CopySteps

/- Frames over runs of the calls that map and unmap pages: a frame is counted once for each page that is
   mapped to it, and handed back with the last one. -/
namespace Ucore.PageTable
open Programs Transitions

/-- What happens to one page; `unmap_range` and `copy_range` take many turns. -/
inductive PageOp where
  | alloc
  | insert (r page la perm : Nat)
  | remove (r la : Nat)
  | pgdirAlloc (r la perm : Nat)
  | unmapTurn (r start : Nat)
  | copyTurn (dst src start : Nat)

inductive PageCall where
  | page (op : PageOp)
  | unmapRange (r start last : Nat)
  | copyRange (dst src start last : Nat)

def PageOp.run : PageOp → PmmM Unit
  | .alloc => do let _ ← allocPage
  | .insert r page la perm => do let _ ← pageInsert r page la perm
  | .remove r la => pageRemove r la
  | .pgdirAlloc r la perm => do let _ ← pgdirAllocPage r la perm
  | .unmapTurn r start => do let _ ← PageTable.unmapTurn r start
  | .copyTurn dst src start => do let _ ← PageTable.copyTurn dst src start

def PageCall.run : PageCall → PmmM Unit
  | .page op => op.run
  | .unmapRange r start last => PageTable.unmapRange r start last
  | .copyRange dst src start last => do let _ ← PageTable.copyRange dst src start last

/-- The address is one of the user, and a page that is inserted is neither free nor a table. -/
def PageOp.Possible (dirs : Finset Nat) (s : PmmState) : PageOp → Prop
  | .alloc => True
  | .insert r page la perm => (r ∈ dirs ∧ la < USERTOP) ∧ perm < 1024 ∧ page < s.npage ∧
      page ∉ s.free ∧ ¬ s.IsTable dirs page
  | .remove r la => r ∈ dirs ∧ la < USERTOP
  | .pgdirAlloc r la perm => (r ∈ dirs ∧ la < USERTOP) ∧ perm < 1024
  | .unmapTurn r start => (r ∈ dirs ∧ start < USERTOP) ∧ start % PGSIZE = 0
  | .copyTurn dst src start => dst ∈ dirs ∧ src ∈ dirs ∧ start < USERTOP ∧ start % PGSIZE = 0

def PageCall.Possible (dirs : Finset Nat) (s : PmmState) : PageCall → Prop
  | .page op => op.Possible dirs s
  | .unmapRange r _ _ => r ∈ dirs
  | .copyRange dst src _ _ => dst ∈ dirs ∧ src ∈ dirs

/-- A step on one page, with what the allocator will answer. -/
def PageStep (dirs : Finset Nat) (s : PmmState) (e : PageOp × List (Option Nat)) (t : PmmState) : Prop :=
  e.1.Possible dirs s ∧ e.1.run { s with answers := e.2 } = .ok ((), t)

def CallStep (dirs : Finset Nat) (s : PmmState) (e : PageCall × List (Option Nat)) (t : PmmState) : Prop :=
  e.1.Possible dirs s ∧ e.1.run { s with answers := e.2 } = .ok ((), t)

section
variable {s t u : PmmState} {dirs : Finset Nat} {place : Nat → Option Place} {r dst src start last : Nat}

theorem discard_run {α : Type} {m : PmmM α} (ran : (do let _ ← m : PmmM Unit) s = .ok ((), t)) :
    ∃ a, m s = .ok (a, t) := by
  obtain ⟨a, _, run, rest⟩ := bind_ran ran
  cases rest
  exact ⟨a, run⟩

theorem op_ok {op : PageOp} (ok : TablesOk s dirs place) (possible : op.Possible dirs s)
    (ran : op.run s = .ok ((), t)) : (∃ place', TablesOk t dirs place') ∧ HandedBack s t dirs := by
  cases op with
  | alloc =>
    obtain ⟨_, ran⟩ := discard_run ran
    obtain ⟨ret, u, ran', answer⟩ := alloc_ends ok
    cases ran.symm.trans ran'
    rcases answer with ⟨_, rfl⟩ | ⟨p, free, _, rfl, _⟩
    · exact ⟨⟨place, ok_answers _ ok⟩, handed_same (fun _ _ _ _ => rfl) rfl⟩
    · obtain ⟨ok', same⟩ := taken_ok (s.mem p) ok free
      exact ⟨⟨place, ok'⟩, handed_same same rfl⟩
  | insert r page la perm =>
    obtain ⟨⟨dir, user⟩, small, bounded, used, data⟩ := possible
    obtain ⟨_, ran⟩ := discard_run ran
    have none_there : place page = none := by
      by_contra there
      exact data ((placed_table ok.placed page).mp there)
    obtain ⟨_, u, place', ran', ok', handed, _⟩ := insert_ends ok dir user small bounded used none_there
    cases ran.symm.trans ran'
    exact ⟨⟨place', ok'⟩, handed⟩
  | remove r la =>
    obtain ⟨u, ran', ok', handed⟩ := remove_ends ok possible.1 possible.2
    cases ran.symm.trans ran'
    exact ⟨⟨place, ok'⟩, handed⟩
  | pgdirAlloc r la perm =>
    obtain ⟨⟨dir, user⟩, small⟩ := possible
    obtain ⟨_, ran⟩ := discard_run ran
    obtain ⟨_, u, place', ran', ok', handed⟩ := pgdir_alloc_ends ok dir user small
    cases ran.symm.trans ran'
    exact ⟨⟨place', ok'⟩, handed⟩
  | unmapTurn r start =>
    obtain ⟨⟨dir, user⟩, aligned⟩ := possible
    obtain ⟨_, ran⟩ := discard_run ran
    obtain ⟨_, u, ran', ok', handed, _⟩ := unmap_turn_ends ok dir user aligned
    cases ran.symm.trans ran'
    exact ⟨⟨place, ok'⟩, handed⟩
  | copyTurn dst src start =>
    obtain ⟨dstDir, srcDir, user, aligned⟩ := possible
    obtain ⟨_, ran⟩ := discard_run ran
    have met := copy_turn_meets ok dstDir srcDir user aligned
    unfold Meets at met
    rw [ran] at met
    obtain ⟨⟨place', ok', _⟩, handed, _⟩ := met
    exact ⟨⟨place', ok'⟩, handed⟩

theorem page_step_ok {e : PageOp × List (Option Nat)} (ok : TablesOk s dirs place) (step : PageStep dirs s e t) :
    (∃ place', TablesOk t dirs place') ∧ HandedBack s t dirs := by
  have possible : e.1.Possible dirs { s with answers := e.2 } := by
    obtain ⟨op, answers⟩ := e
    cases op <;> exact step.1
  exact op_ok (s := { s with answers := e.2 }) (ok_answers e.2 ok) possible step.2

theorem page_run_ok {es : List (PageOp × List (Option Nat))} (ok : ∃ place, TablesOk s dirs place)
    (run : Run (PageStep dirs) s es t) : ∃ place, TablesOk t dirs place := by
  have keep : ∀ s e t, (∃ place, TablesOk s dirs place) → PageStep dirs s e t → ∃ place, TablesOk t dirs place := by
    rintro s e t ⟨place, ok⟩ step
    exact (page_step_ok ok step).1
  exact run_invariant keep run ok

/- The loop of `unmap_range` is a run of its turns. -/
theorem unmap_loop_turns {fuel : Nat} (ok : TablesOk s dirs place) (dir : r ∈ dirs) (top : last ≤ USERTOP)
    (below : start < last) (aligned : start % PGSIZE = 0) (ran : unmapLoop r last fuel start s = .ok ((), t)) :
    ∃ turns, turns ≠ [] ∧ Run (PageStep dirs) s turns t := by
  induction fuel generalizing start s with
  | zero => cases ran
  | succ fuel ih =>
    obtain ⟨next, u, turn, okU, _, aligned'⟩ := unmap_turn_ends ok dir (Nat.lt_of_lt_of_le below top) aligned
    have step : PageStep dirs s (.unmapTurn r start, s.answers) u :=
      ⟨⟨⟨dir, Nat.lt_of_lt_of_le below top⟩, aligned⟩, run_bind turn⟩
    unfold unmapLoop at ran
    rw [run_bind turn] at ran
    by_cases again : next ≠ 0 ∧ next < last
    · rw [if_pos again] at ran
      obtain ⟨turns, _, rest⟩ := ih okU again.2 aligned' ran
      exact ⟨_, List.cons_ne_nil _ _, .call step rest⟩
    · rw [if_neg again] at ran
      cases ran
      exact ⟨_, List.cons_ne_nil _ _, .call step (.stop _)⟩

theorem copy_loop_turns {fuel : Nat} {ret : Int} (ok : ∃ place, TablesOk s dirs place) (dstDir : dst ∈ dirs)
    (srcDir : src ∈ dirs) (top : last ≤ USERTOP) (below : start < last) (aligned : start % PGSIZE = 0)
    (ran : copyLoop dst src last fuel start s = .ok (ret, t)) :
    ∃ turns, turns ≠ [] ∧ Run (PageStep dirs) s turns t := by
  induction fuel generalizing start s with
  | zero => cases ran
  | succ fuel ih =>
    obtain ⟨place, ok⟩ := ok
    have user := Nat.lt_of_lt_of_le below top
    have met := copy_turn_meets ok dstDir srcDir user aligned
    unfold copyLoop at ran
    unfold Meets at met
    obtain ⟨next, u, turn, ran⟩ := bind_ran ran
    rw [turn] at met
    obtain ⟨⟨place', ok', _⟩, _, result⟩ := met
    have step : PageStep dirs s (.copyTurn dst src start, s.answers) u :=
      ⟨⟨dstDir, srcDir, user, aligned⟩, run_bind turn⟩
    cases next with
    | none =>
      cases ran
      exact ⟨_, List.cons_ne_nil _ _, .call step (.stop _)⟩
    | some next =>
      have aligned' : next % PGSIZE = 0 := by
        rcases result with ⟨failed, _⟩ | ⟨n, same, _, aligned', _⟩ | ⟨same, _⟩
        · cases failed
        · cases same
          exact aligned'
        · cases same
          unfold PGSIZE at *
          omega
      dsimp only at ran
      by_cases again : next ≠ 0 ∧ next < last
      · rw [if_pos again] at ran
        obtain ⟨turns, _, rest⟩ := ih ⟨place', ok'⟩ again.2 aligned' ran
        exact ⟨_, List.cons_ne_nil _ _, .call step rest⟩
      · rw [if_neg again] at ran
        cases ran
        exact ⟨_, List.cons_ne_nil _ _, .call step (.stop _)⟩

/- The first step of a run may be given its answers anew. -/
theorem restart_run {answers : List (Option Nat)} {turns : List (PageOp × List (Option Nat))} (nonempty : turns ≠ [])
    (run : Run (PageStep dirs) { s with answers := answers } turns t) : ∃ turns, Run (PageStep dirs) s turns t := by
  cases run with
  | stop => exact absurd rfl nonempty
  | @call _ u _ e es first rest =>
    have possible : e.1.Possible dirs s := by
      obtain ⟨op, later⟩ := e
      cases op <;> exact first.1
    exact ⟨e :: es, .call ⟨possible, first.2⟩ rest⟩

/- A call is a run of steps on single pages. -/
theorem call_turns {e : PageCall × List (Option Nat)} (ok : TablesOk s dirs place) (step : CallStep dirs s e t) :
    ∃ turns, Run (PageStep dirs) s turns t := by
  obtain ⟨call, answers⟩ := e
  obtain ⟨possible, ran⟩ := step
  have fresh : TablesOk { s with answers := answers } dirs place := ok_answers answers ok
  cases call with
  | page op => exact ⟨[(op, answers)], .call ⟨possible, ran⟩ (.stop t)⟩
  | unmapRange r start last =>
    obtain ⟨aligned, ran⟩ := check_ran ran
    obtain ⟨access, ran⟩ := check_ran ran
    obtain ⟨turns, nonempty, run⟩ := unmap_loop_turns fresh possible access.2.2 access.2.1 aligned.1 ran
    exact restart_run nonempty run
  | copyRange dst src start last =>
    obtain ⟨_, ran⟩ := discard_run ran
    obtain ⟨aligned, ran⟩ := check_ran ran
    obtain ⟨access, ran⟩ := check_ran ran
    obtain ⟨turns, nonempty, run⟩ := copy_loop_turns ⟨place, fresh⟩ possible.1 possible.2 access.2.2 access.2.1
      aligned.1 ran
    exact restart_run nonempty run

theorem call_runs {es : List (PageCall × List (Option Nat))} (ok : ∃ place, TablesOk s dirs place)
    (run : Run (CallStep dirs) s es t) : ∃ turns, Run (PageStep dirs) s turns t := by
  induction run with
  | stop s => exact ⟨[], .stop s⟩
  | call first _ ih =>
    obtain ⟨place, ok⟩ := ok
    obtain ⟨turns, run⟩ := call_turns ok first
    obtain ⟨turns', run'⟩ := ih (page_run_ok ⟨place, ok⟩ run)
    exact ⟨turns ++ turns', run_append run run'⟩

end

/-- Every run of calls on blank directories is a run of steps on single pages; after any such run each
frame is counted once for each page that is mapped to it, and the next step hands a frame back exactly if
it takes its last mapping away. -/
theorem frames_counted_and_handed_back {dirs : Finset Nat} {s : PmmState} (blank : Blank s dirs) :
    (∀ es t, Run (CallStep dirs) s es t → ∃ turns, Run (PageStep dirs) s turns t) ∧
    ∀ turns t, Run (PageStep dirs) s turns t →
      (∀ f, ¬ t.IsTable dirs f → t.ref f = t.uses dirs f) ∧
      ∀ e u, PageStep dirs t e u → ∀ f, f ∉ t.free → u.returned.count f = t.returned.count f +
        if 0 < t.uses dirs f ∧ u.uses dirs f = 0 then 1 else 0 := by
  have start : ∃ place, TablesOk s dirs place := ⟨_, blank_ok blank⟩
  refine ⟨fun es t run => call_runs start run, ?_⟩
  intro turns t run
  obtain ⟨place, ok⟩ := page_run_ok start run
  refine ⟨fun f data => ok.counted f ?_, fun e u step => (page_step_ok ok step).2⟩
  by_contra there
  exact data ((placed_table ok.placed f).mp there)

/- The computation of a run of calls that put no page of their own into an entry. -/
def callReplay (dirs : Finset Nat) (s : PmmState) (e : PageCall × List (Option Nat)) : Option PmmState :=
  let possible := match e.1 with
    | .page (.pgdirAlloc r la perm) => decide ((r ∈ dirs ∧ la < USERTOP) ∧ perm < 1024)
    | .page _ => false
    | .unmapRange r _ _ => decide (r ∈ dirs)
    | .copyRange dst src _ _ => decide (dst ∈ dirs ∧ src ∈ dirs)
  if possible then
    match e.1.run { s with answers := e.2 } with
    | .ok (_, t) => some t
    | .error _ => none
  else none

theorem call_replayed {dirs : Finset Nat} {s t : PmmState} {e : PageCall × List (Option Nat)}
    (done : callReplay dirs s e = some t) : CallStep dirs s e t := by
  obtain ⟨call, answers⟩ := e
  unfold callReplay at done
  dsimp only at done
  split_ifs at done with possible
  have may : call.Possible dirs s := by
    cases call with
    | page op =>
      cases op with
      | pgdirAlloc r la perm =>
        have holds : (r ∈ dirs ∧ la < USERTOP) ∧ perm < 1024 := of_decide_eq_true possible
        exact holds
      | alloc | insert | remove | unmapTurn | copyTurn => cases possible
    | unmapRange r start last =>
      have holds : r ∈ dirs := of_decide_eq_true possible
      exact holds
    | copyRange dst src start last =>
      have holds : dst ∈ dirs ∧ src ∈ dirs := of_decide_eq_true possible
      exact holds
  refine ⟨may, ?_⟩
  cases ran : call.run { s with answers := answers } with
  | error e =>
    rw [ran] at done
    cases done
  | ok r =>
    rw [ran] at done
    cases done
    rfl

def sparePages : PmmState := { blankPages with free := {5, 6, 7, 8, 9, 10} }

/- A page is mapped in directory 0, copied to directory 1 and unmapped in directory 0. -/
def mapCopyUnmap : List (PageCall × List (Option Nat)) :=
  [(.page (.pgdirAlloc 0 0x200000 0x1E), [some 5, some 6, some 7]),
    (.copyRange 1 0 0x200000 0x201000, [some 8, some 9, some 10]), (.unmapRange 0 0x200000 0x201000, [])]

theorem spare_pages_blank : Blank sparePages {0, 1} := by
  refine ⟨?_, fun r _ i _ => zero_invalid, by decide, fun f _ => rfl⟩
  intro r mem
  rcases Finset.mem_insert.mp mem with rfl | last
  · decide
  · rw [Finset.mem_singleton.mp last]
    decide

theorem copied_page_stays : ∃ t turns, Run (PageStep {0, 1}) sparePages turns t ∧ t.returned = [5] ∧ t.ref 5 = 0 ∧
    t.ref 10 = 1 ∧ ∀ f, ¬ t.IsTable {0, 1} f → t.ref f = t.uses {0, 1} f := by
  have seen : (replay (callReplay {0, 1}) sparePages mapCopyUnmap).any
      (fun t => decide (t.returned = [5] ∧ t.ref 5 = 0 ∧ t.ref 10 = 1)) = true := by
    decide +kernel
  obtain ⟨t, done, facts⟩ := (Option.any_eq_true _ _).mp seen
  obtain ⟨returned, gone, copy⟩ := of_decide_eq_true facts
  have calls : Run (CallStep {0, 1}) sparePages mapCopyUnmap t :=
    run_mono (fun s e t => call_replayed) (replay_run done)
  have law := frames_counted_and_handed_back spare_pages_blank
  obtain ⟨turns, run⟩ := law.1 _ t calls
  exact ⟨t, turns, run, returned, gone, copy, (law.2 turns t run).1⟩

end Ucore.PageTable
