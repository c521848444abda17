import Ucore.Process.ProcFiles
import Ucore.Lib.Holders

/- Runs of forks, executions and exits: when the count of a file table is that of the processes
   that share it. -/
namespace Ucore.ProcFiles
open Programs Transitions

def Procs.counts (s : Procs) (f : Nat) : Option Nat := (s.files f).map FileTable.filesCount

/-- The processes that have not exited and point to a table. -/
def Procs.holders (s : Procs) (f : Nat) : Nat := (s.live.filter fun p => s.filesp p = f).card

/-- Every table is counted once for each of its holders. -/
def Counted (s : Procs) : Prop := ∀ f n, s.counts f = some n → n = s.holders f

/- Live processes have tables, and no table is counted less than it is held. -/
structure Sound (s : Procs) : Prop where
  held : ∀ p ∈ s.live, (s.counts (s.filesp p)).isSome
  counted : ∀ f n, s.counts f = some n → s.holders f ≤ n ∧ 0 < n

/-- What a call may do to the counts. -/
inductive Shared (s t : Procs) : Prop where
  | same (live : t.live = s.live) (filesp : t.filesp = s.filesp) (counts : t.counts = s.counts)
  | joined (child f : Nat) (new : child ∉ s.live) (live : t.live = insert child s.live)
      (filesp : t.filesp = Function.update s.filesp child f)
      (counts : t.counts = Function.update s.counts f (some ((s.counts f).getD 0 + 1)))
  | left (p n : Nat) (mem : p ∈ s.live) (live : t.live = s.live.erase p) (filesp : t.filesp = s.filesp)
      (before : s.counts (s.filesp p) = some n)
      (counts : t.counts = Function.update s.counts (s.filesp p)
        (if n - 1 = 0 then none else some (n - 1)))

/-- A process exits, and its table is counted as before. -/
structure Leaked (s t : Procs) : Prop where
  leaver : ∃ p ∈ s.live, t.live = s.live.erase p
  filesp : t.filesp = s.filesp
  counts : t.counts = s.counts

/-- The call comes to `do_exit` of a process that has no `mm` then. -/
def Leaks (s : Procs) : ProcCall → Prop
  | .exit p => s.mm p = false
  | .exec p arguments none _ => arguments = true ∧ s.mm p = false
  | .exec _ arguments (some _) load => arguments = true ∧ load = .failed
  | _ => False

section
variable {s t u : Procs} {f p child fd count n : Nat} {table : FileTable}

theorem bind_pure_unit_run {m : ProcM Unit} : (m >>= fun _ => pure ()) s = m s := by
  cases run : m s with
  | error e => exact run_bind_stop run
  | ok r => exact run_bind run

theorem table_of_run (here : s.files f = some table) : tableOf f s = .ok (table, s) := by
  unfold tableOf
  rw [run_get_bind, here]
  rfl

theorem counts_of (here : s.files f = some table) : s.counts f = some table.filesCount := by
  unfold Procs.counts
  rw [here]
  rfl

theorem table_of_counts (held : (s.counts f).isSome) : ∃ table, s.files f = some table := by
  unfold Procs.counts at held
  exact Option.isSome_iff_exists.mp (by simpa using held)

theorem counts_update {x : Option FileTable} {rest : Procs}
    (files : rest.files = Function.update s.files f x) :
    rest.counts = Function.update s.counts f (x.map FileTable.filesCount) := by
  funext g
  unfold Procs.counts
  rw [files]
  by_cases same : g = f
  · subst g
    simp
  · simp [same]

theorem counts_kept {x : FileTable} {rest : Procs} (here : s.files f = some table)
    (files : rest.files = Function.update s.files f (some x)) (count : x.filesCount = table.filesCount) :
    rest.counts = s.counts := by
  rw [counts_update files]
  have before := counts_of here
  rw [← count] at before
  exact (congrArg (Function.update s.counts f) before.symm).trans (Function.update_eq_self f s.counts)

/- The entries from `fd` on are closed. -/
def FileTable.closedFrom (table : FileTable) (fd count : Nat) : FileTable :=
  { table with fdArray := fun i => if fd ≤ i ∧ i < fd + count then none else table.fdArray i }

def Procs.closedFrom (s : Procs) (f : Nat) (table : FileTable) (fd count : Nat) : Procs :=
  { s with
    files := Function.update s.files f (some (table.closedFrom fd count))
    closed := s.closed ++ (List.range' fd count).filterMap table.fdArray }

/- The loop, by induction on the entries left. -/
theorem close_fds_run (here : s.files f = some table) :
    closeFds f count fd s = .ok ((), s.closedFrom f table fd count) := by
  induction count generalizing s table fd with
  | zero =>
    have none_closed : table.closedFrom fd 0 = table := by
      unfold FileTable.closedFrom
      have empty : ∀ i, ¬ (fd ≤ i ∧ i < fd + 0) := by omega
      simp only [empty, if_false]
    have same : s.closedFrom f table fd 0 = s := by
      unfold Procs.closedFrom
      rw [none_closed, ← here, Function.update_eq_self]
      simp
    rw [same]
    rfl
  | succ count ih =>
    unfold closeFds
    cases entry : table.fdArray fd with
    | none =>
      have first : closeFd f fd s = .ok ((), s) := by
        unfold closeFd
        rw [run_bind (table_of_run here), entry]
        rfl
      have same : table.closedFrom (fd + 1) count = table.closedFrom fd (count + 1) := by
        unfold FileTable.closedFrom
        congr 1
        funext i
        by_cases this : i = fd
        · subst i
          rw [if_neg (by omega), if_pos (by omega), entry]
        · by_cases inside : fd + 1 ≤ i ∧ i < fd + 1 + count
          · rw [if_pos inside, if_pos (by omega)]
          · rw [if_neg inside, if_neg (by omega)]
      rw [run_bind first, ih here]
      unfold Procs.closedFrom
      rw [same, List.range'_succ, List.filterMap_cons, entry]
    | some node =>
      obtain ⟨next, next_eq⟩ : ∃ next : FileTable,
        next = { table with fdArray := Function.update table.fdArray fd none } := ⟨_, rfl⟩
      obtain ⟨v, v_eq⟩ : ∃ v : Procs, v = { s with
        files := Function.update s.files f (some next), closed := s.closed ++ [node] } := ⟨_, rfl⟩
      have first : closeFd f fd s = .ok ((), v) := by
        unfold closeFd
        rw [run_bind (table_of_run here), entry, v_eq, next_eq]
        rfl
      have there : v.files f = some next := by
        rw [v_eq]
        exact Function.update_self ..
      have same : next.closedFrom (fd + 1) count = table.closedFrom fd (count + 1) := by
        rw [next_eq]
        unfold FileTable.closedFrom
        congr 1
        funext i
        by_cases this : i = fd
        · subst i
          rw [if_neg (by omega), if_pos (by omega)]
          exact Function.update_self ..
        · have kept : Function.update table.fdArray fd none i = table.fdArray i :=
            Function.update_of_ne this ..
          by_cases inside : fd + 1 ≤ i ∧ i < fd + 1 + count
          · rw [if_pos inside, if_pos (by omega)]
          · rw [if_neg inside, if_neg (by omega)]
            exact kept
      have rest : (List.range' (fd + 1) count).filterMap next.fdArray =
          (List.range' (fd + 1) count).filterMap table.fdArray := by
        apply List.filterMap_congr
        intro i mem
        have above := (List.mem_range'_1.mp mem).1
        rw [next_eq]
        exact Function.update_of_ne (by omega) ..
      rw [run_bind first, ih there]
      unfold Procs.closedFrom
      rw [same, rest, v_eq, List.range'_succ, List.filterMap_cons, entry]
      simp

/- The table is gone, and its open entries have been closed. -/
def Procs.destroyed (s : Procs) (f : Nat) (table : FileTable) : Procs :=
  { s with
    files := Function.update s.files f none
    closed := s.closed ++ (List.range fdCount).filterMap table.fdArray }

theorem table_destroy_run (here : s.files f = some table) (last : table.filesCount = 0) :
    tableDestroy f s = .ok ((), s.destroyed f table) := by
  unfold tableDestroy
  rw [run_bind (table_of_run here), run_check_bind last, run_bind (close_fds_run here)]
  unfold Procs.destroyed
  have twice : Function.update (Function.update s.files f (some (table.closedFrom 0 fdCount))) f none =
    Function.update s.files f none := Function.update_idem ..
  rw [List.range_eq_range', ← twice]
  rfl

def FileTable.less (table : FileTable) : FileTable :=
  { table with filesCount := table.filesCount - 1 }

/- `put_files` of a process whose table is `table`. -/
def Procs.put (s : Procs) (f : Nat) (table : FileTable) : Procs :=
  if table.filesCount - 1 = 0 then s.destroyed f table
  else { s with files := Function.update s.files f (some table.less) }

theorem put_files_run (here : s.files (s.filesp p) = some table) :
    putFiles p s = .ok ((), s.put (s.filesp p) table) := by
  obtain ⟨v, v_eq⟩ : ∃ v : Procs,
    v = { s with files := Function.update s.files (s.filesp p) (some table.less) } := ⟨_, rfl⟩
  have set : setTable (s.filesp p) (some table.less) s = .ok ((), v) := by
    rw [v_eq]
    rfl
  have there : v.files (s.filesp p) = some table.less := by
    rw [v_eq]
    exact Function.update_self ..
  have start : putFiles p s =
      (if table.filesCount - 1 = 0 then tableDestroy (s.filesp p) else pure () : ProcM Unit) v := by
    unfold putFiles
    rw [run_get_bind, run_bind (table_of_run here)]
    exact run_bind set
  rw [start]
  unfold Procs.put
  by_cases last : table.filesCount - 1 = 0
  · rw [if_pos last, if_pos last, table_destroy_run there last]
    have twice : Function.update (Function.update s.files (s.filesp p) (some table.less)) (s.filesp p)
      none = Function.update s.files (s.filesp p) none := Function.update_idem ..
    unfold Procs.destroyed
    rw [v_eq, ← twice]
    rfl
  · rw [if_neg last, if_neg last, v_eq]
    rfl

theorem put_counts :
    (s.put f table).counts = Function.update s.counts f
      (if table.filesCount - 1 = 0 then none else some (table.filesCount - 1)) := by
  unfold Procs.put
  split_ifs with last
  · exact counts_update (x := none) rfl
  · exact counts_update (x := some table.less) rfl

theorem put_live : (s.put f table).live = s.live := by
  unfold Procs.put
  split_ifs <;> rfl

theorem put_filesp : (s.put f table).filesp = s.filesp := by
  unfold Procs.put
  split_ifs <;> rfl

def Procs.gone (s : Procs) (p : Nat) : Procs :=
  { s with live := s.live.erase p, zombies := insert p s.zombies }

/- The process without its `mm`. -/
def Procs.unmapped (s : Procs) (p : Nat) : Procs := { s with mm := Function.update s.mm p false }

theorem exit_run (here : s.files (s.filesp p) = some table) (done : doExit p s = .ok ((), t)) :
    t = if s.mm p then ((s.unmapped p).put (s.filesp p) table).gone p else s.gone p := by
  unfold doExit at done
  by_cases idle : p ≠ idleproc
  · by_cases init : p ≠ initproc
    · rw [run_check_bind idle, run_check_bind init, run_get_bind] at done
      by_cases mm : s.mm p = true
      · have cleared : setMm p false s = .ok ((), s.unmapped p) := rfl
        have put : putFiles p (s.unmapped p) = .ok ((), (s.unmapped p).put (s.filesp p) table) :=
          put_files_run here
        rw [if_pos mm, run_bind cleared, run_bind put] at done
        rw [if_pos mm]
        cases done
        rfl
      · rw [if_neg mm] at done
        rw [if_neg mm]
        cases done
        rfl
    · rw [run_check_bind idle, run_check_stop init] at done
      cases done
  · rw [run_check_stop idle] at done
    cases done

/- What `do_exit` does to the counts. -/
theorem exit_shared (held : (s.counts (s.filesp p)).isSome) (mem : p ∈ s.live)
    (done : doExit p s = .ok ((), t)) :
    if s.mm p then Shared s t else Leaked s t := by
  obtain ⟨table, here⟩ := table_of_counts held
  have run := exit_run here done
  split_ifs with mm
  · rw [if_pos mm] at run
    subst run
    refine .left p table.filesCount mem ?_ ?_ (counts_of here) ?_
    · exact congrArg (Finset.erase · p) put_live
    · exact put_filesp (s := s.unmapped p)
    · exact put_counts (s := s.unmapped p)
  · rw [if_neg mm] at run
    subst run
    exact ⟨⟨p, mem, rfl⟩, rfl, rfl⟩

theorem close_counts (here : s.files f = some table) :
    (s.closedFrom f table fd count).counts = s.counts :=
  counts_kept (x := table.closedFrom fd count) here rfl rfl

theorem shared_from {v : Procs} (live : v.live = s.live) (filesp : v.filesp = s.filesp)
    (counts : v.counts = s.counts) (shared : Shared v t) : Shared s t := by
  cases shared with
  | same live' filesp' counts' =>
    exact .same (live'.trans live) (filesp'.trans filesp) (counts'.trans counts)
  | joined child f new live' filesp' counts' =>
    rw [live] at new live'
    rw [filesp] at filesp'
    rw [counts] at counts'
    exact .joined child f new live' filesp' counts'
  | left p n mem live' filesp' before counts' =>
    rw [live] at mem live'
    rw [filesp] at filesp' before counts'
    rw [counts] at before counts'
    exact .left p n mem live' filesp' before counts'

theorem leaked_from {v : Procs} (live : v.live = s.live) (filesp : v.filesp = s.filesp)
    (counts : v.counts = s.counts) (leaked : Leaked v t) : Leaked s t := by
  obtain ⟨⟨p, mem, live'⟩, filesp', counts'⟩ := leaked
  rw [live] at mem live'
  exact ⟨⟨p, mem, live'⟩, filesp'.trans filesp, counts'.trans counts⟩

/- An exit after steps that leave the counts. -/
theorem exit_from {v : Procs} (live : v.live = s.live) (filesp : v.filesp = s.filesp)
    (counts : v.counts = s.counts) (held : (s.counts (s.filesp p)).isSome) (mem : p ∈ s.live)
    (done : doExit p v = .ok ((), t)) : if v.mm p then Shared s t else Leaked s t := by
  have exits := exit_shared (s := v) (by rw [counts, filesp]; exact held) (by rw [live]; exact mem) done
  split_ifs at exits ⊢
  · exact shared_from live filesp counts exits
  · exact leaked_from live filesp counts exits

/- `sysfile_open` and `file_dup` leave the counts. -/
def Procs.withFd (s : Procs) (f : Nat) (table : FileTable) (fd node : Nat) : Procs :=
  { s with files := Function.update s.files f (some (table.opened fd node)) }

theorem with_fd_counts {node : Nat} (here : s.files f = some table) :
    (s.withFd f table fd node).counts = s.counts :=
  counts_kept (x := table.opened fd node) here rfl rfl

theorem exec_shared {arguments : Bool} {opened : Option (Nat × Nat)} {load : Load}
    (held : (s.counts (s.filesp p)).isSome) (mem : p ∈ s.live)
    (done : doExecve p arguments opened load s = .ok ((), t)) :
    (Leaks s (.exec p arguments opened load) → Leaked s t) ∧
      (¬ Leaks s (.exec p arguments opened load) → Shared s t) := by
  obtain ⟨table, here⟩ := table_of_counts held
  unfold doExecve at done
  by_cases copied : arguments = true
  · subst copied
    rw [if_neg (by simp), run_get_bind] at done
    by_cases positive : table.filesCount > 0
    · have closes : tableCloseall (s.filesp p) s =
          .ok ((), s.closedFrom (s.filesp p) table 2 (fdCount - 2)) := by
        unfold tableCloseall
        rw [run_bind (table_of_run here), run_check_bind positive]
        exact close_fds_run here
      rw [run_bind closes] at done
      obtain ⟨v, v_eq⟩ : ∃ v, v = s.closedFrom (s.filesp p) table 2 (fdCount - 2) := ⟨_, rfl⟩
      have counts : v.counts = s.counts := by
        rw [v_eq]
        exact close_counts here
      have live : v.live = s.live := by rw [v_eq]; rfl
      have filesp : v.filesp = s.filesp := by rw [v_eq]; rfl
      have mm : v.mm = s.mm := by rw [v_eq]; rfl
      rw [← v_eq] at done
      cases opened with
      | none =>
        have exits := exit_from live filesp counts held mem done
        have leaks : Leaks s (.exec p true none load) ↔ s.mm p = false :=
          ⟨fun both => (both : true = true ∧ s.mm p = false).2, fun none_left => ⟨rfl, none_left⟩⟩
        rw [mm] at exits
        rw [leaks]
        cases has : s.mm p with
        | true =>
          rw [has] at exits
          exact ⟨nofun, fun _ => exits⟩
        | false =>
          rw [has] at exits
          exact ⟨fun _ => exits, fun keeps => absurd rfl keeps⟩
      | some o =>
        obtain ⟨fd, node⟩ := o
        obtain ⟨table', there⟩ := table_of_counts (s := v) (f := s.filesp p) (by rw [counts]; exact held)
        obtain ⟨w, w_eq⟩ : ∃ w, w = v.withFd (s.filesp p) table' fd node := ⟨_, rfl⟩
        have counts' : w.counts = s.counts := by
          rw [w_eq]
          exact (with_fd_counts there).trans counts
        have live' : w.live = s.live := by rw [w_eq]; exact live
        have filesp' : w.filesp = s.filesp := by rw [w_eq]; exact filesp
        have opens : setTable (s.filesp p) (some (table'.opened fd node)) v = .ok ((), w) := by
          rw [w_eq]
          rfl
        dsimp only at done
        rw [run_bind (table_of_run there), run_bind opens] at done
        cases load with
        | loaded =>
          cases done
          have keeps : ¬ Leaks s (.exec p true (some (fd, node)) .loaded) :=
            fun both => nomatch (both : true = true ∧ Load.loaded = .failed).2
          exact ⟨fun leaks => absurd leaks keeps, fun _ => .same live' filesp' counts'⟩
        | starved =>
          cases done
          have keeps : ¬ Leaks s (.exec p true (some (fd, node)) .starved) :=
            fun both => nomatch (both : true = true ∧ Load.starved = .failed).2
          exact ⟨fun leaks => absurd leaks keeps, fun _ => .same live' filesp' counts'⟩
        | failed =>
          have leaks : Leaks s (.exec p true (some (fd, node)) .failed) := ⟨rfl, rfl⟩
          have exits := exit_from (v := w.unmapped p) live' filesp' counts' held mem done
          have gone : (w.unmapped p).mm p = false := Function.update_self ..
          simp only [gone] at exits
          exact ⟨fun _ => exits, fun keeps => absurd leaks keeps⟩
        | late => cases done
    · unfold tableCloseall at done
      have stops : (do
          check .assertion ((← tableOf (s.filesp p)).filesCount > 0)
          closeFds (s.filesp p) (fdCount - 2) 2 : ProcM Unit) s = .error .assertion := by
        rw [run_bind (table_of_run here), run_check_stop positive]
      rw [run_bind_stop stops] at done
      cases done
  · rw [if_pos (by simpa using copied)] at done
    cases done
    refine ⟨?_, fun _ => .same rfl rfl rfl⟩
    intro leaks
    cases opened with
    | none => exact absurd (leaks : arguments = true ∧ s.mm p = false).1 copied
    | some o => exact absurd (leaks : arguments = true ∧ load = .failed).1 copied

def FileTable.more (table : FileTable) : FileTable :=
  { table with filesCount := table.filesCount + 1 }

/- A child comes to a table. -/
def Procs.joinedTo (s : Procs) (child f : Nat) (table : FileTable) : Procs :=
  { s with
    files := Function.update s.files f (some table.more)
    filesp := Function.update s.filesp child f }

def joinTable (child f : Nat) : ProcM Bool := do
  let table ← tableOf f
  setTable f (some { table with filesCount := table.filesCount + 1 })
  modify fun s => { s with filesp := Function.update s.filesp child f }
  return true

theorem join_run (here : s.files f = some table) :
    joinTable child f s = .ok (true, s.joinedTo child f table) := by
  unfold joinTable
  rw [run_bind (table_of_run here)]
  rfl

/- The new table of `dup_files`. -/
def FileTable.fresh (table : FileTable) : FileTable := { filesCount := 0, fdArray := table.fdArray }

def Procs.copiedTo (s : Procs) (f : Nat) (table : FileTable) : Procs :=
  { s with files := Function.update s.files f (some table.fresh) }

/- How `copy_files` ends. -/
theorem copy_files_cases {cloneFlags : Nat} {fresh : Option Nat} {ok : Bool}
    (here : s.files (s.filesp p) = some table)
    (done : copyFiles cloneFlags p child fresh s = .ok (ok, t)) :
    (ok = false ∧ t = s) ∨ (ok = true ∧ t = s.joinedTo child (s.filesp p) table) ∨
      ∃ f ∈ fresh, ok = true ∧ t = (s.copiedTo f table).joinedTo child f table.fresh := by
  by_cases shares : cloneFlags &&& CLONE_FS ≠ 0
  · have joins : copyFiles cloneFlags p child fresh s = joinTable child (s.filesp p) s := by
      unfold copyFiles
      rw [run_get_bind]
      dsimp only
      rw [if_pos shares]
      rfl
    rw [joins, join_run here] at done
    cases done
    exact Or.inr (Or.inl ⟨rfl, rfl⟩)
  · cases fresh with
    | none =>
      have fails : copyFiles cloneFlags p child none s = .ok (false, s) := by
        unfold copyFiles
        rw [run_get_bind]
        dsimp only
        rw [if_neg shares]
        rfl
      rw [fails] at done
      cases done
      exact Or.inl ⟨rfl, rfl⟩
    | some f =>
      have joins : copyFiles cloneFlags p child (some f) s =
          (tableCopy (s.filesp p) f >>= fun _ => joinTable child f) s := by
        unfold copyFiles
        rw [run_get_bind]
        dsimp only
        rw [if_neg shares]
        rfl
      rw [joins] at done
      by_cases positive : table.filesCount > 0
      · have copies : tableCopy (s.filesp p) f s = .ok ((), s.copiedTo f table) := by
          unfold tableCopy
          rw [run_bind (table_of_run here), run_check_bind positive]
          rfl
        have there : (s.copiedTo f table).files f = some table.fresh := Function.update_self ..
        rw [run_bind copies, join_run there] at done
        cases done
        exact Or.inr (Or.inr ⟨f, rfl, rfl, rfl⟩)
      · have stops : tableCopy (s.filesp p) f s = .error .assertion := by
          unfold tableCopy
          rw [run_bind (table_of_run here), run_check_stop positive]
        rw [run_bind_stop stops] at done
        cases done

theorem fork_shared {cloneFlags : Nat} {resources : Bool} {fresh : Option Nat}
    (held : (s.counts (s.filesp p)).isSome) (new : child ∉ s.live)
    (unused : ∀ f ∈ fresh, s.files f = none)
    (done : doFork cloneFlags p child resources fresh s = .ok ((), t)) : Shared s t := by
  obtain ⟨table, here⟩ := table_of_counts held
  unfold doFork at done
  by_cases has : resources = true
  · subst has
    rw [if_neg (by simp)] at done
    cases copies : copyFiles cloneFlags p child fresh s with
    | error e =>
      rw [run_bind_stop copies] at done
      cases done
    | ok r =>
      obtain ⟨ok, u⟩ := r
      rw [run_bind copies] at done
      rcases copy_files_cases here copies with ⟨rfl, rfl⟩ | ⟨rfl, rfl⟩ | ⟨f, mem, rfl, rfl⟩
      · cases done
        exact .same rfl rfl rfl
      · cases done
        refine .joined child (s.filesp p) new rfl rfl ?_
        rw [counts_of here]
        exact counts_update (x := some table.more) rfl
      · cases done
        refine .joined child f new rfl rfl ?_
        have free : s.counts f = none := by
          unfold Procs.counts
          rw [unused f mem]
          rfl
        have twice : Function.update (Function.update s.files f (some table.fresh)) f
          (some table.fresh.more) = Function.update s.files f (some table.fresh.more) :=
          Function.update_idem ..
        rw [free]
        exact counts_update (x := some table.fresh.more) twice
  · rw [if_pos (by simpa using has)] at done
    cases done
    exact .same rfl rfl rfl

/-- What a step does to the counts. -/
theorem proc_step_shared {c : ProcCall} (sound : Sound s) (step : ProcStep s c t) :
    (Leaks s c → Leaked s t) ∧ (¬ Leaks s c → Shared s t) := by
  obtain ⟨possible, _, done⟩ := step
  cases c with
  | fork cloneFlags p child resources fresh =>
    obtain ⟨mem, new, unused⟩ := possible
    exact ⟨fun leaks => absurd leaks id, fun _ => fork_shared (sound.held p mem) new unused done⟩
  | exec p arguments opened load => exact exec_shared (sound.held p possible.1) possible.1 done
  | exit p =>
    have mem : p ∈ s.live := possible
    have exits := exit_shared (sound.held p mem) mem done
    have leaks : Leaks s (.exit p) ↔ s.mm p = false := Iff.rfl
    rw [leaks]
    cases has : s.mm p with
    | true =>
      simp only [has, if_true] at exits
      exact ⟨nofun, fun _ => exits⟩
    | false =>
      simp only [has, Bool.false_eq_true, if_false] at exits
      exact ⟨fun _ => exits, fun keeps => absurd rfl keeps⟩
  | openFd p fd node =>
    obtain ⟨table, here⟩ := table_of_counts (sound.held p possible.1)
    have run : procOpen p fd node s = .ok ((), s.withFd (s.filesp p) table fd node) := by
      unfold procOpen
      rw [run_get_bind, run_bind (table_of_run here)]
      rfl
    have same := run.symm.trans done
    cases same
    exact ⟨fun leaks => absurd leaks id, fun _ => .same rfl rfl (with_fd_counts here)⟩
  | closeFd p fd =>
    obtain ⟨table, here⟩ := table_of_counts (sound.held p possible)
    have run : closeFds (s.filesp p) 1 fd s = .ok ((), s.closedFrom (s.filesp p) table fd 1) :=
      close_fds_run here
    have one : closeFds (s.filesp p) 1 fd s = procClose p fd s := by
      unfold closeFds procClose closeFds
      rw [run_get_bind]
      exact bind_pure_unit_run
    have same := run.symm.trans (one.trans done)
    cases same
    exact ⟨fun leaks => absurd leaks id, fun _ => .same rfl rfl (close_counts here)⟩

theorem holders_joined (new : child ∉ s.live) (live : t.live = insert child s.live)
    (filesp : t.filesp = Function.update s.filesp child f) (g : Nat) :
    t.holders g = s.holders g + if g = f then 1 else 0 := by
  unfold Procs.holders
  rw [live, filesp]
  exact Holders.card_joined new g

theorem holders_left (mem : p ∈ s.live) (live : t.live = s.live.erase p) (filesp : t.filesp = s.filesp)
    (g : Nat) : t.holders g + (if g = s.filesp p then 1 else 0) = s.holders g := by
  unfold Procs.holders
  rw [live, filesp]
  exact Holders.card_left s.filesp mem g

theorem holders_pos (mem : p ∈ s.live) : 0 < s.holders (s.filesp p) :=
  Finset.card_pos.mpr ⟨p, Finset.mem_filter.mpr ⟨mem, rfl⟩⟩

theorem not_held (sound : Sound s) (free : s.counts f = none) : s.holders f = 0 := by
  unfold Procs.holders
  rw [Finset.card_eq_zero, Finset.filter_eq_empty_iff]
  intro p mem same
  have := sound.held p mem
  rw [same, free] at this
  cases this

/- A process besides the one that leaves. -/
theorem held_twice {q : Nat} (mem : p ∈ s.live) (other : q ∈ s.live.erase p)
    (same : s.filesp q = s.filesp p) : 2 ≤ s.holders (s.filesp p) := by
  have pair : ({p, q} : Finset Nat) ⊆ s.live.filter fun r => s.filesp r = s.filesp p := by
    intro r inside
    rcases Finset.mem_insert.mp inside with rfl | last
    · exact Finset.mem_filter.mpr ⟨mem, rfl⟩
    · rw [Finset.mem_singleton.mp last]
      exact Finset.mem_filter.mpr ⟨Finset.mem_of_mem_erase other, same⟩
  have two : ({p, q} : Finset Nat).card = 2 := Finset.card_pair (Finset.ne_of_mem_erase other).symm
  rw [← two]
  exact Finset.card_le_card pair

theorem shared_sound (sound : Sound s) (shared : Shared s t) : Sound t := by
  cases shared with
  | same live filesp counts =>
    refine ⟨?_, ?_⟩
    · intro p mem
      rw [counts, filesp]
      exact sound.held p (live ▸ mem)
    · intro f n here
      rw [counts] at here
      unfold Procs.holders
      rw [live, filesp]
      exact sound.counted f n here
  | joined child f new live filesp counts =>
    refine ⟨?_, ?_⟩
    · intro p mem
      rw [counts, filesp]
      rw [live] at mem
      by_cases same : p = child
      · subst p
        rw [Function.update_self, Function.update_self]
        rfl
      · rw [Function.update_of_ne same]
        have old := sound.held p ((Finset.mem_insert.mp mem).resolve_left same)
        by_cases here : s.filesp p = f
        · rw [here, Function.update_self]
          rfl
        · rw [Function.update_of_ne here]
          exact old
    · intro g n here
      rw [holders_joined new live filesp]
      rw [counts] at here
      by_cases same : g = f
      · subst g
        rw [Function.update_self] at here
        cases here
        rw [if_pos rfl]
        cases before : s.counts f with
        | none => simp [not_held sound before]
        | some m =>
          have := sound.counted f m before
          simp only [Option.getD_some]
          omega
      · rw [Function.update_of_ne same] at here
        rw [if_neg same]
        exact sound.counted g n here
  | left p n mem live filesp before counts =>
    have most := sound.counted _ n before
    refine ⟨?_, ?_⟩
    · intro q other
      rw [live] at other
      rw [counts, filesp]
      by_cases same : s.filesp q = s.filesp p
      · have twice := held_twice mem other same
        rw [same, Function.update_self, if_neg (by omega)]
        rfl
      · rw [Function.update_of_ne same]
        exact sound.held q (Finset.mem_of_mem_erase other)
    · intro g m here
      have fewer := holders_left mem live filesp g
      rw [counts] at here
      by_cases same : g = s.filesp p
      · subst g
        rw [Function.update_self] at here
        rw [if_pos rfl] at fewer
        split_ifs at here with last
        cases here
        omega
      · rw [Function.update_of_ne same] at here
        have := sound.counted g m here
        rw [if_neg same] at fewer
        omega

theorem leaked_sound (sound : Sound s) (leaked : Leaked s t) : Sound t := by
  obtain ⟨⟨p, mem, live⟩, filesp, counts⟩ := leaked
  refine ⟨?_, ?_⟩
  · intro q other
    rw [live] at other
    rw [counts, filesp]
    exact sound.held q (Finset.mem_of_mem_erase other)
  · intro g n here
    have fewer := holders_left mem live filesp g
    rw [counts] at here
    have := sound.counted g n here
    omega

theorem step_sound {c : ProcCall} (sound : Sound s) (step : ProcStep s c t) : Sound t := by
  obtain ⟨leaking, keeping⟩ := proc_step_shared sound step
  by_cases leaks : Leaks s c
  · exact leaked_sound sound (leaking leaks)
  · exact shared_sound sound (keeping leaks)

end

end Ucore.ProcFiles
