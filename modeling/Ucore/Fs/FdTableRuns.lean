import Ucore.Fs.FdTable
import Ucore.Lib.Holders

/- In every order of the steps of calls on shared tables, each entry is in one of the four
   states with the count that its users account for. -/
namespace Ucore.FdTable
open Programs Transitions

/- How many calls are at a stage on an entry. -/
def callsAt (ops : List FdOp) (stage : FdStage) (t i : Nat) : Nat :=
  ops.countP fun op => op.stage = stage ∧ op.table = t ∧ op.fd = i

def FdState.at (s : FdState) (stage : FdStage) (t i : Nat) : Nat := callsAt s.ops stage t i

/-- All that concerns one entry. -/
structure EntryView where
  file : Option File
  opening : Nat
  inside : Nat
  closing : Nat
  opened : Nat
  closed : Nat

def FdState.view (s : FdState) (t i : Nat) : EntryView where
  file := (s.tables t).map fun f => f.fdArray i
  opening := s.at .opening t i
  inside := s.at .inside t i
  closing := s.at .closing t i
  opened := s.opened t i
  closed := s.closed t i

/-- The states of an entry. A closed one waits for the calls that are inside, and then for
`vfs_close`; the table may not be there. -/
inductive EntryOk (v : EntryView) : Prop where
  | absent (file : v.file = none) (opening : v.opening = 0) (inside : v.inside = 0)
      (closing : v.closing = 0) (once : v.opened = v.closed)
  | free (f : File) (file : v.file = some f) (status : f.status = .none) (count : f.openCount = 0)
      (opening : v.opening = 0) (inside : v.inside = 0) (closing : v.closing = 0)
      (once : v.opened = v.closed)
  | init (f : File) (file : v.file = some f) (status : f.status = .init) (count : f.openCount = 0)
      (opening : v.opening = 1) (inside : v.inside = 0) (closing : v.closing = 0)
      (once : v.opened = v.closed)
  | opened (f : File) (file : v.file = some f) (status : f.status = .opened) (node : f.node ≠ none)
      (count : f.openCount = 1 + v.inside) (opening : v.opening = 0) (closing : v.closing = 0)
      (once : v.opened = v.closed + 1)
  | waits (f : File) (file : v.file = some f) (status : f.status = .closed)
      (count : f.openCount = v.inside) (some : 0 < v.inside) (opening : v.opening = 0)
      (closing : v.closing = 0) (once : v.opened = v.closed + 1)
  | freeing (f : File) (file : v.file = some f) (status : f.status = .closed) (count : f.openCount = 0)
      (opening : v.opening = 0) (inside : v.inside = 0) (closing : v.closing = 1)
      (once : v.opened = v.closed)

/-- The processes that point to a table. -/
def FdState.holders (s : FdState) (t : Nat) : Nat := (s.procs.filter fun p => s.filesp p = t).card

/-- `files_destroy` has come to entry `i`, and nobody else uses the table. -/
structure Destroying (s : FdState) (p t i : Nat) : Prop where
  table : ∃ f, s.tables t = some f ∧ f.filesCount = 0 ∧ ∀ j < i,
    (f.fdArray j).status = .none ∨ (j + 1 = i ∧ ⟨.closing, p, t, j⟩ ∈ s.ops)
  alone : ∀ op ∈ s.ops, op.table = t →
    op = ⟨.walking true, p, t, i⟩ ∨ (op.stage = .closing ∧ op.proc = p ∧ op.fd + 1 = i)
  once : s.ops.count ⟨.walking true, p, t, i⟩ = 1

structure FdOk (s : FdState) : Prop where
  entry : ∀ t i, EntryOk (s.view t i)
  owned : ∀ op ∈ s.ops, (op.proc ∈ s.procs ∧ s.filesp op.proc = op.table) ∨
    ∃ j, ⟨.walking true, op.proc, op.table, j⟩ ∈ s.ops
  held : ∀ p ∈ s.procs, ∃ f, s.tables (s.filesp p) = some f
  counted : ∀ t f, s.tables t = some f → s.holders t ≤ f.filesCount
  destroying : ∀ p t i, ⟨.walking true, p, t, i⟩ ∈ s.ops → Destroying s p t i
  range : ∀ t f, s.tables t = some f → ∀ i, FILES_STRUCT_NENTRY ≤ i → (f.fdArray i).status = .none

section
variable {s u : FdState} {f : FilesStruct} {p t i j : Nat} {file : File} {op : FdOp} {stage : FdStage}

theorem files_at_run (here : s.tables t = some f) : filesAt t s = .ok (f, s) := by
  unfold filesAt
  rw [run_get_bind, here]
  rfl

theorem entry_at_run (here : s.tables t = some f) : entryAt t i s = .ok (f.fdArray i, s) := by
  unfold entryAt
  rw [run_bind (files_at_run here)]
  rfl

/- An entry is set, with what is under way and what has been counted. -/
def FdState.work (s : FdState) (t : Nat) (f : FilesStruct) (i : Nat) (file : File) (ops : List FdOp)
    (o c : Nat → Nat → Nat) : FdState :=
  { s with tables := Function.update s.tables t (some (putFile f i file)), ops, opened := o, closed := c }

theorem put_same : putFile f i (f.fdArray i) = f := by
  unfold putFile
  rw [Function.update_eq_self]

theorem calls_cons {ops : List FdOp} : callsAt (op :: ops) stage t i = callsAt ops stage t i +
    if op.stage = stage ∧ op.table = t ∧ op.fd = i then 1 else 0 := by
  unfold callsAt
  rw [List.countP_cons]
  simp

theorem calls_erase {ops : List FdOp} (stage : FdStage) (t i : Nat) (mem : op ∈ ops) :
    callsAt (ops.erase op) stage t i + (if op.stage = stage ∧ op.table = t ∧ op.fd = i then 1 else 0) =
      callsAt ops stage t i := by
  rw [← calls_cons]
  exact ((List.perm_cons_erase mem).countP_eq _).symm

theorem at_pos (mem : op ∈ s.ops) : 0 < s.at op.stage op.table op.fd :=
  List.countP_pos_iff.mpr ⟨op, mem, by simp⟩

theorem holders_pos {q : Nat} (mem : q ∈ s.procs) : 0 < s.holders (s.filesp q) :=
  Finset.card_pos.mpr ⟨q, Finset.mem_filter.mpr ⟨mem, rfl⟩⟩

/- A table that a process points to is not being destroyed. -/
theorem not_destroyed (ok : FdOk s) {q : Nat} (mem : q ∈ s.procs) (points : s.filesp q = t) :
    ⟨.walking true, p, t, i⟩ ∉ s.ops := by
  intro walks
  obtain ⟨f, here, none_left, _⟩ := (ok.destroying p t i walks).table
  have some := holders_pos mem
  have most := ok.counted t f here
  rw [points] at some
  omega

/- The process of a call that does not destroy its table has not exited. -/
theorem owner_live (ok : FdOk s) (mem : op ∈ s.ops) (other : op.stage ≠ .walking true)
    (still : op.stage ≠ .closing) : op.proc ∈ s.procs ∧ s.filesp op.proc = op.table := by
  rcases ok.owned op mem with live | ⟨j, walks⟩
  · exact live
  · rcases (ok.destroying _ _ _ walks).alone op mem rfl with same | ⟨closing, _⟩
    · exact absurd (congrArg FdOp.stage same) other
    · exact absurd closing still

/-- The calls that are under way change, on one entry of a table that is in use. -/
structure OpsChange (s : FdState) (ops ops' : List FdOp) (t i : Nat) : Prop where
  mem : ∀ op ∈ ops', op ∈ ops ∨
    (op.proc ∈ s.procs ∧ s.filesp op.proc = t ∧ op.table = t ∧ op.stage ≠ .walking true)
  elsewhere : ∀ op, op.table ≠ t → ops'.count op = ops.count op
  counts : ∀ stage t' j, (∀ destroy, stage ≠ .walking destroy) → (t' = t → j ≠ i) →
    callsAt ops' stage t' j = callsAt ops stage t' j

theorem change_none {ops : List FdOp} : OpsChange s ops ops t i :=
  ⟨fun _ mem => Or.inl mem, fun _ _ => rfl, fun _ _ _ _ _ => rfl⟩

theorem change_trans {ops ops' ops'' : List FdOp} (first : OpsChange s ops ops' t i)
    (second : OpsChange s ops' ops'' t i) : OpsChange s ops ops'' t i := by
  refine ⟨?_, ?_, ?_⟩
  · intro op mem
    rcases second.mem op mem with old | new
    · exact first.mem op old
    · exact Or.inr new
  · intro op ne
    exact (second.elsewhere op ne).trans (first.elsewhere op ne)
  · intro stage t' j still other
    exact (second.counts stage t' j still other).trans (first.counts stage t' j still other)

theorem change_begin {ops : List FdOp} (stage : FdStage) (live : p ∈ s.procs) (points : s.filesp p = t)
    (harmless : stage ≠ .walking true) (here : stage = .walking false ∨ j = i) :
    OpsChange s ops (⟨stage, p, t, j⟩ :: ops) t i := by
  refine ⟨?_, ?_, ?_⟩
  · intro op mem
    rcases List.mem_cons.mp mem with rfl | old
    · exact Or.inr ⟨live, points, rfl, harmless⟩
    · exact Or.inl old
  · intro op ne
    rw [List.count_cons_of_ne]
    rintro rfl
    exact ne rfl
  · intro stage' t' k still other
    rw [calls_cons, if_neg, Nat.add_zero]
    rintro ⟨rfl, rfl, rfl⟩
    rcases here with walks | same
    · exact still false walks
    · exact other rfl same

theorem change_finish {ops : List FdOp} (mem : ⟨stage, p, t, j⟩ ∈ ops)
    (here : stage = .walking false ∨ j = i) :
    OpsChange s ops (ops.erase ⟨stage, p, t, j⟩) t i := by
  refine ⟨fun op old => Or.inl (List.mem_of_mem_erase old), ?_, ?_⟩
  · intro op ne
    apply List.count_erase_of_ne
    rintro rfl
    exact ne rfl
  · intro stage' t' k still other
    have count := calls_erase stage' t' k mem
    rw [if_neg, Nat.add_zero] at count
    · exact count
    · rintro ⟨rfl, rfl, rfl⟩
      rcases here with walks | same
      · exact still false walks
      · exact other rfl same

/-- A step that changes one entry, for a table that is in use. -/
structure Touches (s u : FdState) (t i : Nat) : Prop where
  tables : ∃ f file, s.tables t = some f ∧ u.tables = Function.update s.tables t (some (putFile f i file))
  procs : u.procs = s.procs
  filesp : u.filesp = s.filesp
  ops : OpsChange s s.ops u.ops t i
  tallies : ∀ t' j, (t' = t → j ≠ i) → u.opened t' j = s.opened t' j ∧ u.closed t' j = s.closed t' j

theorem touched_other (touches : Touches s u t i) {t' j : Nat} (other : t' = t → j ≠ i) :
    u.view t' j = s.view t' j := by
  obtain ⟨f, file, here, tables⟩ := touches.tables
  have entry : (u.tables t').map (fun f => f.fdArray j) = (s.tables t').map fun f => f.fdArray j := by
    rw [tables]
    by_cases same : t' = t
    · subst t'
      rw [Function.update_self, here]
      exact congrArg some (Function.update_of_ne (other rfl) ..)
    · rw [Function.update_of_ne same]
  obtain ⟨opened, closed⟩ := touches.tallies t' j other
  unfold FdState.view
  unfold FdState.at
  rw [entry, opened, closed, touches.ops.counts .opening t' j nofun other,
    touches.ops.counts .inside t' j nofun other, touches.ops.counts .closing t' j nofun other]

theorem touched_ok (ok : FdOk s) {q : Nat} (live : q ∈ s.procs) (points : s.filesp q = t)
    (touches : Touches s u t i) (entry : EntryOk (u.view t i))
    (range : ∀ f, u.tables t = some f → FILES_STRUCT_NENTRY ≤ i → (f.fdArray i).status = .none) :
    FdOk u := by
  obtain ⟨f, file, here, tables⟩ := touches.tables
  have there : u.tables t = some (putFile f i file) := by
    rw [tables, Function.update_self]
  have elsewhere : ∀ t', t' ≠ t → u.tables t' = s.tables t' := by
    intro t' ne
    rw [tables, Function.update_of_ne ne]
  have member : ∀ op : FdOp, op.table ≠ t → (op ∈ u.ops ↔ op ∈ s.ops) := by
    intro op ne
    rw [← List.count_pos_iff, ← List.count_pos_iff, touches.ops.elsewhere op ne]
  have walk : ∀ op ∈ u.ops, op.stage = .walking true → op ∈ s.ops := by
    intro op mem stage
    rcases touches.ops.mem op mem with old | new
    · exact old
    · exact absurd stage new.2.2.2
  constructor
  · intro t' j
    by_cases same : t' = t ∧ j = i
    · rw [same.1, same.2]
      exact entry
    · rw [touched_other touches fun here there => same ⟨here, there⟩]
      exact ok.entry t' j
  · intro op mem
    rw [touches.procs, touches.filesp]
    rcases touches.ops.mem op mem with old | new
    · rcases ok.owned op old with alive | ⟨j, walks⟩
      · exact Or.inl alive
      · have apart : op.table ≠ t := by
          intro same
          rw [same] at walks
          exact not_destroyed ok live points walks
        exact Or.inr ⟨j, (member ⟨.walking true, op.proc, op.table, j⟩ apart).mpr walks⟩
    · exact Or.inl ⟨new.1, new.2.1.trans new.2.2.1.symm⟩
  · intro p mem
    rw [touches.procs] at mem
    rw [touches.filesp]
    by_cases same : s.filesp p = t
    · rw [same]
      exact ⟨_, there⟩
    · rw [elsewhere _ same]
      exact ok.held p mem
  · intro t' f' found
    unfold FdState.holders
    rw [touches.procs, touches.filesp]
    by_cases same : t' = t
    · subst t'
      rw [there] at found
      cases found
      exact ok.counted t f here
    · rw [elsewhere _ same] at found
      exact ok.counted t' f' found
  · intro p t' j walks
    have old := walk _ walks rfl
    have apart : t' ≠ t := by
      intro same
      rw [same] at old
      exact not_destroyed ok live points old
    have before := ok.destroying p t' j old
    obtain ⟨f', found, none_left, past⟩ := before.table
    refine ⟨⟨f', by rw [elsewhere _ apart, found], none_left, ?_⟩, ?_, ?_⟩
    · intro k low
      rcases past k low with none_there | ⟨next, closes⟩
      · exact Or.inl none_there
      · exact Or.inr ⟨next, (member _ apart).mpr closes⟩
    · intro op mem same
      have ne : op.table ≠ t := by
        rw [same]
        exact apart
      exact before.alone op ((member op ne).mp mem) same
    · rw [touches.ops.elsewhere _ apart]
      exact before.once
  · intro t' f' found j high
    by_cases same : t' = t
    · subst t'
      by_cases there_too : j = i
      · subst j
        exact range f' found high
      · rw [there] at found
        cases found
        change (Function.update f.fdArray i file j).status = _
        rw [Function.update_of_ne there_too]
        exact ok.range t f here j high
    · rw [elsewhere _ same] at found
      exact ok.range t' f' found j high

end

section
variable {s : FdState} {f : FilesStruct} {p t i j : Nat} {file other : File} {ops : List FdOp}
  {o c : Nat → Nat → Nat}

theorem work_tables : (s.work t f i file ops o c).tables t = some (putFile f i file) :=
  Function.update_self ..

theorem put_file_self : (putFile f i file).fdArray i = file := Function.update_self ..

/- A table that is there is work on any of its entries. -/
theorem work_start (here : s.tables t = some f) :
    s.work t f i (f.fdArray i) s.ops s.opened s.closed = s := by
  unfold FdState.work
  rw [put_same, ← here, Function.update_eq_self]

theorem from_start {α : Type} {m : FdM α} {r : Except FdStop (α × FdState)} (here : s.tables t = some f)
    (run : m (s.work t f i (f.fdArray i) s.ops s.opened s.closed) = r) : m s = r :=
  (congrArg m (work_start here)).symm.trans run

theorem work_entry : entryAt t i (s.work t f i file ops o c) = .ok (file, s.work t f i file ops o c) := by
  rw [entry_at_run work_tables, put_file_self]

theorem work_put : putEntry t i other (s.work t f i file ops o c) =
    .ok ((), s.work t f i other ops o c) := by
  unfold putEntry
  rw [run_bind (files_at_run work_tables)]
  unfold FdState.work
  simp only [putFile, Function.update_idem]
  change Except.ok _ = _
  unfold FdState.setTable
  simp only [Function.update_idem]

theorem tally_self : tally o t i t i = o t i + 1 := by
  unfold tally
  rw [Function.update_self, Function.update_self]

theorem tally_other {t' : Nat} (apart : t' = t → j ≠ i) : tally o t i t' j = o t' j := by
  unfold tally
  by_cases same : t' = t
  · subst t'
    rw [Function.update_self, Function.update_of_ne (apart rfl)]
  · rw [Function.update_of_ne same]

theorem work_view : (s.work t f i file ops o c).view t i =
    ⟨some file, callsAt ops .opening t i, callsAt ops .inside t i, callsAt ops .closing t i, o t i,
      c t i⟩ := by
  unfold FdState.view
  rw [work_tables]
  unfold Option.map
  rw [put_file_self]
  rfl

theorem work_ok (ok : FdOk s) (here : s.tables t = some f) (live : p ∈ s.procs)
    (points : s.filesp p = t) (change : OpsChange s s.ops ops t i)
    (tallies : ∀ t' j, (t' = t → j ≠ i) → o t' j = s.opened t' j ∧ c t' j = s.closed t' j)
    (low : i < FILES_STRUCT_NENTRY ∨ file.status = .none)
    (entry : EntryOk ⟨some file, callsAt ops .opening t i, callsAt ops .inside t i,
      callsAt ops .closing t i, o t i, c t i⟩) : FdOk (s.work t f i file ops o c) := by
  refine touched_ok ok live points ⟨⟨f, file, here, rfl⟩, rfl, rfl, change, tallies⟩ ?_ ?_
  · rw [work_view]
    exact entry
  · intro f' found high
    rw [work_tables] at found
    cases found
    rw [put_file_self]
    exact low.resolve_left (Nat.not_lt.mpr high)

theorem begin_run {stage : FdStage} : begin stage p t j (s.work t f i file ops o c) =
    .ok ((), s.work t f i file (⟨stage, p, t, j⟩ :: ops) o c) := rfl

theorem finish_run {stage : FdStage} : finish stage p t j (s.work t f i file ops o c) =
    .ok ((), s.work t f i file (ops.erase ⟨stage, p, t, j⟩) o c) := rfl

theorem put_run (here : s.tables t = some f) : putEntry t i file s =
    .ok ((), s.work t f i file s.ops s.opened s.closed) :=
  from_start here work_put

theorem acquire_run (here : s.tables t = some f) (status : (f.fdArray i).status = .opened) :
    entryAcquire t i s = .ok ((), s.work t f i
      { f.fdArray i with openCount := (f.fdArray i).openCount + 1 } s.ops s.opened s.closed) := by
  unfold entryAcquire
  rw [run_bind (entry_at_run here), run_check_bind status, put_run here]

theorem free_init_run (status : file.status = .init) (count : file.openCount = 0) :
    entryFree p t i (s.work t f i file ops o c) =
      .ok ((), s.work t f i { file with status := .none } ops o c) := by
  unfold entryFree
  rw [run_bind work_entry, run_bind (run_check (Or.inl status)), run_bind (run_check count), if_neg, work_put]
  rw [status]
  decide

theorem free_closed_run (status : file.status = .closed) (count : file.openCount = 0) :
    entryFree p t i (s.work t f i file ops o c) =
      .ok ((), s.work t f i file (⟨.closing, p, t, i⟩ :: ops) o (tally c t i)) := by
  unfold entryFree
  rw [run_bind work_entry, run_bind (run_check (Or.inr status)), run_bind (run_check count), if_pos status]
  rfl

theorem open_run {node : Option Node} (status : file.status = .init) (given : node ≠ none) :
    entryOpen t i node (s.work t f i file ops o c) = .ok ((), s.work t f i
      { file with status := .opened, node, openCount := file.openCount + 1 } ops (tally o t i) c) := by
  unfold entryOpen
  rw [run_bind work_entry, run_bind (run_check ⟨status, given⟩), run_bind work_put]
  rfl

/- The end of a use that is not the last. -/
theorem release_run (status : file.status = .opened ∨ file.status = .closed)
    (more : 1 < file.openCount) : entryRelease p t i (s.work t f i file ops o c) =
      .ok ((), s.work t f i { file with openCount := file.openCount - 1 } ops o c) := by
  unfold entryRelease
  rw [run_bind work_entry, run_bind (run_check status), run_bind (run_check (by omega)), run_bind work_put,
    if_neg (by omega)]
  rfl

theorem release_last_run (status : file.status = .closed) (one : file.openCount = 1) :
    entryRelease p t i (s.work t f i file ops o c) = .ok ((), s.work t f i
      { file with openCount := 0 } (⟨.closing, p, t, i⟩ :: ops) o (tally c t i)) := by
  have zero : file.openCount - 1 = 0 := by omega
  unfold entryRelease
  rw [run_bind work_entry, run_bind (run_check (Or.inr status)), run_bind (run_check (by omega)),
    run_bind work_put, if_pos zero, zero]
  exact free_closed_run status rfl

theorem close_run (status : file.status = .opened) (more : 1 < file.openCount) :
    entryClose p t i (s.work t f i file ops o c) = .ok ((), s.work t f i
      { file with status := .closed, openCount := file.openCount - 1 } ops o c) := by
  unfold entryClose
  rw [run_bind work_entry, run_bind (run_check status), run_bind (run_check (by omega)), run_bind work_put,
    if_neg (by omega)]
  rfl

theorem close_last_run (status : file.status = .opened) (one : file.openCount = 1) :
    entryClose p t i (s.work t f i file ops o c) = .ok ((), s.work t f i
      { file with status := .closed, openCount := 0 } (⟨.closing, p, t, i⟩ :: ops) o (tally c t i)) := by
  have zero : file.openCount - 1 = 0 := by omega
  unfold entryClose
  rw [run_bind work_entry, run_bind (run_check status), run_bind (run_check (by omega)),
    run_bind work_put, if_pos zero, zero]
  exact free_closed_run rfl rfl

end

section
variable {s : FdState} {f : FilesStruct} {p t i j : Nat} {fd : Int} {file : File}

theorem free_entry_none {table : Nat → File} (found : freeEntry table fd = .ok i) :
    (table i).status = .none := by
  unfold freeEntry at found
  split at found
  · split at found
    · next here =>
      cases found
      simpa using List.find?_some here
    · cases found
  · split at found
    · split at found
      · next none_there =>
        cases found
        exact none_there
      · cases found
    · cases found

theorem free_entry_low {table : Nat → File} (found : freeEntry table fd = .ok i) :
    i < FILES_STRUCT_NENTRY := by
  unfold freeEntry at found
  split at found
  · split at found
    · next here =>
      cases found
      exact List.mem_range.mp (List.mem_of_find?_eq_some here)
    · cases found
  · split at found
    · next valid =>
      split at found
      · cases found
        unfold testfd at valid
        have bounds := of_decide_eq_true valid
        omega
      · cases found
    · cases found

theorem own_table_run (ok : FdOk s) (live : p ∈ s.procs) (points : s.filesp p = t) :
    ∃ f, s.tables t = some f ∧ ownTable p s = .ok (t, s) := by
  subst t
  obtain ⟨f, here⟩ := ok.held p live
  have some := holders_pos live
  have most := ok.counted _ f here
  refine ⟨f, here, ?_⟩
  unfold ownTable
  rw [run_get_bind, run_bind (files_at_run here), run_check_bind (by omega)]
  rfl

theorem open_entry_run (here : s.tables t = some f) : openEntry t fd s =
    .ok (if testfd fd ∧ (f.fdArray fd.toNat).status = .opened then some fd.toNat else none, s) := by
  unfold openEntry
  by_cases valid : testfd fd = true
  · rw [if_pos valid, run_bind (entry_at_run here)]
    by_cases status : (f.fdArray fd.toNat).status = .opened
    · rw [if_pos status, if_pos ⟨valid, status⟩]
      rfl
    · rw [if_neg status, if_neg fun both => status both.2]
      rfl
  · rw [if_neg valid, if_neg fun both => valid both.1]
    rfl

theorem alloc_run (here : s.tables t = some f) (found : freeEntry f.fdArray fd = .ok i)
    (count : (f.fdArray i).openCount = 0) : entryAlloc t fd s = .ok (.ok i, s.work t f i
      { f.fdArray i with status := .init, node := none } s.ops s.opened s.closed) := by
  unfold entryAlloc
  rw [run_bind (files_at_run here), found]
  change (check _ _ >>= _) s = _
  rw [run_check_bind count, run_bind (put_run here)]
  rfl

theorem view_of (here : s.tables t = some f) : s.view t i = ⟨some (f.fdArray i),
    callsAt s.ops .opening t i, callsAt s.ops .inside t i, callsAt s.ops .closing t i, s.opened t i,
      s.closed t i⟩ := by
  unfold FdState.view
  rw [here]
  rfl

/- What the law says of an entry, by its status. -/
theorem entry_none (ok : FdOk s) (here : s.tables t = some f) (status : (f.fdArray i).status = .none) :
    (f.fdArray i).openCount = 0 ∧ s.at .opening t i = 0 ∧ s.at .inside t i = 0 ∧
      s.at .closing t i = 0 ∧ s.opened t i = s.closed t i := by
  have file : (s.view t i).file = some (f.fdArray i) := congrArg EntryView.file (view_of here)
  have entry := ok.entry t i
  cases entry with
  | absent none_there =>
    rw [file] at none_there
    cases none_there
  | free f' file' _ count opening inside closing once =>
    rw [file] at file'
    cases file'
    exact ⟨count, opening, inside, closing, once⟩
  | init f' file' status' | opened f' file' status' | waits f' file' status' | freeing f' file' status' =>
    rw [file] at file'
    cases file'
    rw [status] at status'
    cases status'

theorem entry_opened (ok : FdOk s) (here : s.tables t = some f)
    (status : (f.fdArray i).status = .opened) : (f.fdArray i).node ≠ none ∧
      (f.fdArray i).openCount = 1 + s.at .inside t i ∧ s.at .opening t i = 0 ∧
      s.at .closing t i = 0 ∧ s.opened t i = s.closed t i + 1 := by
  have file : (s.view t i).file = some (f.fdArray i) := congrArg EntryView.file (view_of here)
  have entry := ok.entry t i
  cases entry with
  | absent none_there =>
    rw [file] at none_there
    cases none_there
  | opened f' file' _ node count opening closing once =>
    rw [file] at file'
    cases file'
    exact ⟨node, count, opening, closing, once⟩
  | init f' file' status' | free f' file' status' | waits f' file' status' | freeing f' file' status' =>
    rw [file] at file'
    cases file'
    rw [status] at status'
    cases status'

theorem low_of (ok : FdOk s) (here : s.tables t = some f) (used : (f.fdArray i).status ≠ .none) :
    i < FILES_STRUCT_NENTRY := by
  by_contra high
  exact used (ok.range t f here i (Nat.not_lt.mp high))

/- What it says by the calls that are under way. -/
theorem entry_opening (ok : FdOk s) (mem : ⟨.opening, p, t, i⟩ ∈ s.ops) : ∃ f, s.tables t = some f ∧
    (f.fdArray i).status = .init ∧ (f.fdArray i).openCount = 0 ∧ s.at .opening t i = 1 ∧
      s.at .inside t i = 0 ∧ s.at .closing t i = 0 ∧ s.opened t i = s.closed t i := by
  have some_op : 0 < (s.view t i).opening := at_pos mem
  have entry := ok.entry t i
  cases entry with
  | init f' file status count opening inside closing once =>
    obtain ⟨f, here, same⟩ := Option.map_eq_some_iff.mp file
    subst same
    exact ⟨f, here, status, count, opening, inside, closing, once⟩
  | absent _ opening | free _ _ _ _ opening | opened _ _ _ _ _ opening | waits _ _ _ _ _ opening
  | freeing _ _ _ _ opening => omega

theorem entry_inside (ok : FdOk s) (mem : ⟨.inside, p, t, i⟩ ∈ s.ops) : ∃ f, s.tables t = some f ∧
    0 < s.at .inside t i ∧ s.at .opening t i = 0 ∧ s.at .closing t i = 0 ∧
      s.opened t i = s.closed t i + 1 ∧
      ((f.fdArray i).status = .opened ∧ (f.fdArray i).node ≠ none ∧
          (f.fdArray i).openCount = 1 + s.at .inside t i ∨
        (f.fdArray i).status = .closed ∧ (f.fdArray i).openCount = s.at .inside t i) := by
  have some_op : 0 < (s.view t i).inside := at_pos mem
  have entry := ok.entry t i
  cases entry with
  | opened f' file status node count opening closing once =>
    obtain ⟨f, here, same⟩ := Option.map_eq_some_iff.mp file
    subst same
    exact ⟨f, here, some_op, opening, closing, once, Or.inl ⟨status, node, count⟩⟩
  | waits f' file status count _ opening closing once =>
    obtain ⟨f, here, same⟩ := Option.map_eq_some_iff.mp file
    subst same
    exact ⟨f, here, some_op, opening, closing, once, Or.inr ⟨status, count⟩⟩
  | absent _ _ inside | free _ _ _ _ _ inside | init _ _ _ _ _ inside
  | freeing _ _ _ _ _ inside => omega

theorem entry_closing (ok : FdOk s) (mem : ⟨.closing, p, t, i⟩ ∈ s.ops) : ∃ f, s.tables t = some f ∧
    (f.fdArray i).openCount = 0 ∧ s.at .opening t i = 0 ∧ s.at .inside t i = 0 ∧
      s.at .closing t i = 1 ∧ s.opened t i = s.closed t i := by
  have some_op : 0 < (s.view t i).closing := at_pos mem
  have entry := ok.entry t i
  cases entry with
  | freeing f' file status count opening inside closing once =>
    obtain ⟨f, here, same⟩ := Option.map_eq_some_iff.mp file
    subst same
    exact ⟨f, here, count, opening, inside, closing, once⟩
  | absent _ _ _ closing | free _ _ _ _ _ _ closing | init _ _ _ _ _ _ closing
  | opened _ _ _ _ _ _ closing | waits _ _ _ _ _ _ closing => omega

end

section
variable {file : File} {opening inside closing opened closed : Nat}

theorem free_ok (status : file.status = .none) (count : file.openCount = 0) (a : opening = 0)
    (b : inside = 0) (c : closing = 0) (once : opened = closed) :
    EntryOk ⟨some file, opening, inside, closing, opened, closed⟩ :=
  EntryOk.free file rfl status count a b c once

theorem init_ok (status : file.status = .init) (count : file.openCount = 0) (a : opening = 1)
    (b : inside = 0) (c : closing = 0) (once : opened = closed) :
    EntryOk ⟨some file, opening, inside, closing, opened, closed⟩ :=
  EntryOk.init file rfl status count a b c once

theorem opened_ok (status : file.status = .opened) (node : file.node ≠ none)
    (count : file.openCount = 1 + inside) (a : opening = 0) (c : closing = 0)
    (once : opened = closed + 1) : EntryOk ⟨some file, opening, inside, closing, opened, closed⟩ :=
  EntryOk.opened file rfl status node count a c once

theorem waits_ok (status : file.status = .closed) (count : file.openCount = inside) (some : 0 < inside)
    (a : opening = 0) (c : closing = 0) (once : opened = closed + 1) :
    EntryOk ⟨.some file, opening, inside, closing, opened, closed⟩ :=
  EntryOk.waits file rfl status count some a c once

theorem freeing_ok (status : file.status = .closed) (count : file.openCount = 0) (a : opening = 0)
    (b : inside = 0) (c : closing = 1) (once : opened = closed) :
    EntryOk ⟨some file, opening, inside, closing, opened, closed⟩ :=
  EntryOk.freeing file rfl status count a b c once

end

/-- The call ends, and the law holds after it. -/
def Keeps (m : FdM Unit) (s : FdState) : Prop := ∃ u, m s = .ok ((), u) ∧ FdOk u

section
variable {s : FdState} {f : FilesStruct} {p t i j : Nat} {fd : Int}

theorem open_begin_keeps (ok : FdOk s) (live : p ∈ s.procs) : Keeps (openBegin p) s := by
  obtain ⟨t, points⟩ : ∃ t, s.filesp p = t := ⟨_, rfl⟩
  obtain ⟨f, here, own⟩ := own_table_run ok live points
  unfold Keeps openBegin
  rw [run_bind own]
  cases found : freeEntry f.fdArray NO_FD with
  | error ret =>
    have alloc : entryAlloc t NO_FD s = .ok (.error ret, s) := by
      unfold entryAlloc
      rw [run_bind (files_at_run here), found]
      rfl
    rw [run_bind alloc]
    exact ⟨s, rfl, ok⟩
  | ok i =>
    obtain ⟨count, opening, inside, closing, once⟩ := entry_none ok here (free_entry_none found)
    refine ⟨_, (run_bind (alloc_run here found count)).trans begin_run, work_ok ok here live points
      (change_begin .opening live points nofun (Or.inr rfl)) (fun _ _ _ => ⟨rfl, rfl⟩)
      (Or.inl (free_entry_low found)) ?_⟩
    apply init_ok
    · rfl
    · exact count
    · rw [calls_cons, if_pos ⟨rfl, rfl, rfl⟩]
      exact congrArg (· + 1) opening
    · rw [calls_cons, if_neg nofun]
      exact inside
    · rw [calls_cons, if_neg nofun]
      exact closing
    · exact once

theorem open_end_keeps (ok : FdOk s) {node : Option Node} (mem : ⟨.opening, p, t, i⟩ ∈ s.ops) :
    Keeps (openEnd p t i node) s := by
  obtain ⟨live, points⟩ := owner_live ok mem nofun nofun
  obtain ⟨f, here, status, count, opening, inside, closing, once⟩ := entry_opening ok mem
  have left (stage : FdStage) := calls_erase stage t i mem
  have opening' := left .opening
  have inside' := left .inside
  have closing' := left .closing
  rw [if_pos ⟨rfl, rfl, rfl⟩] at opening'
  rw [if_neg nofun] at inside' closing'
  unfold FdState.at at opening inside closing
  have low := low_of ok here (by rw [status]; decide)
  unfold Keeps openEnd
  cases node with
  | none =>
    refine ⟨_, from_start here ((run_bind (free_init_run status count)).trans finish_run), ?_⟩
    refine work_ok ok here live points (change_finish mem (Or.inr rfl)) (fun _ _ _ => ⟨rfl, rfl⟩)
      (Or.inl low) ?_
    apply free_ok
    · rfl
    · exact count
    · omega
    · omega
    · omega
    · exact once
  | some node =>
    refine ⟨_, from_start here ((run_bind (open_run status (Option.some_ne_none node))).trans finish_run), ?_⟩
    refine work_ok ok here live points (change_finish mem (Or.inr rfl))
      (fun _ _ other => ⟨tally_other other, rfl⟩) (Or.inl low) ?_
    apply opened_ok
    · rfl
    · nofun
    · change (f.fdArray i).openCount + 1 = _
      omega
    · omega
    · omega
    · rw [tally_self, once]

theorem use_begin_keeps (ok : FdOk s) {permits : File → Bool} (live : p ∈ s.procs) :
    Keeps (useBegin p fd permits) s := by
  obtain ⟨t, points⟩ : ∃ t, s.filesp p = t := ⟨_, rfl⟩
  obtain ⟨f, here, own⟩ := own_table_run ok live points
  unfold Keeps useBegin
  rw [run_bind own, run_bind (open_entry_run here)]
  by_cases valid : testfd fd ∧ (f.fdArray fd.toNat).status = .opened
  · rw [if_pos valid]
    change ∃ u, (entryAt t fd.toNat >>= _) s = .ok ((), u) ∧ FdOk u
    rw [run_bind (entry_at_run here)]
    have low := low_of ok here (by rw [valid.2]; decide)
    obtain ⟨node, count, opening, closing, once⟩ := entry_opened ok here valid.2
    cases permits (f.fdArray fd.toNat) with
    | false => exact ⟨s, rfl, ok⟩
    | true =>
      refine ⟨_, (run_bind (acquire_run here valid.2)).trans begin_run, work_ok ok here live points
        (change_begin .inside live points nofun (Or.inr rfl)) (fun _ _ _ => ⟨rfl, rfl⟩)
        (Or.inl low) ?_⟩
      apply opened_ok
      · exact valid.2
      · exact node
      · rw [calls_cons, if_pos ⟨rfl, rfl, rfl⟩]
        exact congrArg (· + 1) count
      · rw [calls_cons, if_neg nofun]
        exact opening
      · rw [calls_cons, if_neg nofun]
        exact closing
      · exact once
  · rw [if_neg valid]
    exact ⟨s, rfl, ok⟩

theorem use_end_keeps (ok : FdOk s) {pos : Int} (mem : ⟨.inside, p, t, i⟩ ∈ s.ops) :
    Keeps (useEnd p t i pos) s := by
  obtain ⟨live, points⟩ := owner_live ok mem nofun nofun
  obtain ⟨f, here, some_use, opening, closing, once, cases⟩ := entry_inside ok mem
  have left (stage : FdStage) := calls_erase stage t i mem
  have opening' := left .opening
  have inside' := left .inside
  have closing' := left .closing
  rw [if_pos ⟨rfl, rfl, rfl⟩] at inside'
  rw [if_neg nofun] at opening' closing'
  unfold FdState.at at some_use opening closing cases
  have low := low_of ok here (by rcases cases with ⟨status, _⟩ | ⟨status, _⟩ <;> rw [status] <;> decide)
  unfold Keeps useEnd
  rw [run_bind (entry_at_run here)]
  rcases cases with ⟨status, node, count⟩ | ⟨status, count⟩
  · rw [if_pos status]
    have more : 1 < (f.fdArray i).openCount := by omega
    have released : entryRelease p t i (s.work t f i { f.fdArray i with pos } s.ops s.opened s.closed) = _ :=
      release_run (Or.inl status) more
    refine ⟨_, (run_bind (put_run here)).trans ((run_bind released).trans finish_run), ?_⟩
    refine work_ok ok here live points (change_finish mem (Or.inr rfl)) (fun _ _ _ => ⟨rfl, rfl⟩)
      (Or.inl low) ?_
    apply opened_ok
    · exact status
    · exact node
    · change (f.fdArray i).openCount - 1 = _
      omega
    · omega
    · omega
    · exact once
  · have closed : (f.fdArray i).status ≠ .opened := by
      rw [status]
      decide
    rw [if_neg closed]
    by_cases one : (f.fdArray i).openCount = 1
    · refine ⟨_, from_start here ((run_bind (release_last_run status one)).trans finish_run), ?_⟩
      have change : OpsChange s s.ops (⟨.closing, p, t, i⟩ :: s.ops) t i :=
        change_begin .closing live points nofun (Or.inr rfl)
      refine work_ok ok here live points
        (change_trans change (change_finish (List.mem_cons_of_mem _ mem) (Or.inr rfl)))
        (fun _ _ other => ⟨rfl, tally_other other⟩) (Or.inl low) ?_
      have now (stage : FdStage) := calls_erase stage t i
        (List.mem_cons_of_mem ⟨.closing, p, t, i⟩ mem)
      have opening'' := now .opening
      have inside'' := now .inside
      have closing'' := now .closing
      rw [calls_cons, if_neg nofun, if_neg nofun] at opening''
      rw [calls_cons, if_pos ⟨rfl, rfl, rfl⟩, if_neg nofun] at inside''
      rw [calls_cons, if_neg nofun, if_pos ⟨rfl, rfl, rfl⟩] at closing''
      apply freeing_ok
      · exact status
      · rfl
      · omega
      · omega
      · omega
      · rw [tally_self, once]
    · refine ⟨_, from_start here ((run_bind (release_run (Or.inr status) (by omega))).trans finish_run), ?_⟩
      refine work_ok ok here live points (change_finish mem (Or.inr rfl)) (fun _ _ _ => ⟨rfl, rfl⟩)
        (Or.inl low) ?_
      apply waits_ok
      · exact status
      · change (f.fdArray i).openCount - 1 = _
        omega
      · omega
      · omega
      · omega
      · exact once

end

section
variable {s : FdState} {f : FilesStruct} {p t i j : Nat} {fd : Int} {ops : List FdOp}

/- A loop goes on to its next entry. -/
theorem walked_ok (ok : FdOk s) (here : s.tables t = some f) (live : p ∈ s.procs)
    (points : s.filesp p = t) (change : OpsChange s s.ops ops t i)
    (same : ∀ stage, (∀ destroy, stage ≠ .walking destroy) →
      callsAt ops stage t i = callsAt s.ops stage t i) :
    FdOk (s.work t f i (f.fdArray i) ops s.opened s.closed) := by
  refine work_ok ok here live points change (fun _ _ _ => ⟨rfl, rfl⟩) ?_ ?_
  · by_cases low : i < FILES_STRUCT_NENTRY
    · exact Or.inl low
    · exact Or.inr (ok.range t f here i (Nat.not_lt.mp low))
  have entry := ok.entry t i
  rw [view_of here] at entry
  rw [same .opening nofun, same .inside nofun, same .closing nofun]
  exact entry

theorem close_entry_keeps (ok : FdOk s) (here : s.tables t = some f) (live : p ∈ s.procs)
    (points : s.filesp p = t) (change : OpsChange s s.ops ops t i)
    (same : ∀ stage, (∀ destroy, stage ≠ .walking destroy) →
      callsAt ops stage t i = callsAt s.ops stage t i) (status : (f.fdArray i).status = .opened) :
    Keeps (entryClose p t i) (s.work t f i (f.fdArray i) ops s.opened s.closed) := by
  obtain ⟨node, count, opening, closing, once⟩ := entry_opened ok here status
  have opening' := same .opening nofun
  have inside' := same .inside nofun
  have closing' := same .closing nofun
  have low := low_of ok here (by rw [status]; decide)
  unfold FdState.at at count opening closing
  by_cases one : (f.fdArray i).openCount = 1
  · refine ⟨_, close_last_run status one, ?_⟩
    refine work_ok ok here live points
      (change_trans change (change_begin .closing live points nofun (Or.inr rfl)))
      (fun _ _ other => ⟨rfl, tally_other other⟩) (Or.inl low) ?_
    apply freeing_ok
    · rfl
    · rfl
    · rw [calls_cons, if_neg nofun]
      omega
    · rw [calls_cons, if_neg nofun]
      omega
    · rw [calls_cons, if_pos ⟨rfl, rfl, rfl⟩]
      omega
    · rw [tally_self, once]
  · refine ⟨_, close_run status (by omega), ?_⟩
    refine work_ok ok here live points change (fun _ _ _ => ⟨rfl, rfl⟩) (Or.inl low) ?_
    apply waits_ok
    · rfl
    · change (f.fdArray i).openCount - 1 = _
      omega
    · omega
    · omega
    · omega
    · exact once

theorem close_keeps (ok : FdOk s) (live : p ∈ s.procs) : Keeps (closeCall p fd) s := by
  obtain ⟨t, points⟩ : ∃ t, s.filesp p = t := ⟨_, rfl⟩
  obtain ⟨f, here, own⟩ := own_table_run ok live points
  unfold Keeps closeCall
  rw [run_bind own, run_bind (open_entry_run here)]
  by_cases valid : testfd fd ∧ (f.fdArray fd.toNat).status = .opened
  · rw [if_pos valid]
    have closed := close_entry_keeps ok here live points change_none (fun _ _ => rfl) valid.2
    rw [work_start here] at closed
    exact closed
  · rw [if_neg valid]
    exact ⟨s, rfl, ok⟩

theorem closeall_keeps (ok : FdOk s) (live : p ∈ s.procs) : Keeps (closeallBegin p) s := by
  obtain ⟨t, points⟩ : ∃ t, s.filesp p = t := ⟨_, rfl⟩
  obtain ⟨f, here, own⟩ := own_table_run ok live points
  refine ⟨_, (run_bind own).trans (from_start (i := 2) here begin_run), ?_⟩
  refine walked_ok ok here live points
    (change_begin (.walking false) live points nofun (Or.inl rfl)) ?_
  intro stage still
  rw [calls_cons, if_neg, Nat.add_zero]
  intro same
  exact still false same.1.symm

theorem walk_keeps (ok : FdOk s) (mem : ⟨.walking false, p, t, i⟩ ∈ s.ops) :
    Keeps (walkNext p t i false) s := by
  obtain ⟨live, points⟩ := owner_live ok mem nofun nofun
  obtain ⟨f, here⟩ := ok.held p live
  rw [show s.filesp p = t from points] at here
  have left (stage : FdStage) (still : ∀ destroy, stage ≠ .walking destroy) :
      callsAt (s.ops.erase ⟨.walking false, p, t, i⟩) stage t i = callsAt s.ops stage t i := by
    have count := calls_erase stage t i mem
    rw [if_neg fun same => still false same.1.symm] at count
    exact count
  have finishes := change_finish (s := s) (i := i) mem (Or.inl rfl)
  have start : Keeps (finish (.walking false) p t i >>= fun _ =>
      if i < FILES_STRUCT_NENTRY then do
        begin (.walking false) p t (i + 1)
        if (f.fdArray i).status = .opened then entryClose p t i else return ()
      else return ()) (s.work t f i (f.fdArray i) s.ops s.opened s.closed) := by
    unfold Keeps
    rw [run_bind finish_run]
    by_cases more : i < FILES_STRUCT_NENTRY
    · rw [if_pos more, run_bind begin_run]
      have change := change_trans finishes
        (change_begin (j := i + 1) (.walking false) live points nofun (Or.inl rfl))
      have same (stage : FdStage) (still : ∀ destroy, stage ≠ .walking destroy) :
          callsAt (⟨.walking false, p, t, i + 1⟩ :: s.ops.erase ⟨.walking false, p, t, i⟩) stage t i =
            callsAt s.ops stage t i := by
        rw [calls_cons, if_neg fun same => still false same.1.symm]
        exact left stage still
      by_cases status : (f.fdArray i).status = .opened
      · rw [if_pos status]
        exact close_entry_keeps ok here live points change same status
      · rw [if_neg status]
        exact ⟨_, rfl, walked_ok ok here live points change same⟩
    · rw [if_neg more]
      exact ⟨_, rfl, walked_ok ok here live points finishes left⟩
  rw [work_start here] at start
  unfold Keeps walkNext
  rw [run_bind (files_at_run here), run_check_bind nofun]
  obtain ⟨u, ran, law⟩ := start
  exact ⟨u, ran, law⟩

end

section
variable {s u : FdState} {f : FilesStruct} {p t i j : Nat} {fd1 fd2 : Int} {ops : List FdOp}

theorem dup_keeps (ok : FdOk s) (live : p ∈ s.procs) : Keeps (dupCall p fd1 fd2) s := by
  obtain ⟨t, points⟩ : ∃ t, s.filesp p = t := ⟨_, rfl⟩
  obtain ⟨f, here, own⟩ := own_table_run ok live points
  unfold Keeps dupCall
  rw [run_bind own, run_bind (open_entry_run here)]
  by_cases valid : testfd fd1 ∧ (f.fdArray fd1.toNat).status = .opened
  · rw [if_pos valid]
    change ∃ u, (entryAt t fd1.toNat >>= _) s = .ok ((), u) ∧ FdOk u
    rw [run_bind (entry_at_run here)]
    cases found : freeEntry f.fdArray fd2 with
    | error ret =>
      have alloc : entryAlloc t fd2 s = .ok (.error ret, s) := by
        unfold entryAlloc
        rw [run_bind (files_at_run here), found]
        rfl
      rw [run_bind alloc]
      exact ⟨s, rfl, ok⟩
    | ok j =>
      have source := (entry_opened ok here valid.2).1
      obtain ⟨count, opening, inside, closing, once⟩ := entry_none ok here (free_entry_none found)
      rw [run_bind (alloc_run here found count)]
      change ∃ u, entryDup t j (f.fdArray fd1.toNat) _ = .ok ((), u) ∧ FdOk u
      unfold entryDup
      rw [run_bind work_entry, run_check_bind ⟨rfl, valid.2⟩, run_bind work_put]
      refine ⟨_, open_run rfl source, work_ok ok here live points change_none
        (fun _ _ other => ⟨tally_other other, rfl⟩) (Or.inl (free_entry_low found)) ?_⟩
      apply opened_ok
      · rfl
      · exact source
      · change (f.fdArray j).openCount + 1 = 1 + s.at .inside t j
        omega
      · exact opening
      · exact closing
      · rw [tally_self, once]
  · rw [if_neg valid]
    exact ⟨s, rfl, ok⟩

/- A step of the process that destroys a table. -/
theorem destroyer_ok (ok : FdOk s) (walks : ⟨.walking true, p, t, i⟩ ∈ s.ops) (procs : u.procs = s.procs)
    (filesp : u.filesp = s.filesp) (tables : ∀ t' ≠ t, u.tables t' = s.tables t')
    (counts : ∀ op, op.table ≠ t → u.ops.count op = s.ops.count op)
    (calls : ∀ stage t' j, t' ≠ t → callsAt u.ops stage t' j = callsAt s.ops stage t' j)
    (tallies : ∀ t' j, t' ≠ t → u.opened t' j = s.opened t' j ∧ u.closed t' j = s.closed t' j)
    (entry : ∀ j, EntryOk (u.view t j))
    (rest : ∀ op ∈ u.ops, op.table = t → op.proc = p ∧ ∃ k, ⟨.walking true, p, t, k⟩ ∈ u.ops)
    (destroying : ∀ q k, ⟨.walking true, q, t, k⟩ ∈ u.ops → Destroying u q t k)
    (range : ∀ f, u.tables t = some f → ∀ j, FILES_STRUCT_NENTRY ≤ j → (f.fdArray j).status = .none) :
    FdOk u := by
  have member : ∀ op : FdOp, op.table ≠ t → (op ∈ u.ops ↔ op ∈ s.ops) := by
    intro op ne
    rw [← List.count_pos_iff, ← List.count_pos_iff, counts op ne]
  have free : ∀ q ∈ s.procs, s.filesp q ≠ t := fun q mem points => not_destroyed ok mem points walks
  constructor
  · intro t' j
    by_cases same : t' = t
    · rw [same]
      exact entry j
    · obtain ⟨opened, closed⟩ := tallies t' j same
      have view : u.view t' j = s.view t' j := by
        unfold FdState.view FdState.at
        rw [tables t' same, opened, closed, calls _ _ _ same, calls _ _ _ same, calls _ _ _ same]
      rw [view]
      exact ok.entry t' j
  · intro op mem
    rw [procs, filesp]
    by_cases same : op.table = t
    · obtain ⟨owner, k, there⟩ := rest op mem same
      rw [same, owner]
      exact Or.inr ⟨k, there⟩
    · rcases ok.owned op ((member op same).mp mem) with alive | ⟨j, others⟩
      · exact Or.inl alive
      · exact Or.inr ⟨j, (member ⟨.walking true, op.proc, op.table, j⟩ same).mpr others⟩
  · intro q mem
    rw [procs] at mem
    rw [filesp, tables _ (free q mem)]
    exact ok.held q mem
  · intro t' f' found
    unfold FdState.holders
    rw [procs, filesp]
    by_cases same : t' = t
    · subst t'
      have none_there : s.procs.filter (fun q => s.filesp q = t) = ∅ :=
        Finset.filter_eq_empty_iff.mpr free
      rw [none_there]
      exact Nat.zero_le _
    · rw [tables _ same] at found
      exact ok.counted t' f' found
  · intro q t' k there
    by_cases same : t' = t
    · subst t'
      exact destroying q k there
    · have before := ok.destroying q t' k ((member _ same).mp there)
      obtain ⟨f', found, none_left, past⟩ := before.table
      refine ⟨⟨f', by rw [tables _ same, found], none_left, ?_⟩, ?_, ?_⟩
      · intro k low
        rcases past k low with none_there | ⟨next, closes⟩
        · exact Or.inl none_there
        · exact Or.inr ⟨next, (member _ same).mpr closes⟩
      · intro op mem at_table
        have ne : op.table ≠ t := by
          rw [at_table]
          exact same
        exact before.alone op ((member op ne).mp mem) at_table
      · rw [counts _ same]
        exact before.once
  · intro t' f' found j high
    by_cases same : t' = t
    · subst t'
      exact range f' found j high
    · rw [tables _ same] at found
      exact ok.range t' f' found j high

end

section
variable {s : FdState} {f : FilesStruct} {p t i j : Nat} {ops : List FdOp}

/- The calls under way on other tables. -/
theorem count_erased {op gone : FdOp} (ne : op.table ≠ t) (table : gone.table = t) :
    (s.ops.erase gone).count op = s.ops.count op := by
  apply List.count_erase_of_ne
  rintro rfl
  exact ne table

theorem calls_erased {gone : FdOp} {stage : FdStage} {t' : Nat} (mem : gone ∈ s.ops) (ne : t' ≠ t)
    (table : gone.table = t) : callsAt (s.ops.erase gone) stage t' j = callsAt s.ops stage t' j := by
  have count := calls_erase stage t' j mem
  rw [if_neg, Nat.add_zero] at count
  · exact count
  · intro same
    exact ne (same.2.1.symm.trans table)

theorem calls_added {op : FdOp} {stage : FdStage} {t' : Nat} (ne : t' ≠ t) (table : op.table = t) :
    callsAt (op :: ops) stage t' j = callsAt ops stage t' j := by
  rw [calls_cons, if_neg, Nat.add_zero]
  intro same
  exact ne (same.2.1.symm.trans table)

theorem freed_keeps (ok : FdOk s) (mem : ⟨.closing, p, t, i⟩ ∈ s.ops) : Keeps (entryFreed p t i) s := by
  obtain ⟨f, here, count, opening, inside, closing, once⟩ := entry_closing ok mem
  have left (stage : FdStage) := calls_erase stage t i mem
  have opening' := left .opening
  have inside' := left .inside
  have closing' := left .closing
  rw [if_pos ⟨rfl, rfl, rfl⟩] at closing'
  rw [if_neg nofun] at opening' inside'
  unfold FdState.at at opening inside closing
  have entry : EntryOk ⟨some { f.fdArray i with status := .none },
      callsAt (s.ops.erase ⟨.closing, p, t, i⟩) .opening t i,
      callsAt (s.ops.erase ⟨.closing, p, t, i⟩) .inside t i,
      callsAt (s.ops.erase ⟨.closing, p, t, i⟩) .closing t i, s.opened t i, s.closed t i⟩ := by
    apply free_ok
    · rfl
    · exact count
    · omega
    · omega
    · omega
    · exact once
  unfold Keeps entryFreed
  rw [run_bind (entry_at_run here), run_bind (put_run here)]
  refine ⟨_, finish_run, ?_⟩
  rcases ok.owned _ mem with ⟨live, points⟩ | ⟨k, walks⟩
  · exact work_ok ok here live points (change_finish mem (Or.inr rfl)) (fun _ _ _ => ⟨rfl, rfl⟩)
      (Or.inr rfl) entry
  · have before := ok.destroying p t k walks
    have apart : (⟨.walking true, p, t, k⟩ : FdOp) ≠ ⟨.closing, p, t, i⟩ := by
      intro same
      cases same
    have still : ⟨.walking true, p, t, k⟩ ∈ s.ops.erase ⟨.closing, p, t, i⟩ :=
      (List.mem_erase_of_ne apart).mpr walks
    have alone : ∀ op ∈ s.ops.erase ⟨.closing, p, t, i⟩, op.table = t →
        op = ⟨.walking true, p, t, k⟩ ∨ (op.stage = .closing ∧ op.proc = p ∧ op.fd + 1 = k) :=
      fun op there => before.alone op (List.mem_of_mem_erase there)
    refine destroyer_ok ok walks rfl rfl (fun t' ne => Function.update_of_ne ne ..)
      (fun op ne => count_erased ne rfl) (fun stage t' j ne => calls_erased mem ne rfl)
      (fun _ _ _ => ⟨rfl, rfl⟩) ?_ ?_ ?_ ?_
    · intro j
      by_cases same : j = i
      · subst j
        rw [work_view]
        exact entry
      · rw [view_of work_tables]
        have old := ok.entry t j
        rw [view_of here] at old
        have kept (stage : FdStage) : callsAt (s.ops.erase ⟨.closing, p, t, i⟩) stage t j =
            callsAt s.ops stage t j := by
          have now := calls_erase stage t j mem
          rw [if_neg fun both => same both.2.2.symm] at now
          exact now
        change EntryOk ⟨some (Function.update f.fdArray i _ j), callsAt (s.ops.erase _) _ _ _,
          callsAt (s.ops.erase _) _ _ _, callsAt (s.ops.erase _) _ _ _, _, _⟩
        rw [kept, kept, kept, Function.update_of_ne same]
        exact old
    · intro op there table
      rcases alone op there table with rfl | ⟨_, owner, _⟩
      · exact ⟨rfl, k, there⟩
      · exact ⟨owner, k, still⟩
    · intro q k' there
      rcases alone _ there rfl with same | ⟨closes, _⟩
      · cases same
        obtain ⟨f', found, none_left, past⟩ := before.table
        rw [here] at found
        cases found
        refine ⟨⟨_, work_tables, none_left, ?_⟩, alone, ?_⟩
        · intro j low
          change (Function.update f.fdArray i _ j).status = _ ∨ _
          by_cases same : j = i
          · subst j
            rw [Function.update_self]
            exact Or.inl rfl
          · rw [Function.update_of_ne same]
            rcases past j low with none_there | ⟨next, closes⟩
            · exact Or.inl none_there
            · refine Or.inr ⟨next, (List.mem_erase_of_ne ?_).mpr closes⟩
              intro equal
              cases equal
              exact same rfl
        · change (s.ops.erase _).count _ = 1
          rw [List.count_erase_of_ne apart]
          exact before.once
      · cases closes
    · intro f' found j high
      rw [work_tables] at found
      cases found
      change (Function.update f.fdArray i _ j).status = _
      by_cases same : j = i
      · subst j
        rw [Function.update_self]
      · rw [Function.update_of_ne same]
        exact ok.range t f here j high

end

section
variable {s : FdState} {f : FilesStruct} {p t i j : Nat} {ops : List FdOp}

/- An entry of a table that no call but the walk uses is free, or open for nobody. -/
theorem quiet_entry (ok : FdOk s) (here : s.tables t = some f) (opening : s.at .opening t j = 0)
    (inside : s.at .inside t j = 0) (closing : s.at .closing t j = 0) :
    ((f.fdArray j).status = .none ∧ (f.fdArray j).openCount = 0 ∧ s.opened t j = s.closed t j) ∨
      ((f.fdArray j).status = .opened ∧ (f.fdArray j).openCount = 1 ∧ s.opened t j = s.closed t j + 1) := by
  have entry := ok.entry t j
  rw [view_of here] at entry
  unfold FdState.at at opening inside closing
  cases entry with
  | absent none_there => cases none_there
  | free f' file status count _ _ _ once =>
    cases file
    exact Or.inl ⟨status, count, once⟩
  | opened f' file status _ count _ _ once =>
    cases file
    change _ = 1 + callsAt s.ops .inside t j at count
    rw [inside] at count
    exact Or.inr ⟨status, count, once⟩
  | init _ _ _ _ one =>
    change callsAt s.ops .opening t j = 1 at one
    omega
  | waits _ _ _ _ some =>
    change 0 < callsAt s.ops .inside t j at some
    omega
  | freeing _ _ _ _ _ _ one =>
    change callsAt s.ops .closing t j = 1 at one
    omega

theorem calls_none {stage : FdStage} (quiet : ∀ op ∈ ops, op.table ≠ t) : callsAt ops stage t j = 0 :=
  List.countP_eq_zero.mpr fun op mem => by simp [quiet op mem]

theorem count_none {op : FdOp} (quiet : ∀ op ∈ ops, op.table ≠ t) (table : op.table = t) :
    ops.count op = 0 :=
  List.count_eq_zero.mpr fun mem => quiet op mem table

/- The walk has come to its next entry. -/
theorem walked_on_ok (ok : FdOk s) (mem : ⟨.walking true, p, t, i⟩ ∈ s.ops) (here : s.tables t = some f)
    (none_left : f.filesCount = 0) (passed : ∀ j < i, (f.fdArray j).status = .none) {file : File}
    {c : Nat → Nat → Nat} (low : i < FILES_STRUCT_NENTRY)
    (shape : ∀ op ∈ ops, op.table = t → op = ⟨.walking true, p, t, i + 1⟩ ∨ op = ⟨.closing, p, t, i⟩)
    (next : ops.count ⟨.walking true, p, t, i + 1⟩ = 1)
    (closes : file.status = .none ∨ ⟨.closing, p, t, i⟩ ∈ ops)
    (counts : ∀ op, op.table ≠ t → ops.count op = s.ops.count op)
    (calls : ∀ stage t' j, t' ≠ t → callsAt ops stage t' j = callsAt s.ops stage t' j)
    (same : ∀ stage j, j ≠ i → (∀ destroy, stage ≠ .walking destroy) →
      callsAt ops stage t j = callsAt s.ops stage t j)
    (tallies : ∀ t' j, (t' = t → j ≠ i) → c t' j = s.closed t' j)
    (entry : EntryOk ⟨some file, callsAt ops .opening t i, callsAt ops .inside t i,
      callsAt ops .closing t i, s.opened t i, c t i⟩) : FdOk (s.work t f i file ops s.opened c) := by
  have walks : ⟨.walking true, p, t, i + 1⟩ ∈ ops := by
    rw [← List.count_pos_iff, next]
    decide
  refine destroyer_ok ok mem rfl rfl (fun t' ne => Function.update_of_ne ne ..) counts calls
    (fun t' j ne => ⟨rfl, tallies t' j fun equal => absurd equal ne⟩) ?_ ?_ ?_ ?_
  · intro j
    by_cases equal : j = i
    · subst j
      rw [work_view]
      exact entry
    · rw [view_of work_tables]
      have old := ok.entry t j
      rw [view_of here] at old
      change EntryOk ⟨some (Function.update f.fdArray i _ j), callsAt ops _ _ _, callsAt ops _ _ _,
        callsAt ops _ _ _, s.opened t j, c t j⟩
      rw [same .opening j equal nofun, same .inside j equal nofun, same .closing j equal nofun,
        Function.update_of_ne equal, tallies t j fun _ => equal]
      exact old
  · intro op there table
    rcases shape op there table with rfl | rfl
    · exact ⟨rfl, _, walks⟩
    · exact ⟨rfl, _, walks⟩
  · intro q k there
    rcases shape _ there rfl with equal | equal
    · cases equal
      refine ⟨⟨_, work_tables, none_left, ?_⟩, ?_, next⟩
      · intro j below
        change (Function.update f.fdArray i file j).status = _ ∨ _
        by_cases equal : j = i
        · subst j
          rw [Function.update_self]
          rcases closes with none_there | closing
          · exact Or.inl none_there
          · exact Or.inr ⟨rfl, closing⟩
        · rw [Function.update_of_ne equal]
          exact Or.inl (passed j (by omega))
      · intro op there table
        rcases shape op there table with rfl | rfl
        · exact Or.inl rfl
        · exact Or.inr ⟨rfl, rfl, rfl⟩
    · cases equal
  · intro f' found j high
    rw [work_tables] at found
    cases found
    change (Function.update f.fdArray i file j).status = _
    have apart : j ≠ i := by omega
    rw [Function.update_of_ne apart]
    exact ok.range t f here j high

theorem destroy_walk_keeps (ok : FdOk s) (mem : ⟨.walking true, p, t, i⟩ ∈ s.ops)
    (done : ∀ op ∈ s.ops, op.proc = p → op.stage ≠ .closing) : Keeps (walkNext p t i true) s := by
  have before := ok.destroying p t i mem
  obtain ⟨f, here, none_left, past⟩ := before.table
  have only : ∀ op ∈ s.ops, op.table = t → op = ⟨.walking true, p, t, i⟩ := by
    intro op there table
    rcases before.alone op there table with same | ⟨closes, owner, _⟩
    · exact same
    · exact absurd closes (done op there owner)
  have passed : ∀ j < i, (f.fdArray j).status = .none := by
    intro j low
    rcases past j low with none_there | ⟨_, closes⟩
    · exact none_there
    · exact absurd rfl (done _ closes rfl)
  have quiet : ∀ op ∈ s.ops.erase ⟨.walking true, p, t, i⟩, op.table ≠ t := by
    intro op there table
    have same := only op (List.mem_of_mem_erase there) table
    subst op
    have gone := List.count_erase_self (a := (⟨.walking true, p, t, i⟩ : FdOp)) (l := s.ops)
    rw [before.once] at gone
    exact List.count_eq_zero.mp gone there
  have still (stage : FdStage) (other : stage ≠ .walking true) (j : Nat) : s.at stage t j = 0 := by
    have count := calls_erase stage t j mem
    rw [if_neg fun same => other same.1.symm, calls_none quiet] at count
    exact count.symm
  have entries (j : Nat) := quiet_entry ok here (j := j) (still .opening nofun j)
    (still .inside nofun j) (still .closing nofun j)
  have seen : true = true → 0 < i → (f.fdArray (i - 1)).status = .none :=
    fun _ pos => passed (i - 1) (by omega)
  unfold Keeps walkNext
  rw [run_bind (files_at_run here), run_check_bind seen]
  change ∃ u, (finish (.walking true) p t i >>= fun _ => _) s = .ok ((), u) ∧ FdOk u
  by_cases more : i < FILES_STRUCT_NENTRY
  · rw [if_pos more]
    have shape : ∀ op ∈ ⟨.walking true, p, t, i + 1⟩ :: s.ops.erase ⟨.walking true, p, t, i⟩,
        op.table = t → op = ⟨.walking true, p, t, i + 1⟩ := by
      intro op there table
      rcases List.mem_cons.mp there with equal | old
      · exact equal
      · exact absurd table (quiet op old)
    have next : (⟨.walking true, p, t, i + 1⟩ :: s.ops.erase ⟨.walking true, p, t, i⟩).count
        ⟨.walking true, p, t, i + 1⟩ = 1 := by
      rw [List.count_cons_self, count_none quiet rfl]
    have counts : ∀ op : FdOp, op.table ≠ t →
        (⟨.walking true, p, t, i + 1⟩ :: s.ops.erase ⟨.walking true, p, t, i⟩).count op =
          s.ops.count op := by
      intro op ne
      rw [List.count_cons_of_ne, count_erased ne rfl]
      rintro rfl
      exact ne rfl
    have calls : ∀ stage t' j, t' ≠ t →
        callsAt (⟨.walking true, p, t, i + 1⟩ :: s.ops.erase ⟨.walking true, p, t, i⟩) stage t' j =
          callsAt s.ops stage t' j := by
      intro stage t' j ne
      rw [calls_added ne rfl, calls_erased mem ne rfl]
    have zero : ∀ stage j, (∀ destroy, stage ≠ .walking destroy) →
        callsAt (⟨.walking true, p, t, i + 1⟩ :: s.ops.erase ⟨.walking true, p, t, i⟩) stage t j = 0 := by
      intro stage j other
      rw [calls_cons, if_neg fun equal => other true equal.1.symm, calls_none quiet]
    rcases entries i with ⟨status, count, once⟩ | ⟨status, count, once⟩
    · have closed : (f.fdArray i).status ≠ .opened := by
        rw [status]
        decide
      rw [if_neg closed]
      refine ⟨_, from_start (i := i) here ((run_bind finish_run).trans ((run_bind begin_run).trans rfl)), ?_⟩
      refine walked_on_ok ok mem here none_left passed more (fun op there table =>
        Or.inl (shape op there table)) next (Or.inl status) counts calls ?_ (fun _ _ _ => rfl) ?_
      · intro stage j _ other
        rw [zero stage j other]
        exact (still stage (other true) j).symm
      · apply free_ok
        · exact status
        · exact count
        · exact zero .opening i nofun
        · exact zero .inside i nofun
        · exact zero .closing i nofun
        · exact once
    · rw [if_pos status]
      refine ⟨_, from_start (i := i) here ((run_bind finish_run).trans ((run_bind begin_run).trans
        (close_last_run status count))), ?_⟩
      refine walked_on_ok ok mem here none_left passed more ?_ ?_ (Or.inr List.mem_cons_self) ?_ ?_ ?_
        (fun _ _ other => tally_other other) ?_
      · intro op there table
        rcases List.mem_cons.mp there with equal | old
        · exact Or.inr equal
        · exact Or.inl (shape op old table)
      · rw [List.count_cons_of_ne, next]
        intro equal
        cases equal
      · intro op ne
        rw [List.count_cons_of_ne, counts op ne]
        rintro rfl
        exact ne rfl
      · intro stage t' j ne
        rw [calls_added ne rfl, calls stage t' j ne]
      · intro stage j apart other
        rw [calls_cons, if_neg fun equal => apart equal.2.2.symm, zero stage j other]
        exact (still stage (other true) j).symm
      · apply freeing_ok
        · rfl
        · rfl
        · rw [calls_cons, if_neg nofun, zero .opening i nofun]
        · rw [calls_cons, if_neg nofun, zero .inside i nofun]
        · rw [calls_cons, if_pos ⟨rfl, rfl, rfl⟩, zero .closing i nofun]
        · rw [tally_self, once]
  · rw [if_neg more, if_pos rfl]
    refine ⟨_, rfl, ?_⟩
    have gone : (Function.update s.tables t none) t = none := Function.update_self ..
    refine destroyer_ok ok mem rfl rfl (fun t' ne => Function.update_of_ne ne ..)
      (fun op ne => count_erased ne rfl) (fun stage t' j ne => calls_erased mem ne rfl)
      (fun _ _ _ => ⟨rfl, rfl⟩) ?_ ?_ ?_ ?_
    · intro j
      apply EntryOk.absent
      · change Option.map _ ((Function.update s.tables t none) t) = none
        rw [gone]
        rfl
      · exact calls_none quiet
      · exact calls_none quiet
      · exact calls_none quiet
      · rcases entries j with ⟨_, _, once⟩ | ⟨status, _, _⟩
        · exact once
        · have unused : (f.fdArray j).status = .none := by
            by_cases low : j < i
            · exact passed j low
            · exact ok.range t f here j (by omega)
          rw [status] at unused
          cases unused
    · intro op there table
      exact absurd table (quiet op there)
    · intro q k there
      exact absurd rfl (quiet _ there)
    · intro f' found
      cases gone.symm.trans found

end

section
variable {s : FdState} {f g : FilesStruct} {p t i j n : Nat} {source : Nat → File}

/- The loop of `dup_files` opens the entries that are open in the source. -/
theorem dup_entries_run (nodes : ∀ k, (source k).status = .opened → (source k).node ≠ none)
    (here : s.tables t = some g) (blank : ∀ k, i ≤ k → g.fdArray k = freeFile) :
    ∃ g' o, dupEntries t source n i s =
        .ok ((), { s with tables := Function.update s.tables t (some g'), opened := o }) ∧
      g'.filesCount = g.filesCount ∧ (∀ t' k, t' ≠ t → o t' k = s.opened t' k) ∧
      ∀ k, ((i ≤ k ∧ k < i + n) ∧ (g'.fdArray k).status = .opened ∧ (g'.fdArray k).node ≠ none ∧
          (g'.fdArray k).openCount = 1 ∧ o t k = s.opened t k + 1) ∨
        (g'.fdArray k = g.fdArray k ∧ o t k = s.opened t k) := by
  induction n generalizing s g i with
  | zero =>
    refine ⟨g, s.opened, ?_, rfl, fun _ _ _ => rfl, fun k => Or.inr ⟨rfl, rfl⟩⟩
    rw [← here, Function.update_eq_self]
    rfl
  | succ n ih =>
    unfold dupEntries
    by_cases status : (source i).status = .opened
    · have dupped : entryDup t i (source i) (s.work t g i { g.fdArray i with status := .init } s.ops
          s.opened s.closed) = .ok ((), s.work t g i (⟨.opened, (source i).readable, (source i).writable,
            (source i).pos, (source i).node, 1⟩) s.ops (tally s.opened t i) s.closed) := by
        unfold entryDup
        rw [run_bind work_entry, run_check_bind ⟨rfl, status⟩, run_bind work_put,
          open_run rfl (nodes i status), blank i (Nat.le_refl i)]
        rfl
      rw [if_pos status]
      change ∃ g' o, (entryAt t i >>= fun file => _) s = _ ∧ _
      rw [run_bind (entry_at_run here), run_bind (put_run here), run_bind dupped]
      have blank' : ∀ k, i + 1 ≤ k → (putFile g i ⟨.opened, (source i).readable, (source i).writable,
          (source i).pos, (source i).node, 1⟩).fdArray k = freeFile := by
        intro k low
        have apart : k ≠ i := by omega
        change Function.update g.fdArray i _ k = _
        rw [Function.update_of_ne apart]
        exact blank k (by omega)
      obtain ⟨g', o, ran, counted, elsewhere, entries⟩ := ih (work_tables (o := tally s.opened t i)) blank'
      refine ⟨g', o, ?_, counted, ?_, ?_⟩
      · refine ran.trans ?_
        unfold FdState.work
        simp only [Function.update_idem]
      · intro t' k ne
        rw [elsewhere t' k ne]
        exact tally_other fun same => absurd same ne
      · intro k
        rcases entries k with ⟨between, opened, node, one, more⟩ | ⟨same, more⟩
        · refine Or.inl ⟨by omega, opened, node, one, more.trans ?_⟩
          change tally s.opened t i t k + 1 = _
          rw [tally_other fun _ => by omega]
        · change o t k = tally s.opened t i t k at more
          by_cases now : k = i
          · subst k
            rw [tally_self] at more
            rw [same, put_file_self]
            exact Or.inl ⟨by omega, rfl, nodes i status, rfl, more⟩
          · rw [tally_other fun _ => now] at more
            refine Or.inr ⟨same.trans ?_, more⟩
            exact Function.update_of_ne now ..
    · rw [if_neg status]
      obtain ⟨g', o, ran, counted, elsewhere, entries⟩ := ih (i := i + 1) here fun k low => blank k (by omega)
      refine ⟨g', o, ran, counted, elsewhere, ?_⟩
      intro k
      rcases entries k with ⟨between, rest⟩ | same
      · exact Or.inl ⟨by omega, rest⟩
      · exact Or.inr same

end

section
variable {s u : FdState} {f : FilesStruct} {p t child fresh : Nat}

/- A process joins the users of a table, which nobody destroys. -/
theorem joined_ok (ok : FdOk s) (new : child ∉ s.procs) (idle : ∀ op ∈ s.ops, op.proc ≠ child)
    (free : ∀ q k, ⟨.walking true, q, t, k⟩ ∉ s.ops) (procs : u.procs = insert child s.procs)
    (filesp : u.filesp = Function.update s.filesp child t) (ops : u.ops = s.ops)
    (tables : ∀ t' ≠ t, u.tables t' = s.tables t') (here : u.tables t = some f)
    (counted : s.holders t + 1 ≤ f.filesCount)
    (tallies : ∀ t' j, t' ≠ t → u.opened t' j = s.opened t' j ∧ u.closed t' j = s.closed t' j)
    (entry : ∀ j, EntryOk (u.view t j))
    (range : ∀ j, FILES_STRUCT_NENTRY ≤ j → (f.fdArray j).status = .none) : FdOk u := by
  constructor
  · intro t' j
    by_cases same : t' = t
    · rw [same]
      exact entry j
    · obtain ⟨opened, closed⟩ := tallies t' j same
      have view : u.view t' j = s.view t' j := by
        unfold FdState.view FdState.at
        rw [tables t' same, opened, closed, ops]
      rw [view]
      exact ok.entry t' j
  · intro op mem
    rw [ops] at mem ⊢
    rw [procs, filesp, Function.update_of_ne (idle op mem)]
    rcases ok.owned op mem with ⟨live, points⟩ | walks
    · exact Or.inl ⟨Finset.mem_insert_of_mem live, points⟩
    · exact Or.inr walks
  · intro q mem
    rw [procs] at mem
    rw [filesp]
    rcases Finset.mem_insert.mp mem with rfl | old
    · rw [Function.update_self]
      exact ⟨f, here⟩
    · have ne : q ≠ child := fun same => new (same ▸ old)
      rw [Function.update_of_ne ne]
      by_cases same : s.filesp q = t
      · rw [same]
        exact ⟨f, here⟩
      · rw [tables _ same]
        exact ok.held q old
  · intro t' f' found
    have more : u.holders t' = s.holders t' + if t' = t then 1 else 0 := by
      unfold FdState.holders
      rw [procs, filesp]
      exact Holders.card_joined new t'
    by_cases same : t' = t
    · subst t'
      rw [here] at found
      cases found
      rw [if_pos rfl] at more
      omega
    · rw [tables _ same] at found
      rw [more, if_neg same]
      exact ok.counted t' f' found
  · intro q t' k walks
    rw [ops] at walks
    have apart : t' ≠ t := by
      rintro rfl
      exact free q k walks
    obtain ⟨⟨f', found, rest⟩, alone, once⟩ := ok.destroying q t' k walks
    rw [← ops] at rest alone once
    exact ⟨⟨f', by rw [tables _ apart, found], rest⟩, alone, once⟩
  · intro t' f' found j high
    by_cases same : t' = t
    · subst t'
      rw [here] at found
      cases found
      exact range j high
    · rw [tables _ same] at found
      exact ok.range t' f' found j high

theorem fork_keeps (ok : FdOk s) {share : Bool} (live : p ∈ s.procs) (new : child ∉ s.procs)
    (idle : ∀ op ∈ s.ops, op.proc ≠ child) (empty : s.tables fresh = none) :
    Keeps (forkFiles p child share fresh) s := by
  obtain ⟨t, points⟩ : ∃ t, s.filesp p = t := ⟨_, rfl⟩
  obtain ⟨f, here⟩ := ok.held p live
  have most := ok.counted _ f here
  have some := holders_pos live
  rw [points] at here most some
  unfold Keeps forkFiles
  rw [run_get_bind, points, run_bind (files_at_run here)]
  cases share with
  | true =>
    refine ⟨_, rfl, joined_ok ok new idle (fun q k => not_destroyed ok live points) rfl rfl rfl
      (fun t' ne => Function.update_of_ne ne ..) (Function.update_self ..) (Nat.succ_le_succ most)
      (fun _ _ _ => ⟨rfl, rfl⟩) ?_ (ok.range t f here)⟩
    intro j
    rw [view_of (Function.update_self ..)]
    have entry := ok.entry t j
    rw [view_of here] at entry
    exact entry
  | false =>
    have absent (j : Nat) : s.at .opening fresh j = 0 ∧ s.at .inside fresh j = 0 ∧
        s.at .closing fresh j = 0 ∧ s.opened fresh j = s.closed fresh j := by
      have none_there : (s.view fresh j).file = none := by
        unfold FdState.view
        rw [empty]
        rfl
      have entry := ok.entry fresh j
      cases entry with
      | absent _ opening inside closing once => exact ⟨opening, inside, closing, once⟩
      | free _ file | init _ file | opened _ file | waits _ file | freeing _ file =>
        rw [none_there] at file
        cases file
    have nodes : ∀ k, (f.fdArray k).status = .opened → (f.fdArray k).node ≠ none :=
      fun k status => (entry_opened ok here status).1
    have made : (s.setTable fresh (.some ⟨none, fun _ => freeFile, 0⟩)).tables fresh =
        .some ⟨none, fun _ => freeFile, 0⟩ := Function.update_self ..
    obtain ⟨g, o, ran, counted, elsewhere, entries⟩ := dup_entries_run (i := 0)
      (n := FILES_STRUCT_NENTRY) nodes made fun _ _ => rfl
    rw [if_neg Bool.false_ne_true, run_modify_bind]
    change ∃ u, (check _ _ >>= _) (s.setTable fresh (.some ⟨none, fun _ => freeFile, 0⟩)) = _ ∧ _
    rw [run_check_bind (by omega), run_bind ran, run_bind (files_at_run (Function.update_self ..))]
    have free : ∀ q k, ⟨.walking true, q, fresh, k⟩ ∉ s.ops := by
      intro q k walks
      obtain ⟨f', found, _⟩ := (ok.destroying q fresh k walks).table
      rw [empty] at found
      cases found
    have nobody : s.holders fresh = 0 := by
      refine Finset.card_eq_zero.mpr (Finset.filter_eq_empty_iff.mpr ?_)
      intro q mem same
      obtain ⟨f', found⟩ := ok.held q mem
      rw [same, empty] at found
      cases found
    refine ⟨_, rfl, joined_ok ok new idle free rfl rfl rfl ?_ (Function.update_self ..) ?_ ?_ ?_ ?_⟩
    · intro t' ne
      change Function.update (Function.update (Function.update s.tables fresh _) fresh _) fresh _ t' = _
      rw [Function.update_of_ne ne, Function.update_of_ne ne, Function.update_of_ne ne]
    · rw [nobody]
      exact Nat.succ_le_succ (Nat.zero_le _)
    · intro t' j ne
      exact ⟨elsewhere t' j ne, rfl⟩
    · intro j
      obtain ⟨opening, inside, closing, once⟩ := absent j
      rw [view_of (Function.update_self ..)]
      rcases entries j with ⟨_, status, node, one, more⟩ | ⟨same, more⟩
      · apply opened_ok
        · exact status
        · exact node
        · change _ = 1 + s.at .inside fresh j
          rw [inside]
          exact one
        · exact opening
        · exact closing
        · change o fresh j = s.closed fresh j + 1
          change o fresh j = s.opened fresh j + 1 at more
          rw [more, once]
      · apply free_ok
        · change (g.fdArray j).status = _
          rw [same]
          rfl
        · change (g.fdArray j).openCount = _
          rw [same]
          rfl
        · exact opening
        · exact inside
        · exact closing
        · exact more.trans once
    · intro j high
      change (g.fdArray j).status = _
      rcases entries j with ⟨between, _⟩ | ⟨same, _⟩
      · omega
      · rw [same]
        rfl

end

section
variable {s : FdState} {f : FilesStruct} {p t : Nat}

/- A process that is not in a call leaves. -/
theorem left_ok (ok : FdOk s) (idle : ∀ op ∈ s.ops, op.proc ≠ p) :
    FdOk { s with procs := s.procs.erase p } := by
  constructor
  · exact ok.entry
  · intro op mem
    rcases ok.owned op mem with ⟨live, points⟩ | walks
    · exact Or.inl ⟨Finset.mem_erase.mpr ⟨idle op mem, live⟩, points⟩
    · exact Or.inr walks
  · intro q mem
    exact ok.held q (Finset.mem_of_mem_erase mem)
  · intro t f here
    refine Nat.le_trans ?_ (ok.counted t f here)
    exact Finset.card_le_card (Finset.filter_subset_filter _ (Finset.erase_subset p s.procs))
  · exact fun q t k walks => ⟨(ok.destroying q t k walks).table, (ok.destroying q t k walks).alone,
      (ok.destroying q t k walks).once⟩
  · exact ok.range

/- `put_files` of a process that leaves, and what it begins to destroy. -/
theorem put_files_ok (ok : FdOk s) (live : p ∈ s.procs) (points : s.filesp p = t)
    (idle : ∀ op ∈ s.ops, op.proc ≠ p) (here : s.tables t = some f) {ops : List FdOp}
    (last : f.filesCount - 1 = 0 ∧ ops = ⟨.walking true, p, t, 0⟩ :: s.ops ∨
      f.filesCount - 1 ≠ 0 ∧ ops = s.ops) :
    FdOk { s with
      tables := Function.update s.tables t (some { f with filesCount := f.filesCount - 1 })
      ops
      procs := s.procs.erase p } := by
  have most := ok.counted t f here
  have left (t' : Nat) := Holders.card_left s.filesp live t'
  have quiet : f.filesCount - 1 = 0 → ∀ op ∈ s.ops, op.table ≠ t := by
    intro zero op mem table
    rcases ok.owned op mem with ⟨alive, there⟩ | ⟨j, walks⟩
    · have other : op.proc ∈ s.procs.erase p := Finset.mem_erase.mpr ⟨idle op mem, alive⟩
      have some : 0 < ((s.procs.erase p).filter fun q => s.filesp q = t).card :=
        Finset.card_pos.mpr ⟨op.proc, Finset.mem_filter.mpr ⟨other, there.trans table⟩⟩
      have count := left t
      rw [if_pos points.symm] at count
      unfold FdState.holders at most
      omega
    · rw [table] at walks
      exact not_destroyed ok live points walks
  have old : ∀ op ∈ ops, op ∈ s.ops ∨ (op = ⟨.walking true, p, t, 0⟩ ∧ f.filesCount - 1 = 0) := by
    intro op mem
    rcases last with ⟨zero, added⟩ | ⟨_, same⟩
    · rw [added] at mem
      rcases List.mem_cons.mp mem with equal | before
      · exact Or.inr ⟨equal, zero⟩
      · exact Or.inl before
    · rw [same] at mem
      exact Or.inl mem
  have kept : ∀ op ∈ s.ops, op ∈ ops := by
    intro op mem
    rcases last with ⟨_, added⟩ | ⟨_, same⟩
    · rw [added]
      exact List.mem_cons_of_mem _ mem
    · rw [same]
      exact mem
  have calls : ∀ stage t' j, stage ≠ .walking true → callsAt ops stage t' j = callsAt s.ops stage t' j := by
    intro stage t' j other
    rcases last with ⟨_, added⟩ | ⟨_, same⟩
    · rw [added, calls_cons, if_neg fun equal => other equal.1.symm, Nat.add_zero]
    · rw [same]
  have elsewhere : ∀ t', t' ≠ t → Function.update s.tables t
      (some { f with filesCount := f.filesCount - 1 }) t' = s.tables t' :=
    fun t' ne => Function.update_of_ne ne ..
  have now : Function.update s.tables t (some { f with filesCount := f.filesCount - 1 }) t =
      some { f with filesCount := f.filesCount - 1 } := Function.update_self ..
  constructor
  · intro t' j
    have entry := ok.entry t' j
    by_cases same : t' = t
    · subst t'
      rw [view_of here] at entry
      rw [view_of now]
      change EntryOk ⟨some (f.fdArray j), callsAt ops _ _ _, callsAt ops _ _ _, callsAt ops _ _ _, _, _⟩
      rw [calls .opening t j nofun, calls .inside t j nofun, calls .closing t j nofun]
      exact entry
    · unfold FdState.view FdState.at at entry
      change EntryOk ⟨Option.map _ (Function.update s.tables t _ t'), callsAt ops _ _ _,
        callsAt ops _ _ _, callsAt ops _ _ _, _, _⟩
      rw [elsewhere t' same, calls .opening t' j nofun, calls .inside t' j nofun,
        calls .closing t' j nofun]
      exact entry
  · intro op mem
    rcases old op mem with before | ⟨equal, _⟩
    · rcases ok.owned op before with ⟨alive, there⟩ | ⟨j, walks⟩
      · exact Or.inl ⟨Finset.mem_erase.mpr ⟨idle op before, alive⟩, there⟩
      · exact Or.inr ⟨j, kept _ walks⟩
    · subst op
      exact Or.inr ⟨0, mem⟩
  · intro q mem
    obtain ⟨f', found⟩ := ok.held q (Finset.mem_of_mem_erase mem)
    by_cases same : s.filesp q = t
    · change ∃ f', Function.update s.tables t _ (s.filesp q) = some f'
      rw [same]
      exact ⟨_, now⟩
    · exact ⟨f', (elsewhere _ same).trans found⟩
  · intro t' f' found
    have count := left t'
    unfold FdState.holders at most ⊢
    change ((s.procs.erase p).filter fun q => s.filesp q = t').card ≤ _
    by_cases same : t' = t
    · subst t'
      rw [if_pos points.symm] at count
      cases now.symm.trans found
      change _ ≤ f.filesCount - 1
      omega
    · have before := ok.counted t' f' ((elsewhere t' same).symm.trans found)
      unfold FdState.holders at before
      omega
  · intro q t' k walks
    rcases old _ walks with before | ⟨equal, zero⟩
    · have apart : t' ≠ t := by
        rintro rfl
        exact not_destroyed ok live points before
      obtain ⟨⟨f', found, none_left, past⟩, alone, once⟩ := ok.destroying q t' k before
      refine ⟨⟨f', (elsewhere t' apart).trans found, none_left, ?_⟩, ?_, ?_⟩
      · intro j low
        rcases past j low with none_there | ⟨next, closes⟩
        · exact Or.inl none_there
        · exact Or.inr ⟨next, kept _ closes⟩
      · intro op mem table
        rcases old op mem with earlier | ⟨equal, _⟩
        · exact alone op earlier table
        · subst op
          exact absurd (show t = t' from table).symm apart
      · rcases last with ⟨_, added⟩ | ⟨_, same⟩
        · change ops.count _ = 1
          rw [added, List.count_cons_of_ne, once]
          intro equal
          cases equal
          exact apart rfl
        · change ops.count _ = 1
          rw [same, once]
    · cases equal
      have added : ops = ⟨.walking true, p, t, 0⟩ :: s.ops := by
        rcases last with ⟨_, added⟩ | ⟨more, _⟩
        · exact added
        · exact absurd zero more
      refine ⟨⟨_, now, zero, fun j low => absurd low (Nat.not_lt_zero j)⟩, ?_, ?_⟩
      · intro op mem table
        rcases old op mem with earlier | ⟨equal, _⟩
        · exact absurd table (quiet zero op earlier)
        · exact Or.inl equal
      · change ops.count _ = 1
        rw [added, List.count_cons_self, count_none (quiet zero) rfl]
  · intro t' f' found j high
    by_cases same : t' = t
    · subst t'
      cases now.symm.trans found
      exact ok.range _ f here j high
    · exact ok.range t' f' ((elsewhere t' same).symm.trans found) j high

theorem exit_keeps (ok : FdOk s) {mm : Bool} (live : p ∈ s.procs) (idle : ∀ op ∈ s.ops, op.proc ≠ p) :
    Keeps (exitFiles p mm) s := by
  obtain ⟨t, points⟩ : ∃ t, s.filesp p = t := ⟨_, rfl⟩
  obtain ⟨f, here⟩ := ok.held p live
  rw [points] at here
  unfold Keeps exitFiles
  rw [run_get_bind, points]
  cases mm with
  | false => exact ⟨_, rfl, left_ok ok idle⟩
  | true =>
    rw [if_pos rfl]
    rw [run_bind (files_at_run here), run_modify_bind]
    by_cases last : f.filesCount - 1 = 0
    · rw [if_pos last]
      exact ⟨_, rfl, put_files_ok ok live points idle here (Or.inl ⟨last, rfl⟩)⟩
    · rw [if_neg last]
      exact ⟨_, rfl, put_files_ok ok live points idle here (Or.inr ⟨last, rfl⟩)⟩

theorem call_keeps (ok : FdOk s) (c : FdCall) (possible : c.Possible s) : Keeps c.run s := by
  cases c with
  | openBegin p => exact open_begin_keeps ok possible.1
  | openEnd p t i node => exact open_end_keeps ok possible
  | useBegin p fd permits => exact use_begin_keeps ok possible.1
  | useEnd p t i pos => exact use_end_keeps ok possible
  | close p fd => exact close_keeps ok possible.1
  | freed p t i => exact freed_keeps ok possible
  | dup p fd1 fd2 => exact dup_keeps ok possible.1
  | closeall p => exact closeall_keeps ok possible.1
  | walk p t i destroy =>
    cases destroy with
    | false => exact walk_keeps ok possible.1
    | true => exact destroy_walk_keeps ok possible.1 possible.2
  | fork p child share fresh => exact fork_keeps ok possible.1.1 possible.2.1 possible.2.2.1 possible.2.2.2
  | exit p mm => exact exit_keeps ok possible.1 possible.2

end

/-- The law of an entry of a table: what its status says of the calls that are under way, what its
count counts, and that each opening is closed once, after the last use. -/
structure EntryLaw (s : FdState) (t i : Nat) (file : File) : Prop where
  none : file.status = .none ↔ s.at .opening t i = 0 ∧ s.at .inside t i = 0 ∧ s.at .closing t i = 0 ∧
    s.opened t i = s.closed t i
  init : file.status = .init ↔ s.at .opening t i = 1
  alone : s.at .opening t i ≤ 1 ∧ s.at .closing t i ≤ 1 ∧
    (0 < s.at .opening t i + s.at .closing t i → s.at .inside t i = 0)
  count : file.openCount = (if file.status = .opened then 1 else 0) + s.at .inside t i
  once : s.opened t i = s.closed t i +
    if file.status = .opened ∨ 0 < s.at .inside t i then 1 else 0

section
variable {s : FdState} {f : FilesStruct} {t i : Nat}

theorem entry_law (ok : FdOk s) (here : s.tables t = some f) : EntryLaw s t i (f.fdArray i) := by
  have entry := ok.entry t i
  rw [view_of here] at entry
  cases entry with
  | absent file => cases file
  | free f' file status count opening inside closing once
  | init f' file status count opening inside closing once
  | opened f' file status _ count opening closing once
  | waits f' file status count inside opening closing once
  | freeing f' file status count opening inside closing once =>
    cases file
    change callsAt s.ops .opening t i = _ at opening
    change callsAt s.ops .closing t i = _ at closing
    change s.opened t i = _ at once
    constructor <;> simp_all [FdState.at]

/- Nothing is left of an entry whose table has been freed. -/
theorem absent_law (ok : FdOk s) (gone : s.tables t = none) : s.at .opening t i = 0 ∧
    s.at .inside t i = 0 ∧ s.at .closing t i = 0 ∧ s.opened t i = s.closed t i := by
  have none_there : (s.view t i).file = none := by
    unfold FdState.view
    rw [gone]
    rfl
  have entry := ok.entry t i
  cases entry with
  | absent _ opening inside closing once => exact ⟨opening, inside, closing, once⟩
  | free _ file | init _ file | opened _ file | waits _ file | freeing _ file =>
    rw [none_there] at file
    cases file

theorem boot_ok : FdOk bootFds := by
  have zero : ∀ t f, bootFds.tables t = some f → t = 0 ∧ f = ⟨none, fun _ => freeFile, 1⟩ := by
    intro t f here
    by_cases same : t = 0
    · subst t
      cases here
      exact ⟨rfl, rfl⟩
    · have gone : bootFds.tables t = none := by
        simp [bootFds, same]
      rw [gone] at here
      cases here
  constructor
  · intro t i
    cases here : bootFds.tables t with
    | none =>
      apply EntryOk.absent
      · unfold FdState.view
        rw [here]
        rfl
      · rfl
      · rfl
      · rfl
      · rfl
    | some f =>
      obtain ⟨_, empty⟩ := zero t f here
      rw [view_of here, empty]
      exact free_ok rfl rfl rfl rfl rfl rfl
  · exact fun op mem => absurd mem List.not_mem_nil
  · exact fun p _ => ⟨⟨none, fun _ => freeFile, 1⟩, rfl⟩
  · intro t f here
    obtain ⟨zero_there, empty⟩ := zero t f here
    rw [zero_there, empty]
    exact Finset.card_filter_le _ _
  · exact fun p t i mem => absurd mem List.not_mem_nil
  · intro t f here i _
    rw [(zero t f here).2]
    rfl

end

/-- After every sequence of the steps of calls, each entry of each table is in the state that the
calls under way and the openings so far account for, and every step that can come next is made
without a failed assertion. -/
theorem entries_follow_their_users {calls : List FdCall} {s : FdState} (run : Run FdStep bootFds calls s) :
    (∀ t f i, s.tables t = some f → EntryLaw s t i (f.fdArray i)) ∧
    (∀ t i, s.tables t = none → s.at .opening t i = 0 ∧ s.at .inside t i = 0 ∧ s.at .closing t i = 0 ∧
      s.opened t i = s.closed t i) ∧
    ∀ c : FdCall, c.Possible s → ∃ u, c.run s = .ok ((), u) := by
  have keep : ∀ s c u, FdOk s → FdStep s c u → FdOk u := by
    rintro s c u ok ⟨possible, a, ran⟩
    obtain ⟨v, ended, law⟩ := call_keeps ok c possible
    cases ran.symm.trans ended
    exact law
  have ok := run_invariant keep run boot_ok
  refine ⟨fun t f i here => entry_law ok here, fun t i gone => absent_law ok gone, ?_⟩
  intro c possible
  obtain ⟨u, ran, _⟩ := call_keeps ok c possible
  exact ⟨u, ran⟩

instance (s : FdState) (p : Nat) : Decidable (s.Idle p) :=
  inferInstanceAs (Decidable (p ∈ s.procs ∧ ∀ op ∈ s.ops, op.proc ≠ p))

instance (s : FdState) : (c : FdCall) → Decidable (c.Possible s)
  | .openBegin p | .useBegin p _ _ | .close p _ | .dup p _ _ | .closeall p | .exit p _ =>
      inferInstanceAs (Decidable (s.Idle p))
  | .openEnd p t i _ => inferInstanceAs (Decidable (⟨.opening, p, t, i⟩ ∈ s.ops))
  | .useEnd p t i _ => inferInstanceAs (Decidable (⟨.inside, p, t, i⟩ ∈ s.ops))
  | .freed p t i => inferInstanceAs (Decidable (⟨.closing, p, t, i⟩ ∈ s.ops))
  | .walk p t i destroy => inferInstanceAs (Decidable (⟨.walking destroy, p, t, i⟩ ∈ s.ops ∧
      ∀ op ∈ s.ops, op.proc = p → op.stage ≠ .closing))
  | .fork p child _ fresh =>
      have : Decidable (s.tables fresh = none) :=
        decidable_of_iff ((s.tables fresh).isNone = true) Option.isNone_iff_eq_none
      inferInstanceAs (Decidable (s.Idle p ∧ child ∉ s.procs ∧ (∀ op ∈ s.ops, op.proc ≠ child) ∧
        s.tables fresh = none))

/- One process closes an entry while another is in a read on it. -/
def sharedClose : List FdCall := [.openBegin 0, .openEnd 0 0 0 (some (.sfs 5)), .fork 0 1 true 1,
  .useBegin 1 0 fun _ => true, .close 0 0, .useEnd 1 0 0 4, .freed 1 0 0]

theorem shared_close_runs : ∃ s, Run FdStep bootFds sharedClose s ∧
    (∀ t f i, s.tables t = some f → EntryLaw s t i (f.fdArray i)) ∧
    s.opened 0 0 = 1 ∧ s.closed 0 0 = 1 := by
  have seen : (replay (fun s c => ended (FdCall.Possible s c) (c.run s)) bootFds sharedClose).any
      (fun s => s.opened 0 0 = 1 ∧ s.closed 0 0 = 1) = true := by
    decide +kernel
  obtain ⟨s, ran, left⟩ := (Option.any_eq_true _ _).mp seen
  exact ⟨s, ended_run ran, (entries_follow_their_users (ended_run ran)).1, of_decide_eq_true left⟩

end Ucore.FdTable
