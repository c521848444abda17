import Mathlib.Data.Finset.Card
import Ucore.Lib.Programs
import Ucore.Lib.Transitions

/- lab8/kern/process/proc.c and fs/fs.c: the file tables of processes, through fork, exec and
   exit. Of memory only `mm` matters here, and whether it is NULL; whether what a call needs can
   be had is part of the call. -/
namespace Ucore.ProcFiles
open Programs Transitions

/-- `struct files_struct`: its count, and the inodes of its entries that are open. -/
structure FileTable where
  filesCount : Nat
  fdArray : Nat → Option Nat

def FileTable.opened (table : FileTable) (fd node : Nat) : FileTable :=
  { table with fdArray := Function.update table.fdArray fd (some node) }

/-- `live` are the processes that have not exited, and `closed` the inodes that have been given to
`vfs_close`. -/
structure Procs where
  live : Finset Nat
  zombies : Finset Nat
  mm : Nat → Bool
  filesp : Nat → Nat
  files : Nat → Option FileTable
  closed : List Nat

inductive ProcStop where
  | assertion
  | panic
  | dangling
  deriving DecidableEq

abbrev ProcM (α : Type) := Prog ProcStop Procs α

def fdCount : Nat := (4096 - 48) / 56

def CLONE_FS : Nat := 0x00000800

def tableOf (f : Nat) : ProcM FileTable := do
  match (← get).files f with
  | none => stop .dangling
  | some table => return table

def setTable (f : Nat) (table : Option FileTable) : ProcM Unit :=
  modify fun s => { s with files := Function.update s.files f table }

/- `fd_array_close` of an open entry that no call is using. -/
def closeFd (f fd : Nat) : ProcM Unit := do
  let table ← tableOf f
  match table.fdArray fd with
  | none => return ()
  | some node => do
      setTable f (some { table with fdArray := Function.update table.fdArray fd none })
      modify fun s => { s with closed := s.closed ++ [node] }

/- The loop of `files_destroy` and `files_closeall`. -/
def closeFds (f : Nat) : Nat → Nat → ProcM Unit
  | 0, _ => return ()
  | count + 1, fd => do
      closeFd f fd
      closeFds f count (fd + 1)

def tableDestroy (f : Nat) : ProcM Unit := do
  check .assertion ((← tableOf f).filesCount = 0)
  closeFds f fdCount 0
  setTable f none

def tableCloseall (f : Nat) : ProcM Unit := do
  check .assertion ((← tableOf f).filesCount > 0)
  closeFds f (fdCount - 2) 2

/- `files_create` at an address, and `dup_files`. -/
def tableCopy (f fresh : Nat) : ProcM Unit := do
  let table ← tableOf f
  check .assertion (table.filesCount > 0)
  setTable fresh (some { filesCount := 0, fdArray := table.fdArray })

/- Where `files_create` finds no memory, `fresh` is `none`. -/
def copyFiles (cloneFlags p child : Nat) (fresh : Option Nat) : ProcM Bool := do
  let old := (← get).filesp p
  let filesp : Option Nat ←
    if cloneFlags &&& CLONE_FS ≠ 0 then pure (some old)
    else match fresh with
      | none => pure none
      | some f => do
          tableCopy old f
          pure (some f)
  match filesp with
  | none => return false
  | some f => do
      let table ← tableOf f
      setTable f (some { table with filesCount := table.filesCount + 1 })
      modify fun s => { s with filesp := Function.update s.filesp child f }
      return true

def putFiles (p : Nat) : ProcM Unit := do
  let f := (← get).filesp p
  let table ← tableOf f
  setTable f (some { table with filesCount := table.filesCount - 1 })
  if table.filesCount - 1 = 0 then tableDestroy f

/- `resources` tells whether the structure, the kernel stack and the memory of the child are
   there. -/
def doFork (cloneFlags p child : Nat) (resources : Bool) (fresh : Option Nat) : ProcM Unit := do
  if !resources then return ()
  else if ← copyFiles cloneFlags p child fresh then
    modify fun s =>
      { s with live := insert child s.live, mm := Function.update s.mm child (s.mm p) }

def idleproc : Nat := 0
def initproc : Nat := 1

def setMm (p : Nat) (mm : Bool) : ProcM Unit :=
  modify fun s => { s with mm := Function.update s.mm p mm }

def doExit (p : Nat) : ProcM Unit := do
  check .panic (p ≠ idleproc)
  check .panic (p ≠ initproc)
  if (← get).mm p then
    setMm p false
    putFiles p
  modify fun s => { s with live := s.live.erase p, zombies := insert p s.zombies }

/-- How `load_icode` ends: it has set `current->mm` and answers 0; memory runs out when `ret` is 0 from reading a page,
so that it answers 0 and has freed what it made; it answers an error before it has set `current->mm`, or comes to one
after that. -/
inductive Load where
  | loaded
  | starved
  | failed
  | late
  deriving DecidableEq

/- `arguments` tells whether they can be copied, and `opened` what `sysfile_open` finds: an entry
   and an inode. `load_icode` leaves the entry open. -/
def doExecve (p : Nat) (arguments : Bool) (opened : Option (Nat × Nat)) (load : Load) : ProcM Unit := do
  if !arguments then return ()
  else
    let f := (← get).filesp p
    tableCloseall f
    match opened with
    | none => doExit p
    | some (fd, node) => do
        let table ← tableOf f
        setTable f (some (table.opened fd node))
        setMm p false
        match load with
        | .loaded => setMm p true
        | .starved => return ()
        | .failed => doExit p
        -- `exit_mmap` asserts that the count of the new `mm` is 0, and it is 1 by then.
        | .late => stop .assertion

/- `file_open` and `file_dup`, once they have an entry and an inode. -/
def procOpen (p fd node : Nat) : ProcM Unit := do
  let f := (← get).filesp p
  let table ← tableOf f
  setTable f (some (table.opened fd node))

def procClose (p fd : Nat) : ProcM Unit := do
  closeFd ((← get).filesp p) fd

inductive ProcCall where
  | fork (cloneFlags p child : Nat) (resources : Bool) (fresh : Option Nat)
  | exec (p : Nat) (arguments : Bool) (opened : Option (Nat × Nat)) (load : Load)
  | exit (p : Nat)
  | openFd (p fd node : Nat)
  | closeFd (p fd : Nat)

/- The entry of `p` is free for `fd_array_alloc`. -/
def Procs.freeFd (s : Procs) (p fd : Nat) : Bool :=
  fd < fdCount ∧ (s.files (s.filesp p)).all fun table => (table.fdArray fd).isNone

/- A live process calls; a new process, a new table and a new entry are not in use. -/
def ProcCall.Possible (s : Procs) : ProcCall → Prop
  | .fork _ p child _ fresh => p ∈ s.live ∧ child ∉ s.live ∧ ∀ f ∈ fresh, s.files f = none
  | .exec p _ opened _ => p ∈ s.live ∧ ∀ o ∈ opened, (2 ≤ o.1 ∧ o.1 < fdCount) ∨ s.freeFd p o.1
  | .exit p => p ∈ s.live
  | .openFd p fd _ => p ∈ s.live ∧ s.freeFd p fd
  | .closeFd p _ => p ∈ s.live

instance (s : Procs) : (c : ProcCall) → Decidable (c.Possible s)
  | .fork _ p child _ fresh =>
      have : ∀ f, Decidable (s.files f = none) := fun f =>
        decidable_of_iff ((s.files f).isNone = true) Option.isNone_iff_eq_none
      inferInstanceAs (Decidable (p ∈ s.live ∧ child ∉ s.live ∧ ∀ f ∈ fresh, s.files f = none))
  | .exec p _ opened _ =>
      inferInstanceAs (Decidable
        (p ∈ s.live ∧ ∀ o ∈ opened, (2 ≤ o.1 ∧ o.1 < fdCount) ∨ s.freeFd p o.1))
  | .exit p => inferInstanceAs (Decidable (p ∈ s.live))
  | .openFd p fd _ => inferInstanceAs (Decidable (p ∈ s.live ∧ s.freeFd p fd))
  | .closeFd p _ => inferInstanceAs (Decidable (p ∈ s.live))

def ProcCall.run : ProcCall → ProcM Unit
  | .fork cloneFlags p child resources fresh => doFork cloneFlags p child resources fresh
  | .exec p arguments opened load => doExecve p arguments opened load
  | .exit p => doExit p
  | .openFd p fd node => procOpen p fd node
  | .closeFd p fd => procClose p fd

def ProcStep (s : Procs) (c : ProcCall) (t : Procs) : Prop :=
  c.Possible s ∧ ∃ a, c.run s = .ok (a, t)

end Ucore.ProcFiles
