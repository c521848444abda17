import Ucore.Fs.File
import Ucore.Lib.Transitions

/- lab8/kern/fs/file.c and fs.c for processes that share tables and wait in the middle of a
   call: while `vfs_open` looks up a path, while an inode is read or written, and while
   `vfs_close` gives up an inode. What they wait for is left out. -/
namespace Ucore.FdTable
open Programs Transitions

/-- Where in a call a process is: between `fd_array_alloc` and the end of `file_open`, between
`fd_array_acquire` and `fd_array_release`, in the `vfs_close` of `fd_array_free`, or in the loop
of `files_closeall` or `files_destroy`, before entry `fd`. -/
inductive FdStage where
  | opening
  | inside
  | closing
  | walking (destroy : Bool)
  deriving DecidableEq

structure FdOp where
  stage : FdStage
  proc : Nat
  table : Nat
  fd : Nat
  deriving DecidableEq

/-- The tables by address, the processes that have not exited, what they are in the middle of,
and how often an entry has been opened, and its inode given to `vfs_close`. -/
structure FdState where
  tables : Nat → Option FilesStruct
  procs : Finset Nat
  filesp : Nat → Nat
  ops : List FdOp
  opened : Nat → Nat → Nat
  closed : Nat → Nat → Nat

inductive FdStop where
  | assertion
  | dangling
  deriving DecidableEq

abbrev FdM (α : Type) := Prog FdStop FdState α

def filesAt (t : Nat) : FdM FilesStruct := do
  match (← get).tables t with
  | none => stop .dangling
  | some f => return f

def putFile (f : FilesStruct) (i : Nat) (file : File) : FilesStruct :=
  { f with fdArray := Function.update f.fdArray i file }

def FdState.setTable (s : FdState) (t : Nat) (f : Option FilesStruct) : FdState :=
  { s with tables := Function.update s.tables t f }

def putEntry (t i : Nat) (file : File) : FdM Unit := do
  let f ← filesAt t
  modify fun s => s.setTable t (some (putFile f i file))

def entryAt (t i : Nat) : FdM File := do
  let f ← filesAt t
  return f.fdArray i

def begin (stage : FdStage) (p t i : Nat) : FdM Unit :=
  modify fun s => { s with ops := ⟨stage, p, t, i⟩ :: s.ops }

def finish (stage : FdStage) (p t i : Nat) : FdM Unit :=
  modify fun s => { s with ops := s.ops.erase ⟨stage, p, t, i⟩ }

def tally (f : Nat → Nat → Nat) (t i : Nat) : Nat → Nat → Nat :=
  Function.update f t (Function.update (f t) i (f t i + 1))

/- `fd_array_alloc`. -/
def entryAlloc (t : Nat) (fd : Int) : FdM (Except Int Nat) := do
  let f ← filesAt t
  match freeEntry f.fdArray fd with
  | .error ret => return .error ret
  | .ok i => do
      check .assertion ((f.fdArray i).openCount = 0)
      putEntry t i { f.fdArray i with status := .init, node := none }
      return .ok i

/- `fd_array_free`, as far as `vfs_close`. -/
def entryFree (p t i : Nat) : FdM Unit := do
  let file ← entryAt t i
  check .assertion (file.status = .init ∨ file.status = .closed)
  check .assertion (file.openCount = 0)
  if file.status = .closed then
    modify fun s => { s with closed := tally s.closed t i }
    begin .closing p t i
  else putEntry t i { file with status := .none }

/- The rest of it. -/
def entryFreed (p t i : Nat) : FdM Unit := do
  let file ← entryAt t i
  putEntry t i { file with status := .none }
  finish .closing p t i

/- `fd_array_open`, with the inode that the caller sets. -/
def entryOpen (t i : Nat) (node : Option Node) : FdM Unit := do
  let file ← entryAt t i
  check .assertion (file.status = .init ∧ node ≠ none)
  putEntry t i { file with status := .opened, node, openCount := file.openCount + 1 }
  modify fun s => { s with opened := tally s.opened t i }

def entryAcquire (t i : Nat) : FdM Unit := do
  let file ← entryAt t i
  check .assertion (file.status = .opened)
  putEntry t i { file with openCount := file.openCount + 1 }

/- `fd_array_release` -/
def entryRelease (p t i : Nat) : FdM Unit := do
  let file ← entryAt t i
  check .assertion (file.status = .opened ∨ file.status = .closed)
  check .assertion (file.openCount > 0)
  putEntry t i { file with openCount := file.openCount - 1 }
  if file.openCount - 1 = 0 then entryFree p t i else return ()

/- `fd_array_close` -/
def entryClose (p t i : Nat) : FdM Unit := do
  let file ← entryAt t i
  check .assertion (file.status = .opened)
  check .assertion (file.openCount > 0)
  putEntry t i { file with status := .closed, openCount := file.openCount - 1 }
  if file.openCount - 1 = 0 then entryFree p t i else return ()

/- `fd2file` -/
def openEntry (t : Nat) (fd : Int) : FdM (Option Nat) := do
  if testfd fd then
    let file ← entryAt t fd.toNat
    return if file.status = .opened then some fd.toNat else none
  else return none

def ownTable (p : Nat) : FdM Nat := do
  let t := (← get).filesp p
  check .assertion ((← filesAt t).filesCount > 0)
  return t

def openBegin (p : Nat) : FdM Unit := do
  let t ← ownTable p
  match ← entryAlloc t NO_FD with
  | .error _ => return ()
  | .ok i => begin .opening p t i

/- `node` is `none` where `vfs_open` or `vop_fstat` fails. -/
def openEnd (p t i : Nat) (node : Option Node) : FdM Unit := do
  match node with
  | none => entryFree p t i
  | some node => entryOpen t i (some node)
  finish .opening p t i

/- `file_read`, `file_write`, `file_seek`, `file_fstat`, `file_fsync` and `file_getdirentry` up to
   the inode; `permits` is the answer of a check before `fd_array_acquire`. -/
def useBegin (p : Nat) (fd : Int) (permits : File → Bool) : FdM Unit := do
  let t ← ownTable p
  match ← openEntry t fd with
  | none => return ()
  | some i =>
      if permits (← entryAt t i) then
        entryAcquire t i
        begin .inside p t i

/- The rest; `pos` is set while the entry is open. -/
def useEnd (p t i : Nat) (pos : Int) : FdM Unit := do
  let file ← entryAt t i
  if file.status = .opened then putEntry t i { file with pos }
  entryRelease p t i
  finish .inside p t i

def closeCall (p : Nat) (fd : Int) : FdM Unit := do
  let t ← ownTable p
  match ← openEntry t fd with
  | none => return ()
  | some i => entryClose p t i

/- `fd_array_dup` to an entry of any table. -/
def entryDup (t i : Nat) (source : File) : FdM Unit := do
  let file ← entryAt t i
  check .assertion (file.status = .init ∧ source.status = .opened)
  putEntry t i { file with pos := source.pos, readable := source.readable, writable := source.writable }
  entryOpen t i source.node

def dupCall (p : Nat) (fd1 fd2 : Int) : FdM Unit := do
  let t ← ownTable p
  match ← openEntry t fd1 with
  | none => return ()
  | some i =>
      let source ← entryAt t i
      match ← entryAlloc t fd2 with
      | .error _ => return ()
      | .ok j => entryDup t j source

def closeallBegin (p : Nat) : FdM Unit := do
  let t ← ownTable p
  begin (.walking false) p t 2

/- A turn of the loop. `files_destroy` looks at each entry after it has closed it. -/
def walkNext (p t i : Nat) (destroy : Bool) : FdM Unit := do
  let f ← filesAt t
  check .assertion (destroy = true → 0 < i → (f.fdArray (i - 1)).status = .none)
  finish (.walking destroy) p t i
  if i < FILES_STRUCT_NENTRY then
    begin (.walking destroy) p t (i + 1)
    if (f.fdArray i).status = .opened then entryClose p t i
  else if destroy then modify fun s => s.setTable t none

/- The loop of `dup_files`, into a table whose entries are free. -/
def dupEntries (t : Nat) (source : Nat → File) : Nat → Nat → FdM Unit
  | 0, _ => return ()
  | count + 1, i => do
      if (source i).status = .opened then
        putEntry t i { (← entryAt t i) with status := .init }
        entryDup t i (source i)
      dupEntries t source count (i + 1)

/- `copy_files`. -/
def forkFiles (p child : Nat) (share : Bool) (fresh : Nat) : FdM Unit := do
  let old := (← get).filesp p
  let f ← filesAt old
  if share then
    modify fun s => s.setTable old (some { f with filesCount := f.filesCount + 1 })
    modify fun s => { s with procs := insert child s.procs, filesp := Function.update s.filesp child old }
  else
    modify fun s =>
      s.setTable fresh (some { pwd := none, fdArray := fun _ => freeFile, filesCount := 0 })
    check .assertion (f.filesCount > 0)
    dupEntries fresh f.fdArray FILES_STRUCT_NENTRY 0
    let new ← filesAt fresh
    modify fun s =>
      s.setTable fresh (some { new with pwd := f.pwd, filesCount := new.filesCount + 1 })
    modify fun s =>
      { s with procs := insert child s.procs, filesp := Function.update s.filesp child fresh }

/- `do_exit`; `mm` tells whether it comes to `put_files`. -/
def exitFiles (p : Nat) (mm : Bool) : FdM Unit := do
  let t := (← get).filesp p
  if mm then
    let f ← filesAt t
    modify fun s => s.setTable t (some { f with filesCount := f.filesCount - 1 })
    if f.filesCount - 1 = 0 then begin (.walking true) p t 0
  modify fun s => { s with procs := s.procs.erase p }

inductive FdCall where
  | openBegin (p : Nat)
  | openEnd (p t i : Nat) (node : Option Node)
  | useBegin (p : Nat) (fd : Int) (permits : File → Bool)
  | useEnd (p t i : Nat) (pos : Int)
  | close (p : Nat) (fd : Int)
  | freed (p t i : Nat)
  | dup (p : Nat) (fd1 fd2 : Int)
  | closeall (p : Nat)
  | walk (p t i : Nat) (destroy : Bool)
  | fork (p child : Nat) (share : Bool) (fresh : Nat)
  | exit (p : Nat) (mm : Bool)

/-- The process has not exited, and is not in the middle of a call. -/
def FdState.Idle (s : FdState) (p : Nat) : Prop := p ∈ s.procs ∧ ∀ op ∈ s.ops, op.proc ≠ p

def FdCall.Possible (s : FdState) : FdCall → Prop
  | .openBegin p | .useBegin p _ _ | .close p _ | .dup p _ _ | .closeall p | .exit p _ => s.Idle p
  | .openEnd p t i _ => ⟨.opening, p, t, i⟩ ∈ s.ops
  | .useEnd p t i _ => ⟨.inside, p, t, i⟩ ∈ s.ops
  | .freed p t i => ⟨.closing, p, t, i⟩ ∈ s.ops
  | .walk p t i destroy =>
      ⟨.walking destroy, p, t, i⟩ ∈ s.ops ∧ ∀ op ∈ s.ops, op.proc = p → op.stage ≠ .closing
  | .fork p child _ fresh => s.Idle p ∧ child ∉ s.procs ∧ (∀ op ∈ s.ops, op.proc ≠ child) ∧
      s.tables fresh = none

def FdCall.run : FdCall → FdM Unit
  | .openBegin p => FdTable.openBegin p
  | .openEnd p t i node => FdTable.openEnd p t i node
  | .useBegin p fd permits => FdTable.useBegin p fd permits
  | .useEnd p t i pos => FdTable.useEnd p t i pos
  | .close p fd => closeCall p fd
  | .freed p t i => entryFreed p t i
  | .dup p fd1 fd2 => dupCall p fd1 fd2
  | .closeall p => closeallBegin p
  | .walk p t i destroy => walkNext p t i destroy
  | .fork p child share fresh => forkFiles p child share fresh
  | .exit p mm => exitFiles p mm

def FdStep (s : FdState) (c : FdCall) (t : FdState) : Prop :=
  c.Possible s ∧ ∃ a, c.run s = .ok (a, t)

/-- The first process, with an empty table. -/
def bootFds : FdState where
  tables := Function.update (fun _ => none) 0
    (some { pwd := none, fdArray := fun _ => freeFile, filesCount := 1 })
  procs := {0}
  filesp := fun _ => 0
  ops := []
  opened := fun _ _ => 0
  closed := fun _ _ => 0

end Ucore.FdTable
