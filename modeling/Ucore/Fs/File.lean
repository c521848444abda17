import Ucore.Fs.Vfs.VfsLookup

/- lab8/kern/fs/file.c and the file tables of fs.c. -/
namespace Ucore
open Programs

/-- A `struct file *`: an entry of the table of a process. -/
structure FileRef where
  proc : Nat
  fd : Nat
  deriving DecidableEq

def setFile (r : FileRef) (file : File) : VfsM Unit :=
  modify fun v =>
    let f := v.files r.proc
    { v with files := (Function.update v.files r.proc
      { f with fdArray := Function.update f.fdArray r.fd file }) }

def fileOf (r : FileRef) : VfsM File := return ((← get).files r.proc).fdArray r.fd

/-- `get_fd_array`, as the process whose table it is. -/
def getFdArray : VfsM Nat := do
  let v ← get
  check .assertion ((v.files v.current).filesCount > 0)
  return v.current

def testfd (fd : Int) : Bool := 0 ≤ fd ∧ fd < FILES_STRUCT_NENTRY

/- The entry that `fd_array_alloc` finds. -/
def freeEntry (table : Nat → File) (fd : Int) : Except Int Nat :=
  if fd = NO_FD then
    match (List.range FILES_STRUCT_NENTRY).find? fun i => (table i).status = .none with
    | some i => .ok i
    | none => .error (-E_MAX_OPEN)
  else if testfd fd then
    if (table fd.toNat).status = .none then .ok fd.toNat else .error (-E_BUSY)
  else .error (-E_INVAL)

def fdArrayAlloc (fd : Int) : VfsM (Except Int FileRef) := do
  let p ← getFdArray
  let v ← get
  match freeEntry (v.files p).fdArray fd with
  | .error ret => return .error ret
  | .ok i => do
      let file := (v.files p).fdArray i
      check .assertion (file.openCount = 0)
      setFile ⟨p, i⟩ { file with status := .init, node := none }
      return .ok ⟨p, i⟩

def nodeOf (file : File) : VfsM Node :=
  match file.node with
  | none => stop .dangling
  | some node => return node

def fdArrayFree (r : FileRef) : VfsM Unit := do
  let file ← fileOf r
  check .assertion (file.status = .init ∨ file.status = .closed)
  check .assertion (file.openCount = 0)
  if file.status = .closed then
    let node ← nodeOf file
    vfsClose node
  let file ← fileOf r
  setFile r { file with status := .none }

def fdArrayAcquire (r : FileRef) : VfsM Unit := do
  let file ← fileOf r
  check .assertion (file.status = .opened)
  setFile r { file with openCount := file.openCount + 1 }

def fdArrayRelease (r : FileRef) : VfsM Unit := do
  let file ← fileOf r
  check .assertion (file.status = .opened ∨ file.status = .closed)
  check .assertion (file.openCount > 0)
  setFile r { file with openCount := file.openCount - 1 }
  if file.openCount - 1 = 0 then fdArrayFree r else return ()

def fdArrayOpen (r : FileRef) : VfsM Unit := do
  let file ← fileOf r
  check .assertion (file.status = .init ∧ file.node ≠ none)
  setFile r { file with status := .opened, openCount := file.openCount + 1 }

def fdArrayClose (r : FileRef) : VfsM Unit := do
  let file ← fileOf r
  check .assertion (file.status = .opened)
  check .assertion (file.openCount > 0)
  setFile r { file with status := .closed, openCount := file.openCount - 1 }
  if file.openCount - 1 = 0 then fdArrayFree r else return ()

def fdArrayDup (target source : FileRef) : VfsM Unit := do
  let new ← fileOf target
  let old ← fileOf source
  check .assertion (new.status = .init ∧ old.status = .opened)
  let node ← nodeOf old
  let _ ← inodeRefInc node
  let _ ← inodeOpenInc node
  setFile target { new with
    pos := old.pos, readable := old.readable, writable := old.writable, node := some node }
  fdArrayOpen target

def fd2file (fd : Int) : VfsM (Except Int FileRef) := do
  if testfd fd then
    let p ← getFdArray
    let file ← fileOf ⟨p, fd.toNat⟩
    if file.status = .opened then return .ok ⟨p, fd.toNat⟩
    else return .error (-E_INVAL)
  else return .error (-E_INVAL)

def fileTestfd (fd : Int) (readable writable : Bool) : VfsM Bool := do
  match ← fd2file fd with
  | .error _ => return false
  | .ok r => do
      let file ← fileOf r
      return (!readable || file.readable) && (!writable || file.writable)

def fileOpen (path : Name) (openFlags : Nat) : VfsM Int := do
  match accessMode openFlags with
  | none => return -E_INVAL
  | some (readable, writable) => do
      match ← fdArrayAlloc NO_FD with
      | .error ret => return ret
      | .ok r => do
          match ← vfsOpen path openFlags with
          | .error ret => do
              fdArrayFree r
              return ret
          | .ok node => do
              let (ret, stat) ←
                if hasFlag openFlags O_APPEND then vopFstat node else pure (0, ⟨0, 0, 0, 0⟩)
              if ret ≠ 0 then
                vfsClose node
                fdArrayFree r
                return ret
              else
                let file ← fileOf r
                setFile r { file with pos := stat.size, node := some node, readable, writable }
                fdArrayOpen r
                return r.fd

def fileClose (fd : Int) : VfsM Int := do
  match ← fd2file fd with
  | .error ret => return ret
  | .ok r => do
      fdArrayClose r
      return 0

/- `file_read` and `file_write`: the returned code, `*copied_store`, and the buffer. -/
def fileIo (fd : Int) (buf : DiskBlock) (len : Nat) (write : Bool) :
    VfsM (Int × Nat × DiskBlock) := do
  match ← fd2file fd with
  | .error ret => return (ret, 0, buf)
  | .ok r => do
      let file ← fileOf r
      if (if write then file.writable else file.readable) = false then return (-E_INVAL, 0, buf)
      else
        fdArrayAcquire r
        let node ← nodeOf file
        let (ret, copied, buf) ← vopIo node buf file.pos len write
        let file ← fileOf r
        if file.status = .opened then
          setFile r { file with pos := file.pos + copied }
        fdArrayRelease r
        return (ret, copied, buf)

def fileRead (fd : Int) (buf : DiskBlock) (len : Nat) : VfsM (Int × Nat × DiskBlock) :=
  fileIo fd buf len false

def fileWrite (fd : Int) (buf : DiskBlock) (len : Nat) : VfsM (Int × Nat × DiskBlock) :=
  fileIo fd buf len true

/- The position that `whence` asks for. -/
def seekTarget (file : File) (node : Node) (pos whence : Int) : VfsM (Except Int Int) := do
  if whence = LSEEK_SET then return .ok pos
  else if whence = LSEEK_CUR then return .ok (i64 (pos + file.pos))
  else if whence = LSEEK_END then
    let (ret, stat) ← vopFstat node
    if ret ≠ 0 then return .error ret
    else return .ok (i64 (pos + stat.size))
  else return .error (-E_INVAL)

def fileSeek (fd pos whence : Int) : VfsM Int := do
  match ← fd2file fd with
  | .error ret => return ret
  | .ok r => do
      fdArrayAcquire r
      let file ← fileOf r
      let node ← nodeOf file
      match ← seekTarget file node pos whence with
      | .error ret => do
          fdArrayRelease r
          return ret
      | .ok pos => do
          let ret ← vopTryseek node pos
          if ret = 0 then
            let file ← fileOf r
            setFile r { file with pos }
          fdArrayRelease r
          return ret

def fileFstat (fd : Int) : VfsM (Int × Stat) := do
  match ← fd2file fd with
  | .error ret => return (ret, ⟨0, 0, 0, 0⟩)
  | .ok r => do
      fdArrayAcquire r
      let node ← nodeOf (← fileOf r)
      let (ret, stat) ← vopFstat node
      fdArrayRelease r
      return (ret, stat)

def fileFsync (fd : Int) : VfsM Int := do
  match ← fd2file fd with
  | .error ret => return ret
  | .ok r => do
      fdArrayAcquire r
      let node ← nodeOf (← fileOf r)
      let ret ← vopFsync node
      fdArrayRelease r
      return ret

/- The returned code, the new `direntp->offset`, and the name. -/
def fileGetdirentry (fd offset : Int) : VfsM (Int × Int × Name) := do
  match ← fd2file fd with
  | .error ret => return (ret, offset, [])
  | .ok r => do
      fdArrayAcquire r
      let node ← nodeOf (← fileOf r)
      let (ret, used, name) ← vopGetdirentry node offset sfsDentrySize
      fdArrayRelease r
      return (ret, if ret = 0 then offset + used else offset, name)

def fileDup (fd1 fd2 : Int) : VfsM Int := do
  match ← fd2file fd1 with
  | .error ret => return ret
  | .ok source => do
      match ← fdArrayAlloc fd2 with
      | .error ret => return ret
      | .ok target => do
          fdArrayDup target source
          return target.fd

/- lab8/kern/fs/fs.c. -/

/-- An entry as `fd_array_init` leaves it. -/
def freeFile : File :=
  { status := .none, readable := false, writable := false, pos := 0, node := none, openCount := 0 }

end Ucore
