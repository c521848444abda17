import Ucore.Fs.Sfs.FileStops
import Ucore.Fs.Sysfile

/- Open descriptors over a volume: what lab8/kern/fs/file.c and `vfs_open` do with positions
   and files once an inode has been found. Counts of references are left to `File`. -/
namespace Ucore
open Programs Words Transitions ByteFile

/-- An opened entry. -/
structure Descriptor where
  node : Node
  readable : Bool
  writable : Bool
  pos : Int

/-- The volume, and the entries of all processes that are open. -/
structure Descs where
  sfs : Sfs
  opened : FileRef → Option Descriptor

abbrev DescM (α : Type) := Prog VfsStop Descs α

def onVolume {α : Type} (m : SfsM α) : DescM α := fun d =>
  match m d.sfs with
  | .ok (a, sfs) => .ok (a, { d with sfs })
  | .error reason => .error (.sfs reason)

def setDesc (r : FileRef) (file : Option Descriptor) : DescM Unit :=
  modify fun d => { d with opened := Function.update d.opened r file }

/- The operation `op` of a regular file; a directory lacks it. -/
def onFile {α : Type} (op : Vop) (k : Nat) (m : SfsM α) : DescM α := do
  let d ← get
  if (d.sfs.inodes k).din.type = .file then onVolume m else stop (.nullOp op)

/- `vop_read` and `vop_write`; `device` is what a device would answer. -/
def nodeIo (node : Node) (buf : DiskBlock) (offset : Int) (len : Nat) (write : Bool)
    (device : Answer) : DescM Answer :=
  match node with
  | .dev _ => return device
  | .sfs k => do
      let (ret, alen, buf) ← onFile (if write then .vopWrite else .vopRead) k
        (sfsIoNolock k buf offset len write)
      check .assertion (alen ≤ len)
      return (ret, alen, buf)

def nodeTruncate (node : Node) (len : Int) : DescM Int :=
  match node with
  | .dev _ => stop (.nullOp .vopTruncate)
  | .sfs k => onFile .vopTruncate k (sfsTruncfile k len)

def nodeTryseek (node : Node) (pos : Int) : DescM Int :=
  match node with
  | .dev _ => return devTryseek
  | .sfs k => onFile .vopTryseek k (sfsTryseek k pos)

/- `st_size` of `vop_fstat`. -/
def nodeSize (s : Sfs) : Node → Nat
  | .dev _ => 0
  | .sfs k => (s.inodes k).din.size

def nodeOpen (s : Sfs) (node : Node) (openFlags : Nat) : Int :=
  match node with
  | .dev device =>
      if hasFlag openFlags (O_CREAT ||| O_TRUNC ||| O_EXCL ||| O_APPEND) then -E_INVAL
      else dopOpen device openFlags
  | .sfs k => if (s.inodes k).din.type = .dir then sfsOpendir openFlags else 0

/- `file_open` of a path that leads to `node`, with the entry that `fd_array_alloc` finds. -/
def descOpen (r : FileRef) (node : Node) (openFlags : Nat) : DescM Int := do
  let d ← get
  match accessMode openFlags with
  | none => return -E_INVAL
  | some (readable, writable) =>
      if (d.opened r).isSome then return -E_MAX_OPEN
      else if hasFlag openFlags O_TRUNC ∧ !writable then return -E_INVAL
      else if hasFlag openFlags O_EXCL ∧ hasFlag openFlags O_CREAT then return -E_EXISTS
      else if nodeOpen d.sfs node openFlags ≠ 0 then return nodeOpen d.sfs node openFlags
      else
        let ret ← if hasFlag openFlags O_TRUNC ∨ hasFlag openFlags O_CREAT
          then nodeTruncate node 0 else pure 0
        if ret ≠ 0 then return ret
        else
          let d ← get
          let pos := if hasFlag openFlags O_APPEND then nodeSize d.sfs node else 0
          setDesc r (some { node, readable, writable, pos })
          return r.fd

def descClose (r : FileRef) : DescM Int := do
  match (← get).opened r with
  | none => return -E_INVAL
  | some _ => do
      setDesc r none
      return 0

def descDup (target source : FileRef) : DescM Int := do
  let d ← get
  match d.opened source with
  | none => return -E_INVAL
  | some file =>
      if (d.opened target).isSome then return -E_BUSY
      else
        setDesc target (some file)
        return target.fd

def descIo (r : FileRef) (buf : DiskBlock) (len : Nat) (write : Bool) (device : Answer) :
    DescM Answer := do
  match (← get).opened r with
  | none => return (-E_INVAL, 0, buf)
  | some file =>
      if (if write then file.writable else file.readable) = false then return (-E_INVAL, 0, buf)
      else
        let (ret, copied, buf) ← nodeIo file.node buf file.pos len write device
        setDesc r (some { file with pos := file.pos + copied })
        return (ret, copied, buf)

/- The position that `whence` asks for. -/
def Descriptor.target (file : Descriptor) (s : Sfs) (pos whence : Int) : Option Int :=
  if whence = LSEEK_SET then some pos
  else if whence = LSEEK_CUR then some (i64 (pos + file.pos))
  else if whence = LSEEK_END then some (i64 (pos + nodeSize s file.node))
  else none

def descSeek (r : FileRef) (pos whence : Int) : DescM Int := do
  let d ← get
  match d.opened r with
  | none => return -E_INVAL
  | some file =>
      match file.target d.sfs pos whence with
      | none => return -E_INVAL
      | some pos => do
          let ret ← nodeTryseek file.node pos
          if ret = 0 then
            setDesc r (some { file with pos })
            return 0
          else return ret

def descFstat (r : FileRef) : DescM Int := do
  match (← get).opened r with
  | none => return -E_INVAL
  | some _ => return 0

/- `file_getdirentry`, where `memory` tells whether `kmalloc` finds some. -/
def descGetdirentry (r : FileRef) (offset : Int) (memory : Bool) : DescM Int := do
  let d ← get
  match d.opened r with
  | none => return -E_INVAL
  | some ⟨.dev _, _, _, _⟩ => stop (.nullOp .vopGetdirentry)
  | some ⟨.sfs k, _, _, _⟩ =>
      if (d.sfs.inodes k).din.type ≠ .dir then stop (.nullOp .vopGetdirentry)
      else if !memory then return -E_NO_MEM
      else if offset < 0 ∨ offset % sfsDentrySize ≠ 0 then return -E_INVAL
      else
        let slot := i32 (offset.toNat / sfsDentrySize)
        if u32 slot > (d.sfs.inodes k).din.blocks then return -E_NOENT
        else
          match ← onVolume (sfsGetdirentrySubNolock k (d.sfs.inodes k).din.blocks 0 (u32 slot)) with
          | .error ret => return ret
          | .ok _ => return 0

/- `sysfile_read` on an entry; `user` tells which of the transfers to memory succeed. -/
def descReadLoop (r : FileRef) (user : Nat → Bool) (device : Answer) : Nat → Nat → Nat → DescM Int
  | 0, _, copied => return transferred copied 0
  | turns + 1, len, copied => do
      if len = 0 then return transferred copied 0
      else
        let (ret, alen, _) ← descIo r (fun _ => 0) (min IOBUF_SIZE len) false device
        if alen = 0 then return transferred copied ret
        else if user copied then
          check .assertion (alen ≤ len)
          if ret ≠ 0 then return transferred (copied + alen) ret
          else descReadLoop r user device turns (len - alen) (copied + alen)
        else return transferred copied (if ret = 0 then -E_INVAL else ret)

def descRead (r : FileRef) (len : Nat) (user : Nat → Bool) (device : Answer) (memory : Bool) :
    DescM Int := do
  if len = 0 then return 0
  else
    match (← get).opened r with
    | none => return -E_INVAL
    | some file =>
        if !file.readable then return -E_INVAL
        else if !memory then return -E_NO_MEM
        else descReadLoop r user device len len 0

/- lab8/kern/process/proc.c. -/
def loadIcodeRead (r : FileRef) (len : Nat) (offset : Int) (user : Nat → Bool) (device : Answer)
    (memory : Bool) : DescM Int := do
  let ret ← descSeek r offset LSEEK_SET
  if ret ≠ 0 then return ret
  else
    let ret ← descRead r len user device memory
    if ret ≠ len then return if ret < 0 then ret else -1
    else return 0

/-- A call on a descriptor, or one of the kernel on the inode `k` of a regular file; `flush` is
`vop_fsync`, also as `sfs_reclaim` calls it. -/
inductive DescCall where
  | openNode (r : FileRef) (node : Node) (openFlags : Nat)
  | close (r : FileRef)
  | dup (target source : FileRef)
  | transfer (write : Bool) (r : FileRef) (len : Nat) (buf : DiskBlock) (device : Answer)
  | seek (r : FileRef) (pos whence : Int)
  | fstat (r : FileRef)
  | getdirentry (r : FileRef) (offset : Int) (memory : Bool)
  | truncate (k : Nat) (len : Int)
  | tryseek (k : Nat) (pos : Int)
  | flush (k : Nat)

def retOf {α : Type} (m : DescM α) (ret : α → Int) : DescM Int := do
  let a ← m
  return ret a

def DescCall.run : DescCall → DescM Int
  | .openNode r node openFlags => descOpen r node openFlags
  | .close r => descClose r
  | .dup target source => descDup target source
  | .transfer write r len buf device => retOf (descIo r buf len write device) Prod.fst
  | .seek r pos whence => descSeek r pos whence
  | .fstat r => descFstat r
  | .getdirentry r offset memory => descGetdirentry r offset memory
  | .truncate k len => onFile .vopTruncate k (sfsTruncfile k len)
  | .tryseek k pos => onFile .vopTryseek k (sfsTryseek k pos)
  | .flush k => onVolume (sfsFsync k)

end Ucore
