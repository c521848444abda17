import Ucore.Fs.Vfs.Vfs

/- lab8/kern/fs/sfs/sfs_inode.c: the operations of SFS inodes that need no other inode. -/
namespace Ucore
open Programs Words

def SfsType.code : SfsType → Nat
  | .inval => 0
  | .file => 1
  | .dir => 2
  | .link => 3

def SfsType.ofCode : Nat → SfsType
  | 1 => .file
  | 2 => .dir
  | 3 => .link
  | _ => .inval

def sizeofDiskInode : Nat := 64

/- A 32-bit field of a structure at a byte offset. -/
def field (b : DiskBlock) (offset : Nat) : Nat := bytesU32 fun i => b (offset + i)

/-- `struct sfs_disk_inode` as it lies in memory. -/
def diskInodeBytes (din : SfsDiskInode) : DiskBlock := fun i =>
  if i < 4 then u32Bytes din.size i
  else if i < 8 then u32Bytes (din.type.code + 65536 * din.nlinks) (i - 4)
  else if i < 12 then u32Bytes din.blocks (i - 8)
  else if i < 60 then u32Bytes (din.direct ((i - 12) / 4)) ((i - 12) % 4)
  else u32Bytes din.indirect (i - 60)

def bytesDiskInode (b : DiskBlock) : SfsDiskInode where
  size := field b 0
  type := .ofCode (field b 4 % 65536)
  nlinks := field b 4 / 65536
  blocks := field b 8
  direct := fun i => if i < SFS_NDIRECT then field b (12 + 4 * i) else 0
  indirect := field b 60

def sfsSetDirty (k : Nat) (dirty : Bool) : SfsM Unit :=
  modify fun s =>
    { s with inodes := Function.update s.inodes k { (s.inodes k) with dirty } }

def sfsFsync (k : Nat) : SfsM Int := do
  let sin ← sfsInode k
  if sin.dirty then
    sfsSetDirty k false
    let ret ← sfsWbuf (diskInodeBytes sin.din) sizeofDiskInode k 0
    if ret ≠ 0 then
      sfsSetDirty k true
    return ret
  else return 0

/-- `none` is the panic. -/
def sfsGettype : SfsType → Option Nat
  | .dir => some S_IFDIR
  | .file => some S_IFREG
  | .link => some S_IFLNK
  | .inval => none

/-- `none` is the panic. -/
def sfsGetOps : SfsType → Option InodeOps
  | .dir => some .sfsNodeDirops
  | .file => some .sfsNodeFileops
  | _ => none

def vopFsync (node : Node) : VfsM Int := do
  match ← vopOp node .vopFsync with
  | .sfsNodeDirops | .sfsNodeFileops => do
      let k ← sfsInfo node
      onSfs (sfsFsync k)
  | .devNodeOps => stop (.nullOp .vopFsync)

def vopTruncate (node : Node) (len : Int) : VfsM Int := do
  match ← vopOp node .vopTruncate with
  | .sfsNodeFileops => do
      let k ← sfsInfo node
      onSfs (sfsTruncfile k len)
  | _ => stop (.nullOp .vopTruncate)

def vopGettype (node : Node) : VfsM (Int × Nat) := do
  match ← vopOp node .vopGettype with
  | .sfsNodeDirops | .sfsNodeFileops => do
      let k ← sfsInfo node
      let sin ← onSfs (sfsInode k)
      match sfsGettype sin.din.type with
      | none => stop .assertion
      | some type => return (0, type)
  | .devNodeOps => do
      let _ ← devInfo node
      return (0, S_IFCHR)

def sfsOpendir (openFlags : Nat) : Int :=
  if openFlags &&& O_ACCMODE ≠ O_RDONLY then -E_ISDIR
  else if hasFlag openFlags O_APPEND then -E_ISDIR
  else 0

/- The returned code, how far the buffer has been used, and the buffer. -/
def sfsIo (node : Node) (buf : DiskBlock) (offset : Int) (len : Nat) (write : Bool) :
    VfsM (Int × Nat × DiskBlock) := do
  let k ← sfsInfo node
  let (ret, alen, buf) ← onSfs (sfsIoNolock k buf offset len write)
  check .assertion (alen ≤ len)
  return (ret, alen, buf)

def sfsFstat (node : Node) : VfsM (Int × Stat) := do
  let (ret, mode) ← vopGettype node
  if ret ≠ 0 then return (ret, ⟨mode, 0, 0, 0⟩)
  else
    let k ← sfsInfo node
    let din := (← onSfs (sfsInode k)).din
    return (0, ⟨mode, din.nlinks, din.blocks, din.size⟩)

/-- `sfs_tryseek` on a node. -/
def sfsTryseekNode (node : Node) (pos : Int) : VfsM Int := do
  if pos < 0 ∨ pos ≥ SFS_MAX_FILE_SIZE then return -E_INVAL
  else
    let k ← sfsInfo node
    let sin ← onSfs (sfsInode k)
    if pos > sin.din.size then vopTruncate node pos
    else return 0

/- The blocks of a file without links. -/
def sfsFreeInode (k : Nat) : SfsM Unit := do
  let din := (← sfsInode k).din
  if din.nlinks = 0 then
    sfsBlockFree k
    if din.indirect ≠ 0 then
      sfsBlockFree din.indirect

/-- `vop_kill`. -/
def inodeKill (node : Node) : VfsM Unit := do
  let i ← inodeOf node
  check .assertion (i.refCount = 0)
  check .assertion (i.openCount = 0)
  setInode node none

/- What `sfs_reclaim` writes back before the inode goes; 0 when it may go. -/
def sfsReclaimFlush (node : Node) (k : Nat) : VfsM Int := do
  let nlinks := (← onSfs (sfsInode k)).din.nlinks
  let ret ← if nlinks = 0 then vopTruncate node 0 else pure 0
  if ret ≠ 0 then return ret
  else
    let dirty := (← onSfs (sfsInode k)).dirty
    if dirty then vopFsync node else return 0

def sfsReclaim (node : Node) : VfsM Int := do
  let k ← sfsInfo node
  let i ← inodeOf node
  check .assertion (i.reclaimCount > 0)
  setInode node (some { i with reclaimCount := i.reclaimCount - 1 })
  if i.reclaimCount - 1 ≠ 0 ∨ i.refCount ≠ 0 then return -E_BUSY
  else
    let ret ← sfsReclaimFlush node k
    if ret ≠ 0 then return ret
    else
      onSfs (sfsFreeInode k)
      inodeKill node
      return 0

def vopReclaim (node : Node) : VfsM Int := do
  match ← vopOp node .vopReclaim with
  | .sfsNodeDirops | .sfsNodeFileops => sfsReclaim node
  | .devNodeOps => stop (.nullOp .vopReclaim)

end Ucore
