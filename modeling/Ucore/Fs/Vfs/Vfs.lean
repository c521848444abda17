import Ucore.Fs.Sfs.SfsInode
import Ucore.Libs.Unistd

/- lab8/kern/fs: inodes in memory, open files, and the dispatch of inode operations
   (vfs/inode.h, vfs/inode.c). `disk0` is mounted, so that its own inode has no name. -/
namespace Ucore
open Programs

inductive Device where
  | stdin
  | stdout
  deriving DecidableEq, Repr

/-- An inode in memory: of a device, or of a file of the mounted volume by its number. -/
inductive Node where
  | dev (d : Device)
  | sfs (ino : Nat)
  deriving DecidableEq, Repr

/-- The members of `struct inode_ops`. -/
inductive Vop where
  | vopOpen | vopClose | vopRead | vopWrite | vopFstat | vopFsync | vopNamefile | vopGetdirentry
  | vopReclaim | vopGettype | vopTryseek | vopTruncate | vopCreate | vopLookup | vopIoctl
  deriving DecidableEq, Repr

/-- The tables of operations. -/
inductive InodeOps where
  | sfsNodeDirops
  | sfsNodeFileops
  | devNodeOps
  deriving DecidableEq, Repr

/-- The operations that are not NULL. -/
def InodeOps.ops : InodeOps → List Vop
  | .sfsNodeDirops =>
      [.vopOpen, .vopClose, .vopFstat, .vopFsync, .vopNamefile, .vopGetdirentry, .vopReclaim,
        .vopGettype, .vopLookup]
  | .sfsNodeFileops =>
      [.vopOpen, .vopClose, .vopRead, .vopWrite, .vopFstat, .vopFsync, .vopReclaim, .vopGettype,
        .vopTryseek, .vopTruncate]
  | .devNodeOps =>
      [.vopOpen, .vopClose, .vopRead, .vopWrite, .vopFstat, .vopIoctl, .vopGettype, .vopTryseek,
        .vopLookup]

/-- `struct inode`; `reclaimCount` is that of `struct sfs_inode`, whose other fields are in
`Sfs.inodes`. -/
structure Inode where
  refCount : Nat
  openCount : Nat
  inOps : InodeOps
  reclaimCount : Nat

inductive FdStatus where
  | none
  | init
  | opened
  | closed
  deriving DecidableEq, Repr

/-- `struct file`; its `fd` is its index. -/
structure File where
  status : FdStatus
  readable : Bool
  writable : Bool
  pos : Int
  node : Option Node
  openCount : Nat

def FILES_STRUCT_NENTRY : Nat := (4096 - 48) / 56

structure FilesStruct where
  pwd : Option Node
  fdArray : Nat → File
  filesCount : Nat

/- The file system as the kernel keeps it. `files` is by process, `procs` are the processes
   that have not exited, and `current` is the one at work. `memory` tells which of the
   allocations to come succeed, and `keyboard` what is typed before a waiting reader is woken
   for something else. -/
structure Vfs where
  sfs : Sfs
  inodes : Node → Option Inode
  bootfs : Option Node
  procs : Finset Nat
  files : Nat → FilesStruct
  current : Nat
  memory : Nat → Bool
  keyboard : List UInt8

/-- Why the kernel stops: a missing operation, another assertion or panic, the use of an inode
that is not in memory. -/
inductive VfsStop where
  | nullOp (op : Vop)
  | assertion
  | dangling
  | sfs (reason : SfsStop)
  deriving DecidableEq, Repr

abbrev VfsM (α : Type) := Prog VfsStop Vfs α

def onSfs {α : Type} (m : SfsM α) : VfsM α := fun v =>
  match m v.sfs with
  | .ok (a, sfs) => .ok (a, { v with sfs })
  | .error reason => .error (.sfs reason)

/-- Whether `kmalloc` finds memory. -/
def kmalloc : VfsM Bool := do
  let v ← get
  set { v with memory := fun i => v.memory (i + 1) }
  return v.memory 0

def inodeOf (node : Node) : VfsM Inode := do
  match (← get).inodes node with
  | none => stop .dangling
  | some i => return i

def setInode (node : Node) (i : Option Inode) : VfsM Unit :=
  modify fun v => { v with inodes := Function.update v.inodes node i }

def MAX_INODE_COUNT : Nat := 0x10000

/-- `__vop_op`, with `inode_check`. -/
def vopOp (node : Node) (op : Vop) : VfsM InodeOps := do
  let i ← inodeOf node
  check (.nullOp op) (op ∈ i.inOps.ops)
  check .assertion (i.openCount ≤ i.refCount)
  check .assertion (i.refCount < MAX_INODE_COUNT ∧ i.openCount < MAX_INODE_COUNT)
  return i.inOps

/-- `vop_info(node, sfs_inode)`. -/
def sfsInfo (node : Node) : VfsM Nat :=
  match node with
  | .sfs ino => return ino
  | .dev _ => stop .assertion

/-- `vop_info(node, device)`. -/
def devInfo (node : Node) : VfsM Device :=
  match node with
  | .dev d => return d
  | .sfs _ => stop .assertion

def inodeRefInc (node : Node) : VfsM Nat := do
  let i ← inodeOf node
  setInode node (some { i with refCount := i.refCount + 1 })
  return i.refCount + 1

def inodeOpenInc (node : Node) : VfsM Nat := do
  let i ← inodeOf node
  setInode node (some { i with openCount := i.openCount + 1 })
  return i.openCount + 1

end Ucore
