import Ucore.Fs.Devs.Dev
import Ucore.Fs.Sfs.SfsVnode

/- lab8/kern/fs/vfs/inode.c, and the dispatch of the operations on open files. -/
namespace Ucore
open Programs

def vopOpen (node : Node) (openFlags : Nat) : VfsM Int := do
  match ← vopOp node .vopOpen with
  | .sfsNodeDirops => return sfsOpendir openFlags
  | .sfsNodeFileops => return 0
  | .devNodeOps => devOpen node openFlags

def vopClose (node : Node) : VfsM Int := do
  match ← vopOp node .vopClose with
  | .sfsNodeDirops | .sfsNodeFileops => vopFsync node
  | .devNodeOps => do
      let _ ← devInfo node
      return 0

/- `vop_read` and `vop_write`. -/
def vopIo (node : Node) (buf : DiskBlock) (offset : Int) (len : Nat) (write : Bool) :
    VfsM (Int × Nat × DiskBlock) := do
  match ← vopOp node (if write then .vopWrite else .vopRead) with
  | .sfsNodeFileops => sfsIo node buf offset len write
  | .devNodeOps => devIo node buf len write
  | .sfsNodeDirops => stop (.nullOp (if write then .vopWrite else .vopRead))

def vopFstat (node : Node) : VfsM (Int × Stat) := do
  match ← vopOp node .vopFstat with
  | .sfsNodeDirops | .sfsNodeFileops => sfsFstat node
  | .devNodeOps => do
      let (ret, mode) ← vopGettype node
      if ret ≠ 0 then return (ret, ⟨mode, 0, 0, 0⟩)
      else
        let _ ← devInfo node
        return (0, devFstat mode)

def vopTryseek (node : Node) (pos : Int) : VfsM Int := do
  match ← vopOp node .vopTryseek with
  | .sfsNodeFileops => sfsTryseekNode node pos
  | .devNodeOps => do
      let _ ← devInfo node
      return devTryseek
  | .sfsNodeDirops => stop (.nullOp .vopTryseek)

/- No table has `vop_create`. -/
def vopCreate (node : Node) : VfsM (Except Int Node) := do
  let _ ← vopOp node .vopCreate
  stop (.nullOp .vopCreate)

def inodeRefDec (node : Node) : VfsM Nat := do
  let i ← inodeOf node
  check .assertion (i.refCount > 0)
  setInode node (some { i with refCount := i.refCount - 1 })
  if i.refCount - 1 = 0 then
    let _ ← vopReclaim node
  return i.refCount - 1

def inodeOpenDec (node : Node) : VfsM Nat := do
  let i ← inodeOf node
  check .assertion (i.openCount > 0)
  setInode node (some { i with openCount := i.openCount - 1 })
  if i.openCount - 1 = 0 then
    let _ ← vopClose node
  return i.openCount - 1

end Ucore
