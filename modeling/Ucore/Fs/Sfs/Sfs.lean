import Ucore.Fs.Bitmap
import Ucore.Lib.Programs
import Ucore.Lib.Words

/- lab8/kern/fs/sfs/sfs.h and sfs_io.c: the in-memory file system and block-level I/O.
   `sfs_buffer` is written before every read of it and is left out; the semaphores are
   held around the whole of each function. -/
namespace Ucore
open Programs Words

def SFS_BLKSIZE : Nat := 4096
def SFS_NDIRECT : Nat := 12
def SFS_BLK_NENTRY : Nat := 1024
def SFS_MAX_FILE_SIZE : Nat := 134217728

/- An inode has entries for so many blocks; the kernel panics where it looks for another. -/
def maxBlocks : Nat := SFS_NDIRECT + SFS_BLK_NENTRY

def blocksFor (n : Nat) : Nat := (n + SFS_BLKSIZE - 1) / SFS_BLKSIZE

theorem blocks_for_mono {n m : Nat} (le : n ≤ m) : blocksFor n ≤ blocksFor m := Nat.div_le_div_right (by omega)

inductive SfsType where
  | inval
  | file
  | dir
  | link
  deriving DecidableEq, Repr

/-- `struct sfs_disk_inode`. -/
structure SfsDiskInode where
  size : Nat
  type : SfsType
  nlinks : Nat
  blocks : Nat
  direct : Nat → Nat
  indirect : Nat

structure SfsInode where
  din : SfsDiskInode
  dirty : Bool

/-- The content of a disk block, by offset. -/
abbrev DiskBlock := Nat → UInt8

/-- `struct sfs_fs` with its super block and its device, and the inodes in memory by
their number. -/
structure Sfs where
  blocks : Nat
  unusedBlocks : Nat
  superDirty : Bool
  freemap : Bitmap
  dBlocks : Nat
  disk : Nat → DiskBlock
  inodes : Nat → SfsInode

/-- Why the kernel stops. -/
inductive SfsStop where
  | assertion
  | blockOutOfRange
  | indexOutOfRange
  deriving DecidableEq, Repr

abbrev SfsM (α : Type) := Prog SfsStop Sfs α

/- `disk0_io` on one block at a byte offset: the block it reaches. -/
def disk0Block (s : Sfs) (offset : Nat) : Except Int Nat :=
  if offset % SFS_BLKSIZE ≠ 0 then .error (-E_INVAL)
  else if offset / SFS_BLKSIZE + 1 > s.dBlocks then .error (-E_INVAL)
  else .ok (offset / SFS_BLKSIZE)

/-- `sfs_rwblock_nolock` with `write` = 0 and `check` = 1. -/
def sfsReadBlock (blkno : Nat) : SfsM (Except Int DiskBlock) := do
  let s ← get
  check .assertion (blkno ≠ 0 ∧ blkno < s.blocks)
  match disk0Block s (u32 (blkno * SFS_BLKSIZE : Nat)) with
  | .error ret => return .error ret
  | .ok b => return .ok (s.disk b)

/-- `sfs_rwblock_nolock` with `write` = 1 and `check` = 1. -/
def sfsWriteBlock (blkno : Nat) (data : DiskBlock) : SfsM Int := do
  let s ← get
  check .assertion (blkno ≠ 0 ∧ blkno < s.blocks)
  match disk0Block s (u32 (blkno * SFS_BLKSIZE : Nat)) with
  | .error ret => return ret
  | .ok b =>
      set { s with disk := Function.update s.disk b data }
      return 0

/- The bytes of a block with `len` of them, from `offset` on, taken from `buf`. -/
def overlay (old : DiskBlock) (buf : DiskBlock) (len offset : Nat) : DiskBlock :=
  fun i => if offset ≤ i ∧ i < offset + len then buf (i - offset) else old i

def sfsRbuf (len blkno offset : Nat) : SfsM (Except Int DiskBlock) := do
  check .assertion (offset < SFS_BLKSIZE ∧ offset + len ≤ SFS_BLKSIZE)
  match ← sfsReadBlock blkno with
  | .error ret => return .error ret
  | .ok data => return .ok fun i => data (offset + i)

def sfsWbuf (buf : DiskBlock) (len blkno offset : Nat) : SfsM Int := do
  check .assertion (offset < SFS_BLKSIZE ∧ offset + len ≤ SFS_BLKSIZE)
  match ← sfsReadBlock blkno with
  | .error ret => return ret
  | .ok data => sfsWriteBlock blkno (overlay data buf len offset)

def sfsRblock (blkno : Nat) : SfsM (Except Int DiskBlock) := sfsReadBlock blkno

def sfsWblock (buf : DiskBlock) (blkno : Nat) : SfsM Int := sfsWriteBlock blkno buf

def sfsClearBlock (blkno : Nat) : SfsM Int := sfsWriteBlock blkno fun _ => 0

end Ucore
