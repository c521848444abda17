import Ucore.Fs.Sfs.Sfs

/- lab8/kern/fs/sfs/sfs_inode.c: the block map of a file, and reading, writing and
   resizing it. `k` is the number of the inode at work. -/
namespace Ucore
open Programs Words

/- A `uint32_t` as it lies in memory. -/
def u32Bytes (v : Nat) : DiskBlock := fun i => UInt8.ofNat (v / 256 ^ i)

def bytesU32 (b : DiskBlock) : Nat :=
  (b 0).toNat + 256 * (b 1).toNat + 65536 * (b 2).toNat + 16777216 * (b 3).toNat

def sfsInode (k : Nat) : SfsM SfsInode := return (← get).inodes k

def sfsSetDin (k : Nat) (f : SfsDiskInode → SfsDiskInode) (dirty : Bool) : SfsM Unit :=
  modify fun s =>
    let sin := s.inodes k
    { s with inodes := Function.update s.inodes k { din := f sin.din, dirty := dirty || sin.dirty } }

def sfsBlockInuse (ino : Nat) : SfsM Bool := do
  let s ← get
  check .blockOutOfRange (ino ≠ 0 ∧ ino < s.blocks)
  match bitmapTest s.freemap ino with
  | none => stop .assertion
  | some free => return !free

def sfsAssertInuse (ino : Nat) : SfsM Unit := do
  let inuse ← sfsBlockInuse ino
  check .assertion (inuse = true)

def sfsBlockAlloc : SfsM (Except Int Nat) := do
  let s ← get
  match bitmapAlloc s.freemap with
  | none => stop .assertion
  | some (.error ret) => return .error ret
  | some (.ok (ino, freemap)) =>
      check .assertion (s.unusedBlocks > 0)
      set { s with freemap, unusedBlocks := s.unusedBlocks - 1, superDirty := true }
      sfsAssertInuse ino
      let ret ← sfsClearBlock ino
      if ret ≠ 0 then return .error ret else return .ok ino

def sfsBlockFree (ino : Nat) : SfsM Unit := do
  sfsAssertInuse ino
  let s ← get
  match bitmapFree s.freemap ino with
  | none => stop .assertion
  | some freemap =>
      set { s with freemap, unusedBlocks := u32 (s.unusedBlocks + 1), superDirty := true }

/- `failed_cleanup` of `sfs_bmap_get_sub_nolock`: an entry block that was allocated for
   this entry is given back. -/
def sfsGiveBack (ent entp : Nat) (ret : Int) : SfsM (Except Int (Nat × Nat)) := do
  if ent ≠ entp then
    sfsBlockFree ent
  return .error ret

/- The entry block of the map: `entp` itself, or a new one. -/
def sfsEntryBlock (entp : Nat) : SfsM (Except Int Nat) :=
  if entp ≠ 0 then return .ok entp else sfsBlockAlloc

/- The value of `*entp` and `ino`. -/
def sfsBmapGetSubNolock (entp index : Nat) (create : Bool) : SfsM (Except Int (Nat × Nat)) := do
  check .assertion (index < SFS_BLK_NENTRY)
  let offset := index * 4
  let old : Except Int Nat ←
    if entp ≠ 0 then
      match ← sfsRbuf 4 entp offset with
      | .error ret => pure (.error ret)
      | .ok bytes => pure (.ok (bytesU32 bytes))
    else pure (.ok 0)
  match old with
  | .error ret => return .error ret
  | .ok ino =>
      if ino ≠ 0 ∨ !create then return .ok (entp, ino)
      else
        match ← sfsEntryBlock entp with
        | .error ret => return .error ret
        | .ok ent =>
            match ← sfsBlockAlloc with
            | .error ret => sfsGiveBack ent entp ret
            | .ok ino =>
                let ret ← sfsWbuf (u32Bytes ino) 4 ent offset
                if ret ≠ 0 then
                  sfsBlockFree ino
                  sfsGiveBack ent entp ret
                else return .ok (ent, ino)

def sfsBmapGetNolock (k index : Nat) (create : Bool) : SfsM (Except Int Nat) := do
  let din := (← sfsInode k).din
  let got : Except Int Nat ←
    if index < SFS_NDIRECT then
      if din.direct index = 0 ∧ create then
        match ← sfsBlockAlloc with
        | .error ret => pure (.error ret)
        | .ok ino =>
            sfsSetDin k (fun din => { din with direct := Function.update din.direct index ino }) true
            pure (.ok ino)
      else pure (.ok (din.direct index))
    else if index - SFS_NDIRECT < SFS_BLK_NENTRY then
      match ← sfsBmapGetSubNolock din.indirect (index - SFS_NDIRECT) create with
      | .error ret => pure (.error ret)
      | .ok (ent, ino) =>
          if ent ≠ din.indirect then
            check .assertion (din.indirect = 0)
            sfsSetDin k (fun din => { din with indirect := ent }) true
          pure (.ok ino)
    else stop .indexOutOfRange
  match got with
  | .error ret => return .error ret
  | .ok ino =>
      if ino ≠ 0 then
        sfsAssertInuse ino
      return .ok ino

def sfsBmapLoadNolock (k index : Nat) : SfsM (Except Int Nat) := do
  let din := (← sfsInode k).din
  check .assertion (index ≤ din.blocks)
  let create : Bool := index = din.blocks
  match ← sfsBmapGetNolock k index create with
  | .error ret => return .error ret
  | .ok ino =>
      sfsAssertInuse ino
      if create then
        sfsSetDin k (fun din => { din with blocks := u32 (din.blocks + 1) }) false
      return .ok ino

def sfsBmapFreeSubNolock (ent index : Nat) : SfsM Int := do
  sfsAssertInuse ent
  check .assertion (index < SFS_BLK_NENTRY)
  match ← sfsRbuf 4 ent (index * 4) with
  | .error ret => return ret
  | .ok bytes =>
      if bytesU32 bytes ≠ 0 then
        let ret ← sfsWbuf (u32Bytes 0) 4 ent (index * 4)
        if ret ≠ 0 then return ret
        sfsBlockFree (bytesU32 bytes)
      return 0

def sfsBmapFreeNolock (k index : Nat) : SfsM Int := do
  let din := (← sfsInode k).din
  if index < SFS_NDIRECT then
    if din.direct index ≠ 0 then
      sfsBlockFree (din.direct index)
      sfsSetDin k (fun din => { din with direct := Function.update din.direct index 0 }) true
    return 0
  else if index - SFS_NDIRECT < SFS_BLK_NENTRY then
    if din.indirect ≠ 0 then sfsBmapFreeSubNolock din.indirect (index - SFS_NDIRECT)
    else return 0
  else return 0

def sfsBmapTruncateNolock (k : Nat) : SfsM Int := do
  let din := (← sfsInode k).din
  check .assertion (din.blocks ≠ 0)
  let ret ← sfsBmapFreeNolock k (din.blocks - 1)
  if ret ≠ 0 then return ret
  sfsSetDin k (fun din => { din with blocks := din.blocks - 1 }) true
  return 0

/-- `sfs_buf_op`: `size` bytes between the block and `buf` from `pos` on. -/
def sfsBufOp (write : Bool) (buf : DiskBlock) (pos size ino blkoff : Nat) :
    SfsM (Int × DiskBlock) := do
  if write then
    let ret ← sfsWbuf (fun i => buf (pos + i)) size ino blkoff
    return (ret, buf)
  else
    match ← sfsRbuf size ino blkoff with
    | .error ret => return (ret, buf)
    | .ok bytes => return (0, overlay buf bytes size pos)

/-- `sfs_block_op`. -/
def sfsBlockOp (write : Bool) (buf : DiskBlock) (pos ino : Nat) : SfsM (Int × DiskBlock) := do
  if write then
    let ret ← sfsWblock (fun i => buf (pos + i)) ino
    return (ret, buf)
  else
    match ← sfsRblock ino with
    | .error ret => return (ret, buf)
    | .ok bytes => return (0, overlay buf bytes SFS_BLKSIZE pos)

/- One transfer: find the block, then do the operation on it. -/
def sfsTransfer (k blkno : Nat) (buf : DiskBlock) (op : Nat → SfsM (Int × DiskBlock)) :
    SfsM (Int × DiskBlock) := do
  match ← sfsBmapLoadNolock k blkno with
  | .error ret => return (ret, buf)
  | .ok ino => op ino

/- The whole blocks and the tail; `alen` bytes are done, which is also how far `buf` has
   advanced. -/
def sfsIoBlocks (k : Nat) (write : Bool) (endpos : Nat) : Nat → Nat → Nat → DiskBlock →
    SfsM (Int × Nat × DiskBlock)
  | 0, blkno, alen, buf =>
      if endpos % SFS_BLKSIZE ≠ 0 then do
        let (ret, buf) ← sfsTransfer k blkno buf fun ino =>
          sfsBufOp write buf alen (endpos % SFS_BLKSIZE) ino 0
        if ret ≠ 0 then return (ret, alen, buf)
        return (0, alen + endpos % SFS_BLKSIZE, buf)
      else return (0, alen, buf)
  | nblks + 1, blkno, alen, buf => do
      let (ret, buf) ← sfsTransfer k blkno buf fun ino => sfsBlockOp write buf alen ino
      if ret ≠ 0 then return (ret, alen, buf)
      sfsIoBlocks k write endpos nblks (blkno + 1) (alen + SFS_BLKSIZE) buf

/- The three phases of `sfs_io_nolock`. -/
def sfsIoRange (k : Nat) (buf : DiskBlock) (offset endpos : Nat) (write : Bool) :
    SfsM (Int × Nat × DiskBlock) := do
  let blkno := offset / SFS_BLKSIZE
  let nblks := endpos / SFS_BLKSIZE - blkno
  let blkoff := offset % SFS_BLKSIZE
  if blkoff ≠ 0 then
    let size := if nblks ≠ 0 then SFS_BLKSIZE - blkoff else endpos - offset
    let (ret, buf) ← sfsTransfer k blkno buf fun ino => sfsBufOp write buf 0 size ino blkoff
    if ret ≠ 0 then return (ret, 0, buf)
    if nblks = 0 then return (0, size, buf)
    sfsIoBlocks k write endpos (nblks - 1) (blkno + 1) size buf
  else sfsIoBlocks k write endpos nblks blkno 0 buf

/-- `off_t` arithmetic. -/
def i64 (x : Int) : Int := (x + 9223372036854775808) % 18446744073709551616 - 9223372036854775808

/- The returned code, `*alenp`, and the buffer. -/
def sfsIoNolock (k : Nat) (buf : DiskBlock) (offset : Int) (len : Nat) (write : Bool) :
    SfsM (Int × Nat × DiskBlock) := do
  let din := (← sfsInode k).din
  check .assertion (din.type ≠ .dir)
  let endpos := i64 (offset + len)
  if offset < 0 ∨ offset ≥ SFS_MAX_FILE_SIZE ∨ offset > endpos then return (-E_INVAL, 0, buf)
  else if offset = endpos then return (0, 0, buf)
  else
    let endpos := if endpos > SFS_MAX_FILE_SIZE then (SFS_MAX_FILE_SIZE : Int) else endpos
    if !write ∧ offset ≥ din.size then return (0, 0, buf)
    else
      let endpos := if !write ∧ endpos > din.size then (din.size : Int) else endpos
      let (ret, alen, buf) ← sfsIoRange k buf offset.toNat endpos.toNat write
      if offset.toNat + alen > (← sfsInode k).din.size then
        sfsSetDin k (fun din => { din with size := u32 (offset.toNat + alen : Nat) }) true
      return (ret, alen, buf)

/- The growing loop of `sfs_truncfile`, `k` blocks from `nblks` on. -/
def sfsEnlarge (k : Nat) : Nat → Nat → SfsM Int
  | 0, _ => return 0
  | count + 1, nblks => do
      match ← sfsBmapLoadNolock k nblks with
      | .error ret => return ret
      | .ok _ => sfsEnlarge k count (nblks + 1)

/- The shrinking loop of `sfs_truncfile`. -/
def sfsReduce (k : Nat) : Nat → SfsM Int
  | 0 => return 0
  | count + 1 => do
      let ret ← sfsBmapTruncateNolock k
      if ret ≠ 0 then return ret
      sfsReduce k count

def sfsTruncfile (k : Nat) (len : Int) : SfsM Int := do
  if len < 0 ∨ len > SFS_MAX_FILE_SIZE then return -E_INVAL
  else
    let din := (← sfsInode k).din
    let tblks := (len.toNat + SFS_BLKSIZE - 1) / SFS_BLKSIZE
    if din.size = len.toNat then
      check .assertion (tblks = din.blocks)
      return 0
    else
      let ret ←
        if din.blocks < tblks then sfsEnlarge k (tblks - din.blocks) din.blocks
        else sfsReduce k (din.blocks - tblks)
      if ret ≠ 0 then return ret
      check .assertion ((← sfsInode k).din.blocks = tblks)
      sfsSetDin k (fun din => { din with size := len.toNat }) true
      return 0

def sfsTryseek (k : Nat) (pos : Int) : SfsM Int := do
  if pos < 0 ∨ pos ≥ SFS_MAX_FILE_SIZE then return -E_INVAL
  else if pos > (← sfsInode k).din.size then sfsTruncfile k pos
  else return 0

end Ucore
