import Ucore.Fs.Sfs.SfsDirent
import Ucore.Lib.Transitions

/- lab8/tools/mksfs.c. A cached inode and a cached block are named by their block number; `none` is an exit of the tool
   by `bug` or a failed assertion. -/
namespace Ucore.Mksfs
open Transitions Words

def SFS_MAGIC : Nat := 0x2f8dbe2a
def SFS_MAX_NBLKS : Nat := 524288
def SFS_BLKBITS : Nat := 32768
def SFS_BLKN_SUPER : Nat := 0
def SFS_BLKN_FREEMAP : Nat := 2
def HASH_LIST_SIZE : Nat := 1024
def SFS_L0_NBLKS : Nat := SFS_NDIRECT
def SFS_L1_NBLKS : Nat := SFS_BLK_NENTRY + SFS_L0_NBLKS
def SFS_L2_NBLKS : Nat := SFS_BLK_NENTRY * SFS_BLK_NENTRY + SFS_L1_NBLKS
def SFS_LN_NBLKS : Nat := SFS_MAX_FILE_SIZE / SFS_BLKSIZE

def hash32 (val : Nat) : Nat := val % wordSize * 0x9e370001 % wordSize / 4194304

/-- `struct inode`. -/
structure DiskInode where
  size : Nat
  type : SfsType
  nlinks : Nat
  blocks : Nat
  direct : Nat → Nat
  indirect : Nat
  dbIndirect : Nat

/-- `l1` and `l2` are cached blocks. -/
structure CacheInode where
  inode : DiskInode
  real : Nat
  nblks : Nat
  l1 : Option Nat
  l2 : Option Nat

/-- `inodes` and `blocks` are the hash lists; `inode` and `cache` are what the cached inodes and blocks hold. `entry` is
the static buffer of `add_entry`. -/
structure SfsFs where
  superBlocks : Nat
  unusedBlocks : Nat
  ninos : Nat
  nextIno : Nat
  inodes : Nat → List Nat
  blocks : Nat → List Nat
  inode : Nat → Option CacheInode
  cache : Nat → Nat → Nat
  entry : DiskBlock
  image : Nat → DiskBlock

def sfsAllocIno (s : SfsFs) : Option (Nat × SfsFs) :=
  if s.nextIno < s.ninos then
    some (s.nextIno, { s with unusedBlocks := s.unusedBlocks - 1, nextIno := s.nextIno + 1 })
  else none

/- The block goes to the list of the number that was asked for, which is 0 for a new one. -/
def allocCacheBlock (ino : Nat) (s : SfsFs) : Option (Nat × SfsFs) := do
  let (n, s) ← if ino ≠ 0 then some (ino, s) else sfsAllocIno s
  some (n, { s with
    cache := Function.update s.cache n fun _ => 0
    blocks := Function.update s.blocks (hash32 ino) (n :: s.blocks (hash32 ino)) })

def searchCacheBlock (ino : Nat) (s : SfsFs) : Option Nat := (s.blocks (hash32 ino)).find? (· = ino)

def allocCacheInode (real ino : Nat) (type : SfsType) (s : SfsFs) : Option (Nat × SfsFs) := do
  let (n, s) ← if ino ≠ 0 then some (ino, s) else sfsAllocIno s
  let ci : CacheInode := {
    inode := { size := 0, type, nlinks := 0, blocks := 0, direct := fun _ => 0, indirect := 0, dbIndirect := 0 }
    real, nblks := 0, l1 := none, l2 := none }
  some (n, { s with
    inode := Function.update s.inode n (some ci)
    inodes := Function.update s.inodes (hash32 real) (n :: s.inodes (hash32 real)) })

def searchCacheInode (real : Nat) (s : SfsFs) : Option Nat :=
  (s.inodes (hash32 real)).find? fun n => (s.inode n).map CacheInode.real = some real

/- `create_sfs` on an image file of `stSize` bytes. -/
def createSfs (stSize : Nat) (image : Nat → DiskBlock) : Option SfsFs :=
  let ninos := if u32 (stSize / SFS_BLKSIZE : Nat) > SFS_MAX_NBLKS then SFS_MAX_NBLKS
    else u32 (stSize / SFS_BLKSIZE : Nat)
  let nextIno := SFS_BLKN_FREEMAP + (ninos + SFS_BLKBITS - 1) / SFS_BLKBITS
  if nextIno ≥ ninos then none
  else
    (allocCacheInode 0 SFS_BLKN_ROOT .dir {
      superBlocks := ninos, unusedBlocks := ninos - nextIno, ninos, nextIno
      inodes := fun _ => [], blocks := fun _ => [], inode := fun _ => none, cache := fun _ _ => 0
      entry := fun _ => 0, image }).map Prod.snd

def writeBlock (data : DiskBlock) (len ino : Nat) (s : SfsFs) : Option SfsFs :=
  if len ≤ SFS_BLKSIZE ∧ ino < s.ninos then
    some { s with image := Function.update s.image ino fun i => if i < len then data i else 0 }
  else none

/- The cached block and the number after the call. -/
def updateCache (cb : Option Nat) (ino : Nat) (s : SfsFs) : Option (Nat × SfsFs) :=
  if ino = 0 then allocCacheBlock 0 s
  else if cb ≠ some ino then
    match searchCacheBlock ino s with
    | some cb => if cb = ino then some (ino, s) else none
    | none => none
  else some (ino, s)

def setEntry (cb i ino : Nat) (s : SfsFs) : SfsFs :=
  { s with cache := Function.update s.cache cb (Function.update (s.cache cb) i ino) }

def setInode (f : Nat) (ci : CacheInode) (s : SfsFs) : SfsFs :=
  { s with inode := Function.update s.inode f (some ci) }

/- Where the number of the block is kept, before the counts. -/
def appendPointer (file : CacheInode) (ino : Nat) (s : SfsFs) : Option (CacheInode × SfsFs) :=
  if file.nblks < SFS_L0_NBLKS then
    some ({ file with inode := { file.inode with direct := Function.update file.inode.direct file.nblks ino } }, s)
  else if file.nblks < SFS_L1_NBLKS then do
    let (l1, s) ← updateCache file.l1 file.inode.indirect s
    some ({ file with l1 := some l1, inode := { file.inode with indirect := l1 } },
      setEntry l1 (file.nblks - SFS_L0_NBLKS) ino s)
  else if file.nblks < SFS_L2_NBLKS then do
    let nblks := file.nblks - SFS_L1_NBLKS
    let (l2, s) ← updateCache file.l2 file.inode.dbIndirect s
    let (l1, s) ← updateCache file.l1 (s.cache l2 (nblks / SFS_BLK_NENTRY)) s
    let s := setEntry l2 (nblks / SFS_BLK_NENTRY) l1 s
    some ({ file with l1 := some l1, l2 := some l2, inode := { file.inode with dbIndirect := l2 } },
      setEntry l1 (nblks % SFS_BLK_NENTRY) ino s)
  else some (file, s)

def appendBlock (f size ino : Nat) (s : SfsFs) : Option SfsFs := do
  let file ← s.inode f
  if SFS_BLKSIZE < size ∨ SFS_LN_NBLKS ≤ file.nblks then none
  else
    let (file, s) ← appendPointer file ino s
    some (setInode f { file with
      nblks := file.nblks + 1
      inode := { file.inode with size := u32 (file.inode.size + size), blocks := u32 (file.inode.blocks + 1) } } s)

/- `strcpy` of the name behind the number. -/
def entryBytes (old : DiskBlock) (ino : Nat) (name : Name) : DiskBlock := fun i =>
  if i < 4 then u32Bytes ino i
  else if i - 4 < name.length then name.getD (i - 4) 0
  else if i - 4 = name.length then 0
  else old i

/-- `sizeof(entry->name)`, which is less than the size of an entry. -/
def sizeofName : Nat := 256

def addEntry (current file : Nat) (name : Name) (s : SfsFs) : Option SfsFs := do
  let dir ← s.inode current
  if dir.inode.type ≠ .dir ∨ SFS_MAX_FNAME_LEN < name.length then none
  else
    let s := { s with entry := entryBytes s.entry file name }
    let (ino, s) ← sfsAllocIno s
    let s ← writeBlock s.entry sizeofName ino s
    let s ← appendBlock current sizeofName ino s
    let ci ← s.inode file
    some (setInode file { ci with inode := { ci.inode with nlinks := (ci.inode.nlinks + 1) % 65536 } } s)

/- What one `read` delivers. -/
def chunkBytes (chunk : List UInt8) : DiskBlock := fun i => chunk.getD i 0

/- The `read`s of a file, a block each. -/
def chunks (content : List UInt8) : List (List UInt8) :=
  (List.range ((content.length + SFS_BLKSIZE - 1) / SFS_BLKSIZE)).map fun i =>
    (content.drop (SFS_BLKSIZE * i)).take SFS_BLKSIZE

/- The loop of `open_file`. -/
def openFileLoop (f : Nat) : Nat → List (List UInt8) → SfsFs → Option SfsFs
  | _, [], s => some s
  | last, chunk :: rest, s =>
      if last ≠ SFS_BLKSIZE then none
      else do
        let (ino, s) ← sfsAllocIno s
        let s ← writeBlock (chunkBytes chunk) chunk.length ino s
        let s ← appendBlock f chunk.length ino s
        openFileLoop f chunk.length rest s

def openFile (f : Nat) (content : List UInt8) (s : SfsFs) : Option SfsFs :=
  openFileLoop f SFS_BLKSIZE (chunks content) s

/- `readlink` of a target that fits a block. -/
def openLink (f : Nat) (target : List UInt8) (s : SfsFs) : Option SfsFs := do
  let (ino, s) ← sfsAllocIno s
  if SFS_BLKSIZE ≤ target.length then none
  else
    let s ← writeBlock (chunkBytes target) target.length ino s
    appendBlock f target.length ino s

/- The inode of `add_file`, which is there already for another link to the same file. -/
def fileInode (real : Nat) (content : List UInt8) (s : SfsFs) : Option (Nat × SfsFs) :=
  match searchCacheInode real s with
  | some f => some (f, s)
  | none => do
      let (f, s) ← allocCacheInode real 0 .file s
      let s ← openFile f content s
      some (f, s)

def addFile (current : Nat) (name : Name) (real : Nat) (content : List UInt8) (s : SfsFs) : Option SfsFs := do
  let (f, s) ← fileInode real content s
  addEntry current f name s

def addLink (current : Nat) (name : Name) (real : Nat) (target : List UInt8) (s : SfsFs) : Option SfsFs := do
  let (f, s) ← allocCacheInode real 0 .link s
  let s ← openLink f target s
  addEntry current f name s

/-- The steps of the walk over the directories: `add_dir` makes an inode, its directory is walked, and then it is
entered into its parent. -/
inductive MkEvent where
  | newDir (real : Nat)
  | entry (current file : Nat) (name : Name)
  | file (current : Nat) (name : Name) (real : Nat) (content : List UInt8)
  | link (current : Nat) (name : Name) (real : Nat) (target : List UInt8)

def SfsFs.call (s : SfsFs) : MkEvent → Option SfsFs
  | .newDir real =>
      if (searchCacheInode real s).isSome then none else (allocCacheInode real 0 .dir s).map Prod.snd
  | .entry current file name => addEntry current file name s
  | .file current name real content => addFile current name real content s
  | .link current name real target => addLink current name real target s

def MkStep (s : SfsFs) (e : MkEvent) (t : SfsFs) : Prop := s.call e = some t

/- The words of the freemap with the bits from `start` to `stop` set. -/
def freemapWords (start stop : Nat) : Nat → BitVec 32 :=
  (List.range' start (stop - start)).foldl
    (fun data j => Function.update data (j / 32) (data (j / 32) ||| wordMask (j % 32))) fun _ => 0

def wordsBytes (words : Nat → Nat) : DiskBlock := fun i => u32Bytes (words (i / 4)) (i % 4)

/- One block of the freemap in `close_sfs`, that of the bits from `i` on. -/
def freemapBlock (ninos nextIno i : Nat) : DiskBlock :=
  if i + SFS_BLKBITS > nextIno then
    wordsBytes fun w => (freemapWords (if i < nextIno then nextIno - i else 0)
      (if i + SFS_BLKBITS > ninos then ninos - i else SFS_BLKBITS) w).toNat
  else fun _ => 0

/- The loop over the freemap: `count` blocks from the `b`-th on. -/
def writeFreemap : Nat → Nat → SfsFs → Option SfsFs
  | 0, _, s => some s
  | count + 1, b, s => do
      let s ← writeBlock (freemapBlock s.ninos s.nextIno (b * SFS_BLKBITS)) SFS_BLKSIZE (SFS_BLKN_FREEMAP + b) s
      writeFreemap count (b + 1) s

/-- `struct sfs_super` without the information text. -/
def superBytes (s : SfsFs) : DiskBlock := fun i =>
  if i < 4 then u32Bytes SFS_MAGIC i
  else if i < 8 then u32Bytes s.superBlocks (i - 4)
  else if i < 12 then u32Bytes s.unusedBlocks (i - 8)
  else 0

def sizeofSuper : Nat := 44

/-- `struct inode` as it lies in memory. -/
def inodeBytes (inode : DiskInode) : DiskBlock := fun i =>
  if i < 4 then u32Bytes inode.size i
  else if i < 8 then u32Bytes (inode.type.code + 65536 * inode.nlinks) (i - 4)
  else if i < 12 then u32Bytes inode.blocks (i - 8)
  else if i < 60 then u32Bytes (inode.direct ((i - 12) / 4)) ((i - 12) % 4)
  else if i < 64 then u32Bytes inode.indirect (i - 60)
  else u32Bytes inode.dbIndirect (i - 64)

def sizeofInode : Nat := 68

def flushCacheBlock (cb : Nat) (s : SfsFs) : Option SfsFs := writeBlock (wordsBytes (s.cache cb)) SFS_BLKSIZE cb s

def flushCacheInode (f : Nat) (s : SfsFs) : Option SfsFs := do
  let ci ← s.inode f
  writeBlock (inodeBytes ci.inode) sizeofInode f s

/- The hash lists from the `i`-th on, `count` of them. -/
def flushLists : Nat → Nat → SfsFs → Option SfsFs
  | 0, _, s => some s
  | count + 1, i, s => do
      let s ← (s.blocks i).foldlM (fun s cb => flushCacheBlock cb s) s
      let s ← (s.inodes i).foldlM (fun s f => flushCacheInode f s) s
      flushLists count (i + 1) s

def closeSfs (s : SfsFs) : Option SfsFs := do
  let s ← writeFreemap ((s.ninos + SFS_BLKBITS - 1) / SFS_BLKBITS) 0 s
  let s ← writeBlock (superBytes s) sizeofSuper SFS_BLKN_SUPER s
  flushLists HASH_LIST_SIZE 0 s

end Ucore.Mksfs
