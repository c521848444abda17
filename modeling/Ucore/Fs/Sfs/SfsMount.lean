import Ucore.Fs.Sfs.FileCache

/- lab8/kern/fs/sfs/sfs_fs.c: mounting a volume, with `bitmap_create`, and `sfs_cleanup`. `kmalloc n` says whether the
   `n`-th request for memory is met. -/
namespace Ucore
open Programs Words Transitions

def SFS_MAGIC : Nat := 0x2f8dbe2a
def SFS_BLKN_SUPER : Nat := 0
def SFS_BLKN_FREEMAP : Nat := 2
def SFS_BLKBITS : Nat := 32768

def sfsFreemapBits (blocks : Nat) : Nat := u32 ((blocks + SFS_BLKBITS - 1) / SFS_BLKBITS * SFS_BLKBITS : Nat)

def sfsFreemapBlocks (blocks : Nat) : Nat := u32 ((blocks + SFS_BLKBITS - 1) / SFS_BLKBITS : Nat)

/- The outer `none` is a failed assertion, the inner one a lack of memory. -/
def bitmapCreate (nbits : Nat) (kmalloc : Nat → Bool) : Option (Option Bitmap) :=
  let nwords := (nbits + 31) / 32
  let ix := nwords - 1
  let overbits := nbits - ix * 32
  if nbits = 0 then none
  else if !kmalloc 0 ∨ !kmalloc 1 then some none
  else if nbits = nwords * 32 then some (some { nbits, nwords, map := fun _ => BitVec.allOnes 32 })
  else if nbits / 32 ≠ ix ∨ overbits = 0 ∨ 32 ≤ overbits then none
  else some (some {
    nbits, nwords
    map := Function.update (fun _ => BitVec.allOnes 32) ix
      ((List.range' overbits (32 - overbits)).foldl (fun word offset => word ^^^ wordMask offset) (BitVec.allOnes 32)) })

def sfsInitRead (s : Sfs) (blkno : Nat) : Except Int DiskBlock :=
  match disk0Block s (u32 (blkno * SFS_BLKSIZE : Nat)) with
  | .error ret => .error ret
  | .ok b => .ok (s.disk b)

/- The words of a bitmap with a block read over those from `offset` on. -/
def loadWords (map : Nat → BitVec 32) (data : DiskBlock) (offset : Nat) : Nat → BitVec 32 := fun w =>
  if offset ≤ w ∧ w < offset + SFS_BLK_NENTRY then BitVec.ofNat 32 (field data ((w - offset) * 4)) else map w

/- The loop of `sfs_init_freemap`. -/
def sfsReadFreemap (s : Sfs) : Nat → Nat → Nat → Bitmap → Except Int Bitmap
  | 0, _, _, freemap => .ok freemap
  | nblks + 1, blkno, offset, freemap =>
      match sfsInitRead s blkno with
      | .error ret => .error ret
      | .ok data =>
          sfsReadFreemap s nblks (blkno + 1) (offset + SFS_BLK_NENTRY)
            { freemap with map := loadWords freemap.map data offset }

def sfsInitFreemap (s : Sfs) (freemap : Bitmap) (blkno nblks : Nat) : Option (Except Int Bitmap) :=
  if freemap.nwords * 4 = u32 (nblks * SFS_BLKSIZE : Nat) then some (sfsReadFreemap s nblks blkno 0 freemap) else none

/- The free bits among the first ones. -/
def countUnused (freemap : Bitmap) : Nat → Option Nat
  | 0 => some 0
  | i + 1 => do
      let unused ← countUnused freemap i
      let set ← bitmapTest freemap i
      some (if set then unused + 1 else unused)

/- `fresh` is what `alloc_fs` makes, with the device. -/
def sfsDoMount (kmalloc : Nat → Bool) (dBlocksize : Nat) (fresh : Sfs) : Option (Except Int Sfs) :=
  if dBlocksize ≠ SFS_BLKSIZE then some (.error (-E_NA_DEV))
  else if !kmalloc 0 ∨ !kmalloc 1 then some (.error (-E_NO_MEM))
  else
    match sfsInitRead fresh SFS_BLKN_SUPER with
    | .error ret => some (.error ret)
    | .ok super =>
        let blocks := field super 4
        if field super 0 ≠ SFS_MAGIC ∨ fresh.dBlocks < blocks then some (.error (-E_INVAL))
        else if !kmalloc 2 then some (.error (-E_NO_MEM))
        else
          match bitmapCreate (sfsFreemapBits blocks) fun n => kmalloc (3 + n) with
          | none => none
          | some none => some (.error (-E_NO_MEM))
          | some (some freemap) =>
              match sfsInitFreemap fresh freemap SFS_BLKN_FREEMAP (sfsFreemapBlocks blocks) with
              | none => none
              | some (.error ret) => some (.error ret)
              | some (.ok freemap) => do
                  let unusedBlocks ← countUnused freemap (sfsFreemapBits blocks)
                  if unusedBlocks = field super 8 then
                    some (.ok { fresh with blocks, unusedBlocks, superDirty := false, freemap })
                  else none

section
variable {s : Sfs} {blocks next nblks blkno b n : Nat} {freemap : Bitmap}

theorem init_read_run (inside : b < s.dBlocks) (low : b < 1048576) : sfsInitRead s b = .ok (s.disk b) := by
  have offset : u32 (b * SFS_BLKSIZE : Nat) = b * SFS_BLKSIZE := by
    apply u32_of_nat
    unfold SFS_BLKSIZE wordSize
    omega
  have aligned : b * SFS_BLKSIZE % SFS_BLKSIZE = 0 := Nat.mul_mod_left b SFS_BLKSIZE
  have back : b * SFS_BLKSIZE / SFS_BLKSIZE = b := Nat.mul_div_cancel b (by decide)
  unfold sfsInitRead disk0Block
  rw [offset, back, if_neg (by omega), if_neg (by omega)]

/- The blocks are read one behind the other. -/
theorem read_freemap_run (nblks blkno offset : Nat) (freemap : Bitmap) (inside : blkno + nblks ≤ s.dBlocks)
    (low : blkno + nblks ≤ 1048576) :
    ∃ map, sfsReadFreemap s nblks blkno offset freemap = .ok { freemap with map } ∧
      (∀ i < nblks, ∀ w < SFS_BLK_NENTRY,
        map (offset + i * SFS_BLK_NENTRY + w) = BitVec.ofNat 32 (field (s.disk (blkno + i)) (w * 4))) ∧
      ∀ w < offset, map w = freemap.map w := by
  induction nblks generalizing blkno offset freemap with
  | zero => exact ⟨freemap.map, rfl, fun i below => absurd below (Nat.not_lt_zero i), fun _ _ => rfl⟩
  | succ nblks ih =>
    obtain ⟨map, run, later, before⟩ := ih (blkno + 1) (offset + SFS_BLK_NENTRY)
      { freemap with map := loadWords freemap.map (s.disk blkno) offset } (by omega) (by omega)
    refine ⟨map, ?_, fun i below w small => ?_, fun w small => ?_⟩
    · unfold sfsReadFreemap
      rw [init_read_run (by omega) (by omega)]
      exact run
    · cases i with
      | zero =>
        rw [Nat.zero_mul, Nat.add_zero, Nat.add_zero, before _ (by omega)]
        change loadWords freemap.map (s.disk blkno) offset (offset + w) = _
        unfold loadWords
        rw [if_pos (by omega), Nat.add_sub_cancel_left]
      | succ i =>
        have here := later i (by omega) w small
        rw [show blkno + 1 + i = blkno + (i + 1) by omega] at here
        rw [← here, Nat.add_mul, Nat.one_mul]
        congr 1
        omega
    · rw [before w (by omega)]
      change loadWords freemap.map (s.disk blkno) offset w = _
      unfold loadWords
      rw [if_neg (by omega)]

theorem count_unused_run (inside : n ≤ freemap.nbits) :
    countUnused freemap n = some ((List.range n).filter freemap.bit).length := by
  induction n with
  | zero => rfl
  | succ n ih =>
    unfold countUnused
    rw [ih (by omega), bitmap_test_bit (by omega)]
    change some (if freemap.bit n = true then _ else _) = _
    rw [List.range_succ, List.filter_append, List.length_append]
    cases bit : freemap.bit n with
    | false => simp [bit]
    | true => simp [bit]

theorem count_between (next blocks n : Nat) :
    ((List.range n).filter fun i => decide (next ≤ i ∧ i < blocks)).length = min n blocks - min n next := by
  induction n with
  | zero => simp
  | succ n ih =>
    rw [List.range_succ, List.filter_append, List.length_append, ih]
    by_cases here : next ≤ n ∧ n < blocks
    · simp [here]
      omega
    · simp [here]
      omega

/- The number of blocks of the freemap, without a wrap. -/
theorem freemap_size (small : blocks ≤ 1048576) :
    sfsFreemapBlocks blocks = (blocks + 32767) / 32768 ∧ sfsFreemapBits blocks = (blocks + 32767) / 32768 * 32768 := by
  unfold sfsFreemapBlocks sfsFreemapBits SFS_BLKBITS
  constructor
  · apply u32_of_nat
    unfold wordSize
    omega
  · apply u32_of_nat
    unfold wordSize
    omega

/- The super block and the freemap that mounting asks for, the blocks from `next` on being free. -/
structure Mountable (s : Sfs) (blocks next : Nat) : Prop where
  small : blocks ≤ 524288
  device : blocks ≤ s.dBlocks
  first : 2 + (blocks + 32767) / 32768 ≤ next
  room : next ≤ blocks
  magic : field (s.disk SFS_BLKN_SUPER) 0 = SFS_MAGIC
  total : field (s.disk SFS_BLKN_SUPER) 4 = blocks
  unused : field (s.disk SFS_BLKN_SUPER) 8 = blocks - next
  bits : ∀ i < (blocks + 32767) / 32768, ∀ x < 32768,
    (BitVec.ofNat 32 (field (s.disk (SFS_BLKN_FREEMAP + i)) (x / 32 * 4))).getLsbD (x % 32) =
      decide (next ≤ i * 32768 + x ∧ i * 32768 + x < blocks)

/-- A volume as mounting finds it. -/
structure JustMounted (s : Sfs) (blocks next : Nat) (v : Sfs) : Prop where
  total : v.blocks = blocks
  unused : v.unusedBlocks = blocks - next
  dBlocks : v.dBlocks = s.dBlocks
  disk : v.disk = s.disk
  nbits : v.freemap.nbits = (blocks + 32767) / 32768 * 32768
  nwords : v.freemap.nwords = (blocks + 32767) / 32768 * 1024
  bits : ∀ i < v.freemap.nbits, v.freemap.bit i = decide (next ≤ i ∧ i < blocks)

/- Mounting reads the words of the freemap, and asks that the free bits are as many as the super block says. -/
theorem mount_reads (kmalloc : Nat → Bool) (memory : ∀ n < 5, kmalloc n = true) (low : blocks < 1048576)
    (device : blocks ≤ s.dBlocks) (size : nblks = (blocks + 32767) / 32768) (positive : 0 < nblks)
    (room : 2 + nblks ≤ blocks) (magic : field (s.disk SFS_BLKN_SUPER) 0 = SFS_MAGIC)
    (total : field (s.disk SFS_BLKN_SUPER) 4 = blocks) :
    ∃ map, (∀ i < nblks, ∀ w < SFS_BLK_NENTRY,
        map (i * SFS_BLK_NENTRY + w) = BitVec.ofNat 32 (field (s.disk (SFS_BLKN_FREEMAP + i)) (w * 4))) ∧
      ∀ unused, field (s.disk SFS_BLKN_SUPER) 8 = unused →
        ((List.range (nblks * 32768)).filter (Bitmap.mk (nblks * 32768) (nblks * 1024) map).bit).length = unused →
        sfsDoMount kmalloc SFS_BLKSIZE s = some (.ok { s with
          blocks, unusedBlocks := unused, superDirty := false
          freemap := { nbits := nblks * 32768, nwords := nblks * 1024, map } }) := by
  obtain ⟨size_blocks, size_bits⟩ := freemap_size low.le
  rw [← size] at size_blocks size_bits
  let freemap : Bitmap := { nbits := nblks * 32768, nwords := nblks * 1024, map := fun _ => BitVec.allOnes 32 }
  have created : bitmapCreate (nblks * 32768) (fun n => kmalloc (3 + n)) = some (some freemap) := by
    have words : (nblks * 32768 + 31) / 32 = nblks * 1024 := by omega
    have ready : ¬ ((!kmalloc (3 + 0)) = true ∨ (!kmalloc (3 + 1)) = true) := by simp [memory]
    unfold bitmapCreate
    rw [words]
    dsimp only
    rw [if_neg (by omega), if_neg ready, if_pos (by omega)]
  obtain ⟨map, read, here, _⟩ := read_freemap_run (s := s) nblks SFS_BLKN_FREEMAP 0 freemap
    (by unfold SFS_BLKN_FREEMAP; omega) (by unfold SFS_BLKN_FREEMAP; omega)
  have length : nblks * 1024 * 4 = u32 (nblks * SFS_BLKSIZE : Nat) := by
    rw [u32_of_nat (by unfold SFS_BLKSIZE wordSize; omega)]
    unfold SFS_BLKSIZE
    omega
  have inited : sfsInitFreemap s freemap SFS_BLKN_FREEMAP nblks = some (.ok { freemap with map }) := by
    unfold sfsInitFreemap
    rw [if_pos length, read]
  refine ⟨map, fun i inside w small => ?_, fun unused counts free => ?_⟩
  · have word := here i inside w small
    rwa [Nat.zero_add] at word
  · have counted : countUnused { freemap with map } (nblks * 32768) = some unused := by
      rw [count_unused_run (Nat.le_refl _)]
      exact congrArg some free
    have ready : ¬ ((!kmalloc 0) = true ∨ (!kmalloc 1) = true) := by simp [memory]
    have fits : ¬ (SFS_MAGIC ≠ SFS_MAGIC ∨ s.dBlocks < blocks) := by simp [device]
    unfold sfsDoMount
    rw [if_neg (not_not.mpr rfl), if_neg ready, init_read_run (by unfold SFS_BLKN_SUPER; omega) (by decide)]
    dsimp only
    rw [magic, total, if_neg fits, if_neg (by simp [memory]), size_blocks, size_bits, created]
    dsimp only
    rw [inited]
    dsimp only
    rw [counted, counts]
    exact if_pos rfl

theorem mount_run (kmalloc : Nat → Bool) (memory : ∀ n < 5, kmalloc n = true) (able : Mountable s blocks next) :
    ∃ v, sfsDoMount kmalloc SFS_BLKSIZE s = some (.ok v) ∧ JustMounted s blocks next v := by
  obtain ⟨small, device, first, room, magic, total, unused, bits⟩ := able
  obtain ⟨nblks, is⟩ : ∃ nblks, nblks = (blocks + 32767) / 32768 := ⟨_, rfl⟩
  rw [← is] at first bits
  obtain ⟨map, words, mounts⟩ := mount_reads kmalloc memory (by omega) device is (by omega) (by omega) magic total
  have bit : ∀ i < nblks * 32768,
      (Bitmap.mk (nblks * 32768) (nblks * 1024) map).bit i = decide (next ≤ i ∧ i < blocks) := by
    intro i inside
    have word := words (i / 32768) (by omega) (i % 32768 / 32) (by unfold SFS_BLK_NENTRY; omega)
    have place : i / 32768 * SFS_BLK_NENTRY + i % 32768 / 32 = i / 32 := by
      unfold SFS_BLK_NENTRY
      omega
    rw [place] at word
    have set := bits (i / 32768) (by omega) (i % 32768) (by omega)
    rw [show i / 32768 * 32768 + i % 32768 = i by omega, show i % 32768 % 32 = i % 32 by omega] at set
    rw [← set, ← word]
    rfl
  have free : ((List.range (nblks * 32768)).filter (Bitmap.mk (nblks * 32768) (nblks * 1024) map).bit).length =
      blocks - next := by
    rw [List.filter_congr fun i mem => bit i (List.mem_range.mp mem), count_between next blocks]
    omega
  exact ⟨_, mounts _ unused free, rfl, rfl, rfl, rfl, by rw [← is], by rw [← is], bit⟩

/- What the calls on a mounted volume rely on. -/
theorem mounted_volume {v : Sfs} (mounted : JustMounted s blocks next v) (able : Mountable s blocks next)
    (addressable : s.dBlocks < 1048576) : Volume v := by
  have small := able.small
  have first := able.first
  have room := able.room
  have words : v.freemap.nwords * 32 = v.freemap.nbits := by
    rw [mounted.nbits, mounted.nwords]
    omega
  refine ⟨?_, ?_, words.symm, ?_, fun i inside set => ?_, ?_⟩
  · rw [mounted.total, mounted.dBlocks]
    exact able.device
  · rw [mounted.dBlocks]
    exact addressable
  · rw [mounted.total, mounted.nbits]
    omega
  · rw [words] at inside
    rw [mounted.bits i inside, decide_eq_true_iff] at set
    rw [mounted.total]
    omega
  · unfold Bitmap.freeCount
    rw [words, List.filter_congr fun i mem => mounted.bits i (List.mem_range.mp mem), count_between next blocks,
      mounted.unused, mounted.nbits]
    omega

end

/- The loop of `sfs_rwblock` when it writes; `buf i` is the block of the buffer that is written as the `i`-th. -/
def sfsWblocks (buf : Nat → DiskBlock) (blkno : Nat) : Nat → SfsM Int
  | 0 => return 0
  | nblks + 1 => do
      let ret ← sfsWriteBlock blkno (buf 0)
      if ret ≠ 0 then return ret
      else sfsWblocks (fun i => buf (i + 1)) (blkno + 1) nblks

/- `sfs_buffer` with the super block in it; `info` is the name of the volume. -/
def superData (info : DiskBlock) (s : Sfs) : DiskBlock := fun j =>
  if j < 4 then u32Bytes SFS_MAGIC j
  else if j < 8 then u32Bytes s.blocks (j - 4)
  else if j < 12 then u32Bytes s.unusedBlocks (j - 8)
  else if j < 44 then info (j - 12)
  else 0

def sfsSyncSuper (info : DiskBlock) : SfsM Int := do
  let s ← get
  check .assertion (SFS_BLKN_SUPER < s.blocks)
  match disk0Block s (u32 (SFS_BLKN_SUPER * SFS_BLKSIZE : Nat)) with
  | .error ret => return ret
  | .ok b =>
      set { s with disk := Function.update s.disk b (superData info s) }
      return 0

/- Block `i` of what `bitmap_getdata` gives. -/
def freemapData (freemap : Bitmap) (i : Nat) : DiskBlock := fun j =>
  u32Bytes (freemap.map (i * SFS_BLK_NENTRY + j / 4)).toNat (j % 4)

def sfsSyncFreemap : SfsM Int := do
  let s ← get
  sfsWblocks (freemapData s.freemap) SFS_BLKN_FREEMAP (sfsFreemapBlocks s.blocks)

/- The first loop of `sfs_sync` over the inodes that are left on the list. -/
def sfsSyncInodes : List Nat → SfsM Unit
  | [] => return ()
  | ino :: list => do
      let _ ← sfsFsync ino
      sfsSyncInodes list

/- `list` holds the numbers of the inodes on `inode_list`. -/
def sfsSync (list : List Nat) (info : DiskBlock) : SfsM Int := do
  sfsSyncInodes list
  let s ← get
  if s.superDirty then
    modify fun s => { s with superDirty := false }
    let ret ← sfsSyncSuper info
    if ret ≠ 0 then
      modify fun s => { s with superDirty := true }
      return ret
    let ret ← sfsSyncFreemap
    if ret ≠ 0 then
      modify fun s => { s with superDirty := true }
      return ret
    return 0
  else return 0

/- The loop of `sfs_cleanup`; `more` tries are left behind this one, 31 behind the first. -/
def sfsCleanup (list : List Nat) (info : DiskBlock) : Nat → SfsM Int
  | 0 => sfsSync list info
  | more + 1 => do
      let ret ← sfsSync list info
      if ret = 0 then return ret else sfsCleanup list info more

/-- The super block and the freemap are on disk as they are in memory. -/
structure Stamped (s : Sfs) : Prop where
  magic : field (s.disk SFS_BLKN_SUPER) 0 = SFS_MAGIC
  total : field (s.disk SFS_BLKN_SUPER) 4 = s.blocks
  unused : field (s.disk SFS_BLKN_SUPER) 8 = s.unusedBlocks
  words : ∀ i < sfsFreemapBlocks s.blocks, ∀ w < SFS_BLK_NENTRY,
    BitVec.ofNat 32 (field (s.disk (SFS_BLKN_FREEMAP + i)) (w * 4)) = s.freemap.map (i * SFS_BLK_NENTRY + w)

/-- What `super_dirty` is for. -/
def Noted (s : Sfs) : Prop := s.superDirty = false → Stamped s

/-- The blocks of the freemap are in use for nothing else. -/
structure Reserved (s : Sfs) (F : Set Nat) : Prop where
  nonempty : 0 < s.blocks
  bits : s.freemap.nbits = sfsFreemapBits s.blocks
  inuse : ∀ i < sfsFreemapBlocks s.blocks, InUse s (SFS_BLKN_FREEMAP + i)
  apart : ∀ i < sfsFreemapBlocks s.blocks, SFS_BLKN_FREEMAP + i ∉ F ∧ Unpointed s F (SFS_BLKN_FREEMAP + i)

/-- The inodes in memory that `sfs_sync` need not write; a directory is one of them. -/
def SyncListed (s : Sfs) (F : Set Nat) (list : List Nat) : Prop :=
  (∀ k ∈ F, (s.inodes k).dirty = true → k ∈ list) ∧ ∀ k ∈ list, k ∉ F → (s.inodes k).dirty = false

/-- What a call on a regular file may change of the volume; a change of the free blocks sets `super_dirty`. -/
structure ChangesNoted (s t : Sfs) : Prop where
  blocks : t.blocks = s.blocks
  nbits : t.freemap.nbits = s.freemap.nbits
  super : s.blocks ≤ 1048576 → t.disk SFS_BLKN_SUPER = s.disk SFS_BLKN_SUPER
  noted : t.superDirty = false → s.superDirty = false ∧ t.freemap = s.freemap ∧ t.unusedBlocks = s.unusedBlocks

/-- What a restart relies on. -/
structure Restartable (s : Sfs) (F : Set Nat) : Prop where
  files : Files s F
  clean : Clean s F
  reserved : Reserved s F
  noted : Noted s

/-- Inodes have been written back. -/
structure Flushed (F : Set Nat) (s t : Sfs) : Prop where
  fields : t.blocks = s.blocks ∧ t.unusedBlocks = s.unusedBlocks ∧ t.superDirty = s.superDirty ∧
    t.freemap = s.freemap ∧ t.dBlocks = s.dBlocks
  files : Files t F
  clean : Clean t F
  din : ∀ g, (t.inodes g).din = (s.inodes g).din
  dirty : ∀ g, (t.inodes g).dirty = true → (s.inodes g).dirty = true
  disk : ∀ c, c ∉ F → t.disk c = s.disk c
  pointers : ∀ g ∈ F, ∀ a, pointer t g a = pointer s g a
  data : ∀ g ∈ F, fileData t g = fileData s g

/-- The super block and the freemap have been written. -/
structure Saved (t u : Sfs) : Prop where
  fields : u.blocks = t.blocks ∧ u.unusedBlocks = t.unusedBlocks ∧ u.freemap = t.freemap ∧ u.dBlocks = t.dBlocks ∧
    u.inodes = t.inodes
  stamped : Stamped u
  tidy : u.superDirty = false
  disk : ∀ c, c ≠ SFS_BLKN_SUPER → (∀ i < sfsFreemapBlocks t.blocks, c ≠ SFS_BLKN_FREEMAP + i) → u.disk c = t.disk c

/-- The volume that mounting makes of the disk of `s`. -/
structure Remounted (s v : Sfs) : Prop where
  total : v.blocks = s.blocks
  unused : v.unusedBlocks = s.unusedBlocks
  tidy : v.superDirty = false
  dBlocks : v.dBlocks = s.dBlocks
  disk : v.disk = s.disk
  nbits : v.freemap.nbits = s.freemap.nbits
  nwords : v.freemap.nwords = s.freemap.nwords
  words : ∀ w < s.freemap.nwords, v.freemap.map w = s.freemap.map w

section
variable {s t u v fresh : Sfs} {F : Set Nat} {k : Nat} {list : List Nat} {info : DiskBlock}

theorem flushed_refl (files : Files s F) (clean : Clean s F) : Flushed F s s :=
  ⟨⟨rfl, rfl, rfl, rfl, rfl⟩, files, clean, fun _ => rfl, fun _ dirty => dirty, fun _ _ => rfl, fun _ _ _ => rfl,
    fun _ _ => rfl⟩

theorem flushed_trans (first : Flushed F s t) (second : Flushed F t u) : Flushed F s u := by
  obtain ⟨blocks, unused, super, freemap, dBlocks⟩ := first.fields
  obtain ⟨blocks', unused', super', freemap', dBlocks'⟩ := second.fields
  refine ⟨⟨blocks'.trans blocks, unused'.trans unused, super'.trans super, freemap'.trans freemap,
      dBlocks'.trans dBlocks⟩, second.files, second.clean, fun g => ?_, fun g dirty => ?_, fun c outside => ?_,
    fun g mem a => ?_, fun g mem => ?_⟩
  · rw [second.din g, first.din g]
  · exact first.dirty g (second.dirty g dirty)
  · rw [second.disk c outside, first.disk c outside]
  · rw [second.pointers g mem a, first.pointers g mem a]
  · rw [second.data g mem, first.data g mem]

/- One inode; a clean one is left alone. -/
theorem fsync_flushed (files : Files s F) (clean : Clean s F) (tidy : k ∉ F → (s.inodes k).dirty = false) :
    ∃ t, sfsFsync k s = .ok (0, t) ∧ Flushed F s t ∧ (t.inodes k).dirty = false := by
  by_cases mem : k ∈ F
  · refine ⟨synced s k, fsync_run files.maps.volume (files.home k mem).1, ?_, synced_clean⟩
    refine ⟨?_, synced_files files mem, synced_still_clean clean, synced_din, fun g dirty => ?_, fun c outside => ?_,
      fun g mg a => synced_pointer files.home mem mg a, (synced_alike files mem).data⟩
    · unfold synced
      split_ifs
      · exact ⟨rfl, rfl, rfl, rfl, rfl⟩
      · exact ⟨rfl, rfl, rfl, rfl, rfl⟩
    · unfold synced at dirty
      split_ifs at dirty with was
      · by_cases here : g = k
        · subst g
          exact was
        · simpa [here] using dirty
      · exact dirty
    · have ne : c ≠ k := fun same => outside (same ▸ mem)
      unfold synced
      split_ifs
      · exact Function.update_of_ne ne _ _
      · rfl
  · have unmarked := tidy mem
    refine ⟨s, ?_, flushed_refl files clean, unmarked⟩
    unfold sfsFsync
    rw [run_bind inode_run, if_neg (by simp [unmarked])]
    rfl

theorem sync_inodes_run (files : Files s F) (clean : Clean s F)
    (tidy : ∀ k ∈ list, k ∉ F → (s.inodes k).dirty = false) :
    ∃ t, sfsSyncInodes list s = .ok ((), t) ∧ Flushed F s t ∧ ∀ k ∈ list, (t.inodes k).dirty = false := by
  induction list generalizing s with
  | nil => exact ⟨s, rfl, flushed_refl files clean, fun k mem => absurd mem List.not_mem_nil⟩
  | cons ino list ih =>
    obtain ⟨t, first, flushed, written⟩ := fsync_flushed files clean (tidy ino List.mem_cons_self)
    have later : ∀ k ∈ list, k ∉ F → (t.inodes k).dirty = false := by
      intro k mem outside
      have before := tidy k (List.mem_cons_of_mem ino mem) outside
      by_contra dirty
      rw [flushed.dirty k (by simpa using dirty)] at before
      cases before
    obtain ⟨u, rest, flushed', written'⟩ := ih flushed.files flushed.clean later
    refine ⟨u, ?_, flushed_trans flushed flushed', fun k mem => ?_⟩
    · unfold sfsSyncInodes
      rw [run_bind first]
      exact rest
    · rcases List.mem_cons.mp mem with rfl | mem
      · by_contra dirty
        rw [flushed'.dirty k (by simpa using dirty)] at written
        cases written
      · exact written' k mem

theorem wblocks_run (buf : Nat → DiskBlock) (blkno nblks : Nat) (volume : Volume s) (positive : 0 < blkno)
    (inside : blkno + nblks ≤ s.blocks) :
    ∃ disk, sfsWblocks buf blkno nblks s = .ok (0, { s with disk }) ∧ (∀ i < nblks, disk (blkno + i) = buf i) ∧
      ∀ c, c < blkno ∨ blkno + nblks ≤ c → disk c = s.disk c := by
  induction nblks generalizing s blkno buf with
  | zero => exact ⟨s.disk, rfl, fun i below => absurd below (Nat.not_lt_zero i), fun _ _ => rfl⟩
  | succ nblks ih =>
    have wrote := write_block_run volume (by omega : blkno ≠ 0) (by omega) (buf 0)
    obtain ⟨disk, run, written, others⟩ := ih (s := s.setBlock blkno (buf 0)) (fun i => buf (i + 1)) (blkno + 1)
      (set_block_volume volume _ _) (by omega) (by change blkno + 1 + nblks ≤ s.blocks; omega)
    refine ⟨disk, ?_, fun i below => ?_, fun c outside => ?_⟩
    · unfold sfsWblocks
      rw [run_bind wrote, if_neg (by decide)]
      exact run
    · cases i with
      | zero =>
        rw [others _ (by omega)]
        exact set_block_self _ _
      | succ i =>
        rw [show blkno + (i + 1) = blkno + 1 + i by omega]
        exact written i (by omega)
    · rw [others c (by omega)]
      exact Function.update_of_ne (by omega) _ _

theorem freemap_word (freemap : Bitmap) (i w : Nat) :
    BitVec.ofNat 32 (field (freemapData freemap i) (w * 4)) = freemap.map (i * SFS_BLK_NENTRY + w) := by
  have word : field (freemapData freemap i) (w * 4) = (freemap.map (i * SFS_BLK_NENTRY + w)).toNat := by
    apply field_of_u32 (BitVec.isLt _)
    intro j low
    unfold freemapData
    rw [show (w * 4 + j) / 4 = w by omega, show (w * 4 + j) % 4 = j by omega]
  rw [word, BitVec.ofNat_toNat, BitVec.setWidth_eq]

theorem super_data_fields (info : DiskBlock) (blocks : s.blocks < wordSize) (unused : s.unusedBlocks < wordSize) :
    field (superData info s) 0 = SFS_MAGIC ∧ field (superData info s) 4 = s.blocks ∧
      field (superData info s) 8 = s.unusedBlocks := by
  refine ⟨field_of_u32 (by decide) fun j low => ?_, field_of_u32 blocks fun j low => ?_,
    field_of_u32 unused fun j low => ?_⟩
  · rw [Nat.zero_add]
    exact if_pos low
  · unfold superData
    rw [if_neg (by omega), if_pos (by omega), Nat.add_sub_cancel_left]
  · unfold superData
    rw [if_neg (by omega), if_neg (by omega), if_pos (by omega), Nat.add_sub_cancel_left]

theorem sync_super_run (volume : Volume s) (nonempty : SFS_BLKN_SUPER < s.blocks) :
    sfsSyncSuper info s = .ok (0, s.setBlock SFS_BLKN_SUPER (superData info s)) := by
  unfold sfsSyncSuper
  rw [run_get_bind, run_check_bind nonempty, disk_block_run volume nonempty]
  rfl

theorem reserved_room (reserved : Reserved s F) (low : s.blocks < 1048576) :
    SFS_BLKN_FREEMAP + sfsFreemapBlocks s.blocks ≤ s.blocks := by
  have nonempty := reserved.nonempty
  have size : sfsFreemapBlocks s.blocks = (s.blocks + 32767) / 32768 := (freemap_size low.le).1
  have last := (reserved.inuse (sfsFreemapBlocks s.blocks - 1) (by omega)).2.1
  omega

/- The second half of `sfs_sync`. -/
theorem sync_super_freemap (info : DiskBlock) (volume : Volume s) (reserved : Reserved s F) :
    ∃ t u, sfsSyncSuper info s = .ok (0, t) ∧ sfsSyncFreemap t = .ok (0, u) ∧
      (s.superDirty = false → Saved s u) := by
  have low : s.blocks < 1048576 := Nat.lt_of_le_of_lt volume.device volume.addressable
  have room := reserved_room reserved low
  obtain ⟨disk, run, written, others⟩ := wblocks_run (s := s.setBlock SFS_BLKN_SUPER (superData info s))
    (freemapData s.freemap) SFS_BLKN_FREEMAP (sfsFreemapBlocks s.blocks)
    (set_block_volume volume _ _) (by decide) room
  refine ⟨_, _, sync_super_run volume reserved.nonempty, run,
    fun tidy => ⟨⟨rfl, rfl, rfl, rfl, rfl⟩, ?_, tidy, fun c ne apart => ?_⟩⟩
  · have super : disk SFS_BLKN_SUPER = superData info s := by
      rw [others _ (Or.inl (by decide))]
      exact set_block_self _ _
    obtain ⟨magic, total, unused⟩ := super_data_fields info (s := s) (by unfold wordSize; omega)
      (Nat.lt_of_le_of_lt (unused_fits volume) (by unfold wordSize; omega))
    constructor
    · change field (disk SFS_BLKN_SUPER) 0 = _
      rw [super, magic]
    · change field (disk SFS_BLKN_SUPER) 4 = _
      rw [super, total]
      rfl
    · change field (disk SFS_BLKN_SUPER) 8 = _
      rw [super, unused]
      rfl
    · intro i inside w _
      change BitVec.ofNat 32 (field (disk (SFS_BLKN_FREEMAP + i)) (w * 4)) = _
      rw [written i inside]
      exact freemap_word _ _ _
  · have outside : c < SFS_BLKN_FREEMAP ∨ SFS_BLKN_FREEMAP + sfsFreemapBlocks s.blocks ≤ c := by
      by_contra between
      have inside : c - SFS_BLKN_FREEMAP < sfsFreemapBlocks s.blocks := by omega
      exact apart _ inside (by omega)
    change disk c = s.disk c
    rw [others c outside]
    exact Function.update_of_ne ne _ _

theorem flushed_inuse (flushed : Flushed F s t) (c : Nat) : InUse t c ↔ InUse s c := by
  obtain ⟨blocks, _, _, freemap, _⟩ := flushed.fields
  unfold InUse
  rw [blocks, freemap]

theorem kept_reserved (reserved : Reserved s F) (blocks : t.blocks = s.blocks) (nbits : t.freemap.nbits = s.freemap.nbits)
    (kept : ∀ i < sfsFreemapBlocks s.blocks, InUse t (SFS_BLKN_FREEMAP + i) ∧ Unpointed t F (SFS_BLKN_FREEMAP + i)) :
    Reserved t F := by
  refine ⟨?_, ?_, fun i inside => ?_, fun i inside => ?_⟩
  · rw [blocks]
    exact reserved.nonempty
  · rw [blocks, nbits]
    exact reserved.bits
  · rw [blocks] at inside
    exact (kept i inside).1
  · rw [blocks] at inside
    exact ⟨(reserved.apart i inside).1, (kept i inside).2⟩

theorem flushed_reserved (flushed : Flushed F s t) (reserved : Reserved s F) : Reserved t F := by
  obtain ⟨blocks, _, _, freemap, _⟩ := flushed.fields
  refine kept_reserved reserved blocks (by rw [freemap]) fun i inside => ⟨?_, fun g mem a valid => ?_⟩
  · exact (flushed_inuse flushed _).mpr (reserved.inuse i inside)
  · rw [flushed.pointers g mem a]
    exact (reserved.apart i inside).2 g mem a valid

theorem flushed_stamped (flushed : Flushed F s t) (home : Homed s F) (reserved : Reserved s F) (stamped : Stamped s) :
    Stamped t := by
  obtain ⟨blocks, unused, _, freemap, _⟩ := flushed.fields
  have super : t.disk SFS_BLKN_SUPER = s.disk SFS_BLKN_SUPER := flushed.disk _ fun mem => (home _ mem).1.1 rfl
  constructor
  · rw [super]
    exact stamped.magic
  · rw [super, blocks]
    exact stamped.total
  · rw [super, unused]
    exact stamped.unused
  · intro i inside w low
    rw [blocks] at inside
    rw [flushed.disk _ (reserved.apart i inside).1, freemap]
    exact stamped.words i inside w low

/-- A sync writes everything that has changed. -/
theorem sync_run (info : DiskBlock) (files : Files s F) (clean : Clean s F) (reserved : Reserved s F) (noted : Noted s)
    (listed : SyncListed s F list) :
    ∃ t u, sfsSync list info s = .ok (0, u) ∧ Flushed F s t ∧ (∀ k ∈ F, (t.inodes k).dirty = false) ∧ Saved t u := by
  obtain ⟨t, inodes, flushed, written⟩ := sync_inodes_run files clean listed.2
  have tidy : ∀ k ∈ F, (t.inodes k).dirty = false := by
    intro k mem
    by_contra dirty
    have marked : (t.inodes k).dirty = true := by simpa using dirty
    exact dirty (written k (listed.1 k mem (flushed.dirty k marked)))
  have reserved' := flushed_reserved flushed reserved
  unfold sfsSync
  rw [run_bind inodes, run_get_bind]
  cases super : t.superDirty with
  | false =>
    have stamped := flushed_stamped flushed files.home reserved (noted (flushed.fields.2.2.1 ▸ super))
    refine ⟨t, t, ?_, flushed, tidy, ⟨rfl, rfl, rfl, rfl, rfl⟩, stamped, super, fun _ _ _ => rfl⟩
    rw [if_neg (by decide)]
    rfl
  | true =>
    have volume := flushed.files.maps.volume
    have volume' : Volume { t with superDirty := false } :=
      ⟨volume.device, volume.addressable, volume.words, volume.covered, volume.free, volume.counted⟩
    obtain ⟨w, u, first, second, saved⟩ := sync_super_freemap (s := { t with superDirty := false }) (F := F) info
      volume' ⟨reserved'.nonempty, reserved'.bits, reserved'.inuse, reserved'.apart⟩
    obtain ⟨fields, stamped, plain, disk⟩ := saved rfl
    refine ⟨t, u, ?_, flushed, tidy, fields, stamped, plain, disk⟩
    rw [if_pos rfl, run_modify_bind, run_bind first, if_neg (by decide), run_bind second, if_neg (by decide)]
    rfl

theorem stamped_remounts {kmalloc : Nat → Bool} (memory : ∀ n < 5, kmalloc n = true) (volume : Volume s)
    (reserved : Reserved s F) (stamped : Stamped s) (disk : fresh.disk = s.disk) (device : fresh.dBlocks = s.dBlocks) :
    ∃ v, sfsDoMount kmalloc SFS_BLKSIZE fresh = some (.ok v) ∧ Remounted s v := by
  have low : s.blocks < 1048576 := Nat.lt_of_le_of_lt volume.device volume.addressable
  have nonempty := reserved.nonempty
  have room := reserved_room reserved low
  obtain ⟨size, size_bits⟩ := freemap_size low.le
  obtain ⟨nblks, is⟩ : ∃ nblks, nblks = (s.blocks + 32767) / 32768 := ⟨_, rfl⟩
  rw [← is] at size size_bits
  have nbits : s.freemap.nbits = nblks * 32768 := reserved.bits.trans size_bits
  have nwords : s.freemap.nwords = nblks * 1024 := by
    have words := volume.words
    omega
  rw [size] at room
  obtain ⟨map, words, mounts⟩ := mount_reads (s := fresh) kmalloc memory low (by rw [device]; exact volume.device) is
    (by omega) room (by rw [disk]; exact stamped.magic) (by rw [disk]; exact stamped.total)
  have word : ∀ w < nblks * 1024, map w = s.freemap.map w := by
    intro w inside
    have block : w / SFS_BLK_NENTRY < nblks := by
      unfold SFS_BLK_NENTRY
      omega
    have low : w % SFS_BLK_NENTRY < SFS_BLK_NENTRY := Nat.mod_lt w (by decide)
    have here := words _ block _ low
    rwa [disk, stamped.words _ (by rw [size]; exact block) _ low, Nat.div_add_mod'] at here
  have free : ((List.range (nblks * 32768)).filter (Bitmap.mk (nblks * 32768) (nblks * 1024) map).bit).length =
      s.unusedBlocks := by
    have bit : ∀ i ∈ List.range (nblks * 32768),
        (Bitmap.mk (nblks * 32768) (nblks * 1024) map).bit i = s.freemap.bit i := by
      intro i mem
      have inside := List.mem_range.mp mem
      exact congrArg (fun word => BitVec.getLsbD word (i % 32)) (word (i / 32) (by omega))
    rw [List.filter_congr bit, volume.counted, ← nbits, volume.words]
    rfl
  refine ⟨_, mounts _ (by rw [disk]; exact stamped.unused) free,
    ⟨rfl, rfl, rfl, device, disk, nbits.symm, nwords.symm, ?_⟩⟩
  intro w inside
  exact word w (nwords ▸ inside)

theorem remounted_bit (again : Remounted s v) {i : Nat} (inside : i < s.freemap.nwords * 32) :
    v.freemap.bit i = s.freemap.bit i :=
  congrArg (fun word => BitVec.getLsbD word (i % 32)) (again.words (i / 32) (by omega))

theorem remounted_volume (again : Remounted s v) (volume : Volume s) : Volume v := by
  have words := volume.words
  refine ⟨?_, ?_, ?_, ?_, fun i inside free => ?_, ?_⟩
  · rw [again.total, again.dBlocks]
    exact volume.device
  · rw [again.dBlocks]
    exact volume.addressable
  · rw [again.nbits, again.nwords]
    exact words
  · rw [again.total, again.nbits]
    exact volume.covered
  · rw [again.nwords] at inside
    rw [remounted_bit again inside] at free
    rw [again.total]
    exact volume.free i inside free
  · unfold Bitmap.freeCount
    rw [again.unused, again.nwords, volume.counted,
      List.filter_congr fun i mem => remounted_bit again (List.mem_range.mp mem)]
    rfl

theorem remounted_inuse (again : Remounted s v) (volume : Volume s) {c : Nat} (inuse : InUse s c) : InUse v c := by
  have covered := volume.covered
  have words := volume.words
  obtain ⟨nonzero, inside, used⟩ := inuse
  refine ⟨nonzero, ?_, ?_⟩
  · rw [again.total]
    exact inside
  · rw [remounted_bit again (by omega)]
    exact used

theorem remounted_stamped (again : Remounted s v) (volume : Volume s) (reserved : Reserved s F) (stamped : Stamped s) :
    Stamped v := by
  have low : s.blocks < 1048576 := Nat.lt_of_le_of_lt volume.device volume.addressable
  obtain ⟨size, size_bits⟩ := freemap_size low.le
  have nbits := reserved.bits
  have words := volume.words
  constructor
  · rw [again.disk]
    exact stamped.magic
  · rw [again.disk, again.total]
    exact stamped.total
  · rw [again.disk, again.unused]
    exact stamped.unused
  · intro i inside w small
    rw [again.total] at inside
    rw [again.disk, stamped.words i inside w small]
    refine (again.words _ ?_).symm
    unfold SFS_BLK_NENTRY at small ⊢
    omega

/- What a file is read off is its inode, its entry block and its blocks. -/
theorem kept_pointer (inode : t.inodes k = s.inodes k)
    (disk : ∀ a : Slot, a.Valid → pointer s k a ≠ 0 → t.disk (pointer s k a) = s.disk (pointer s k a)) {a : Slot}
    (valid : a.Valid) : pointer t k a = pointer s k a :=
  pointer_congr inode (fun nonzero j _ => congrFun (disk .entries trivial nonzero) j) valid

theorem kept_data (maps : BlockMaps s F) (mem : k ∈ F) (inode : t.inodes k = s.inodes k)
    (disk : ∀ a : Slot, a.Valid → pointer s k a ≠ 0 → t.disk (pointer s k a) = s.disk (pointer s k a)) :
    fileData t k = fileData s k := by
  have map := maps.map k mem
  have bounded := map.bounded
  have mapped : mappedSize t k = mappedSize s k := by
    unfold mappedSize
    rw [inode]
  funext p
  unfold fileData
  rw [mapped]
  split_ifs with inside
  · have below := mapped_block.mp inside
    have valid : Slot.Valid (.data (p / SFS_BLKSIZE)) := Nat.lt_of_lt_of_le below bounded
    unfold fileByte
    rw [kept_pointer inode disk valid, disk _ valid (map.below _ below).1]
  · rfl

theorem kept_files (files : Files s F) (volume : Volume t) (inodes : ∀ k ∈ F, t.inodes k = s.inodes k)
    (inuse : ∀ c, InUse s c → InUse t c)
    (disk : ∀ k ∈ F, ∀ a : Slot, a.Valid → pointer s k a ≠ 0 → t.disk (pointer s k a) = s.disk (pointer s k a)) :
    Files t F := by
  have same : ∀ g ∈ F, ∀ a : Slot, a.Valid → pointer t g a = pointer s g a :=
    fun g mem a valid => kept_pointer (inodes g mem) (disk g mem) valid
  refine ⟨⟨volume, fun g mem => ?_, fun f mf g mg a c va vc nonzero shared => ?_⟩, fun g mem => ?_, fun g mem => ?_,
    fun g mem => ?_, fun g mem => ?_, fun g mem => ?_⟩
  · have map := files.maps.map g mem
    have bounded := map.bounded
    refine ⟨?_, fun i low => ?_, fun i high low => ?_, ?_⟩
    · rw [inodes g mem]
      exact bounded
    · rw [inodes g mem] at low
      rw [same g mem (.data i) (Nat.lt_of_lt_of_le low bounded)]
      exact inuse _ (map.below i low)
    · rw [inodes g mem] at high
      rw [same g mem (.data i) low]
      exact map.above i high low
    · rw [inodes g mem]
      exact fun nonzero => inuse _ (map.entries nonzero)
  · rw [same f mf a va] at nonzero shared
    rw [same g mg c vc] at shared
    exact files.maps.unshared f mf g mg a c va vc nonzero shared
  · rw [inodes g mem]
    exact files.regular g mem
  · refine ⟨inuse g (files.home g mem).1, fun f mf a valid => ?_⟩
    rw [same f mf a valid]
    exact (files.home g mem).2 f mf a valid
  · rw [inodes g mem]
    exact files.size g mem
  · rw [inodes g mem]
    exact files.links g mem
  · rw [inodes g mem]
    exact files.tail g mem

theorem saved_volume (saved : Saved t u) (volume : Volume t) : Volume u := by
  obtain ⟨blocks, unused, freemap, dBlocks, _⟩ := saved.fields
  constructor
  · rw [blocks, dBlocks]
    exact volume.device
  · rw [dBlocks]
    exact volume.addressable
  · rw [freemap]
    exact volume.words
  · rw [blocks, freemap]
    exact volume.covered
  · rw [blocks, freemap]
    exact volume.free
  · rw [unused, freemap]
    exact volume.counted

theorem saved_inuse (saved : Saved t u) (c : Nat) : InUse u c ↔ InUse t c := by
  obtain ⟨blocks, _, freemap, _, _⟩ := saved.fields
  unfold InUse
  rw [blocks, freemap]

/- The inodes and the blocks of the files stay where they are. -/
theorem saved_disk (saved : Saved t u) (ready : Restartable t F) (mem : k ∈ F) :
    u.disk k = t.disk k ∧
      ∀ a : Slot, a.Valid → pointer t k a ≠ 0 → u.disk (pointer t k a) = t.disk (pointer t k a) := by
  constructor
  · exact saved.disk k (ready.files.home k mem).1.1 fun i inside same => (ready.reserved.apart i inside).1 (same ▸ mem)
  · intro a valid nonzero
    exact saved.disk _ nonzero fun i inside => (ready.reserved.apart i inside).2 k mem a valid

/- A volume that is mounted again after a sync, with the inodes loaded. -/
theorem remounted_ready (ready : Restartable t F) (saved : Saved t u) (again : Remounted u v) (plain : Stamped v)
    {inodes : Nat → SfsInode} (loaded : ∀ k ∈ F, inodes k = t.inodes k) :
    Restartable { v with inodes } F ∧ ∀ k ∈ F, fileData { v with inodes } k = fileData t k := by
  obtain ⟨blocks, unused, freemap, dBlocks, _⟩ := saved.fields
  have volume := saved_volume saved ready.files.maps.volume
  have volume' := remounted_volume again volume
  have inuse : ∀ c, InUse t c → InUse v c := fun c used =>
    remounted_inuse again volume ((saved_inuse saved c).mpr used)
  have disk : ∀ k ∈ F, v.disk k = t.disk k ∧
      ∀ a : Slot, a.Valid → pointer t k a ≠ 0 → v.disk (pointer t k a) = t.disk (pointer t k a) := by
    intro k mem
    rw [again.disk]
    exact saved_disk saved ready mem
  have files : Files { v with inodes } F := kept_files ready.files
    ⟨volume'.device, volume'.addressable, volume'.words, volume'.covered, volume'.free, volume'.counted⟩ loaded inuse
    fun k mem => (disk k mem).2
  have total : v.blocks = t.blocks := again.total.trans blocks
  have reserved : Reserved { v with inodes } F := by
    refine kept_reserved ready.reserved total ?_ fun i inside => ⟨inuse _ (ready.reserved.inuse i inside), ?_⟩
    · change v.freemap.nbits = _
      rw [again.nbits, freemap]
    · intro g mem a valid
      rw [kept_pointer (t := { v with inodes }) (loaded g mem) (disk g mem).2 valid]
      exact (ready.reserved.apart i inside).2 g mem a valid
  refine ⟨⟨files, fun k mem tidy => ?_, reserved, fun _ => ⟨plain.magic, plain.total, plain.unused, plain.words⟩⟩, ?_⟩
  · change (inodes k).dirty = false at tidy
    change HoldsInode (v.disk k) (inodes k).din
    rw [(disk k mem).1, loaded k mem]
    rw [loaded k mem] at tidy
    exact ready.clean k mem tidy
  · exact fun k mem => kept_data ready.files.maps mem (loaded k mem) (disk k mem).2

/-- After a sync the disk alone makes the volume again: what mounting and loading give looks the same to every call. -/
theorem sync_restarts (info : DiskBlock) {kmalloc : Nat → Bool} (memory : ∀ n < 5, kmalloc n = true)
    (ready : Restartable s F) (listed : SyncListed s F list) :
    ∃ u, sfsSync list info s = .ok (0, u) ∧ ∀ fresh, fresh.disk = u.disk → fresh.dBlocks = u.dBlocks →
      ∃ v, sfsDoMount kmalloc SFS_BLKSIZE fresh = some (.ok v) ∧
        (∀ k ∈ F, sfsReadDin k v = .ok (.ok (s.inodes k).din, v)) ∧
        ∀ inodes : Nat → SfsInode, (∀ k ∈ F, inodes k = { din := (s.inodes k).din, dirty := false }) →
          Restartable { v with inodes } F ∧ Alike F s { v with inodes } := by
  obtain ⟨t, u, synced, flushed, tidy, saved⟩ := sync_run info ready.files ready.clean ready.reserved ready.noted listed
  refine ⟨u, synced, fun fresh disk device => ?_⟩
  have ready' : Restartable t F :=
    ⟨flushed.files, flushed.clean, flushed_reserved flushed ready.reserved,
      fun plain => flushed_stamped flushed ready.files.home ready.reserved (ready.noted (flushed.fields.2.2.1 ▸ plain))⟩
  have volume := saved_volume saved flushed.files.maps.volume
  have reserved : Reserved u F := by
    obtain ⟨blocks, _, freemap, _, inodes⟩ := saved.fields
    refine kept_reserved ready'.reserved blocks (by rw [freemap]) fun i inside => ⟨?_, fun g mem a valid => ?_⟩
    · exact (saved_inuse saved _).mpr (ready'.reserved.inuse i inside)
    · rw [kept_pointer (congrFun inodes g) (saved_disk saved ready' mem).2 valid]
      exact (ready'.reserved.apart i inside).2 g mem a valid
  obtain ⟨v, mounted, again⟩ := stamped_remounts memory volume reserved saved.stamped disk device
  have inuse : ∀ i, InUse s i → InUse v i := fun i used =>
    remounted_inuse again volume ((saved_inuse saved i).mpr ((flushed_inuse flushed i).mpr used))
  refine ⟨v, mounted, fun k mem => ?_, fun inodes loaded => ?_⟩
  · have written := flushed.clean k mem (tidy k mem)
    rw [flushed.din k] at written
    apply read_din_run (remounted_volume again volume) (inuse k (ready.files.home k mem).1) (encodable ready.files mem)
    rw [again.disk, (saved_disk saved ready' mem).1]
    exact written
  · have same : ∀ k ∈ F, inodes k = t.inodes k := by
      intro k mem
      rw [loaded k mem, ← flushed.din k, ← tidy k mem]
    obtain ⟨after, data⟩ := remounted_ready ready' saved again (remounted_stamped again volume reserved saved.stamped) same
    refine ⟨after, ⟨?_, fun k mem => ?_, fun k mem => ?_, fun k mem => ?_, fun k mem => ?_⟩⟩
    · exact again.unused.trans (saved.fields.2.1.trans flushed.fields.2.1)
    · change (inodes k).din.size = _
      rw [loaded k mem]
    · change (inodes k).din.blocks = _
      rw [loaded k mem]
    · change (inodes k).din.indirect = 0 ↔ _
      rw [loaded k mem]
    · rw [data k mem, flushed.data k mem]

theorem disk_block_reached {b c : Nat} (low : s.blocks ≤ 1048576) (inside : b < s.blocks)
    (reached : disk0Block s (u32 (b * SFS_BLKSIZE : Nat)) = .ok c) : c = b := by
  have offset : u32 (b * SFS_BLKSIZE : Nat) = b * SFS_BLKSIZE := by
    apply u32_of_nat
    unfold SFS_BLKSIZE wordSize
    omega
  unfold disk0Block at reached
  rw [offset, Nat.mul_div_cancel b (by decide)] at reached
  split_ifs at reached
  cases reached
  rfl

instance : IsPreorder Sfs ChangesNoted where
  refl _ := ⟨rfl, rfl, fun _ => rfl, fun plain => ⟨plain, rfl, rfl⟩⟩
  trans _ _ _ first second := by
    refine ⟨second.blocks.trans first.blocks, second.nbits.trans first.nbits, fun low => ?_, fun plain => ?_⟩
    · rw [second.super (first.blocks ▸ low), first.super low]
    · obtain ⟨before, freemap, unused⟩ := second.noted plain
      obtain ⟨before', freemap', unused'⟩ := first.noted before
      exact ⟨before', freemap.trans freemap', unused.trans unused'⟩

instance : SfsRelation ChangesNoted where
  inode _ _ _ _ := ⟨rfl, rfl, fun _ => rfl, fun plain => ⟨plain, rfl, rfl⟩⟩
  block s b c data nonzero inside reached := by
    refine ⟨rfl, rfl, fun low => ?_, fun plain => ⟨plain, rfl, rfl⟩⟩
    obtain rfl := disk_block_reached low inside reached
    exact Function.update_of_ne (Ne.symm nonzero) _ _
  account _ _ _ nbits := ⟨rfl, nbits, fun _ => rfl, nofun⟩

theorem call_changes_noted {c : FileCall} (stays : ∀ g, c ≠ .reload g) {a : Answer} (ok : c.run s = .ok (a, t)) :
    ChangesNoted s t := by
  cases c with
  | io write g offset len buf => exact related_of_run keeps_io ok
  | truncate g len =>
    obtain ⟨ret, run⟩ := answer_ok ok
    exact related_of_run keeps_truncfile run
  | tryseek g pos =>
    obtain ⟨ret, run⟩ := answer_ok ok
    exact related_of_run keeps_tryseek run
  | reload g => exact absurd rfl (stays g)

/- A call on a file goes around the freemap's blocks as around those of the other files. -/
theorem touched_freemap (files : Files s F) (reserved : Reserved s F) (mem : k ∈ F) (touched : Touched F s k t) :
    ∀ i < sfsFreemapBlocks s.blocks,
      (InUse t (SFS_BLKN_FREEMAP + i) ∧ Unpointed t F (SFS_BLKN_FREEMAP + i)) ∧
        t.disk (SFS_BLKN_FREEMAP + i) = s.disk (SFS_BLKN_FREEMAP + i) := by
  intro i inside
  have unpointed := (reserved.apart i inside).2
  obtain ⟨inuse, free, same⟩ := touched.apart _ (reserved.inuse i inside) fun g here a valid =>
    unpointed g (here ▸ mem) a valid
  refine ⟨⟨inuse, fun g mg a valid => ?_⟩, same⟩
  by_cases here : g = k
  · exact free g here a valid
  · rw [touched_pointer files.maps mem touched mg here valid]
    exact unpointed g mg a valid

theorem noted_after (changes : ChangesNoted s t) (low : s.blocks ≤ 1048576) (noted : Noted s)
    (kept : ∀ i < sfsFreemapBlocks s.blocks, t.disk (SFS_BLKN_FREEMAP + i) = s.disk (SFS_BLKN_FREEMAP + i)) : Noted t := by
  intro plain
  obtain ⟨before, freemap, unused⟩ := changes.noted plain
  have stamped := noted before
  constructor
  · rw [changes.super low]
    exact stamped.magic
  · rw [changes.super low, changes.blocks]
    exact stamped.total
  · rw [changes.super low, unused]
    exact stamped.unused
  · intro i inside w small
    rw [changes.blocks] at inside
    rw [kept i inside, freemap]
    exact stamped.words i inside w small

theorem call_restartable {c : FileCall} (ready : Restartable s F) (mem : c.file ∈ F) (noticed : ¬ Unnoticed s c)
    {a : Answer} (ok : c.run s = .ok (a, t)) : Restartable t F := by
  obtain ⟨files, clean, reserved, noted⟩ := ready
  have volume := files.maps.volume
  obtain ⟨files', clean', _⟩ := call_keeps files clean mem ok
  by_cases reloads : ∃ g, c = .reload g
  · obtain ⟨g, rfl⟩ := reloads
    obtain ⟨ret, run⟩ := answer_ok ok
    rw [reload_run volume (files.home g mem).1 (encodable files mem) (clean g mem)] at run
    obtain ⟨u, written, flushed, _⟩ := fsync_flushed files clean (k := g) fun outside => absurd mem outside
    rw [fsync_run volume (files.home g mem).1] at written
    cases run
    cases written
    exact ⟨files', clean' noticed, flushed_reserved flushed reserved,
      fun plain => flushed_stamped flushed files.home reserved (noted (flushed.fields.2.2.1 ▸ plain))⟩
  · have stays : ∀ g, c ≠ .reload g := fun g here => reloads ⟨g, here⟩
    obtain ⟨completed, _⟩ := call_completed files mem stays ok
    have changes := call_changes_noted stays ok
    have low : s.blocks ≤ 1048576 := Nat.le_trans volume.device volume.addressable.le
    have freemap := touched_freemap files reserved mem completed.touched
    exact ⟨files', clean' noticed,
      kept_reserved reserved changes.blocks changes.nbits fun i inside => (freemap i inside).1,
      noted_after changes low noted fun i inside => (freemap i inside).2⟩

theorem cleanup_run {more : Nat} (synced : sfsSync list info s = .ok (0, t)) :
    sfsCleanup list info more s = .ok (0, t) := by
  cases more with
  | zero => exact synced
  | succ more =>
    unfold sfsCleanup
    rw [run_bind synced]
    rfl

/-- Whatever calls the files have had, `sfs_cleanup` leaves on disk what they hold: mounting the disk on another boot and
loading the inodes gives a volume on which every later call answers as it would have, and from which this can go on. -/
theorem synced_files_restart {kmalloc : Nat → Bool} (memory : ∀ n < 5, kmalloc n = true) (ready : Restartable s F)
    {calls : List FileCall} (run : Run (fun s c t => FileStep F s c t ∧ ¬ Unnoticed s c) s calls t)
    (listed : SyncListed t F list) :
    ∃ u, sfsCleanup list info 31 t = .ok (0, u) ∧ ∀ fresh, fresh.disk = u.disk → fresh.dBlocks = u.dBlocks →
      ∃ v, sfsDoMount kmalloc SFS_BLKSIZE fresh = some (.ok v) ∧
        (∀ k ∈ F, sfsReadDin k v = .ok (.ok (t.inodes k).din, v)) ∧
        ∀ inodes : Nat → SfsInode, (∀ k ∈ F, inodes k = { din := (t.inodes k).din, dirty := false }) →
          Restartable { v with inodes } F ∧ (∀ k ∈ F, fileData { v with inodes } k = fileData t k) ∧
          ∀ later, Noticed F t later → Noticed F { v with inodes } later →
            answers { v with inodes } later = answers t later := by
  have keep : ∀ s c t, Restartable s F → FileStep F s c t ∧ ¬ Unnoticed s c → Restartable t F := by
    rintro s c t ready ⟨⟨mem, a, ok⟩, noticed⟩
    exact call_restartable ready mem noticed ok
  have ready' := run_invariant keep run ready
  obtain ⟨u, synced, restarts⟩ := sync_restarts info memory ready' listed
  refine ⟨u, cleanup_run synced, fun fresh disk device => ?_⟩
  obtain ⟨v, mounted, loads, again⟩ := restarts fresh disk device
  refine ⟨v, mounted, loads, fun inodes loaded => ?_⟩
  obtain ⟨after, alike⟩ := again inodes loaded
  refine ⟨after, alike.data, fun later noticed noticed' => ?_⟩
  exact answers_alike later ready'.files after.files ready'.clean after.clean alike noticed noticed'

end

/-- A volume of eight blocks as it has just been mounted; block 3 has the inode of an empty file, and those from 4 on are
free. -/
def labelled : Sfs :=
  let s : Sfs := {
    blocks := 8
    unusedBlocks := 4
    superDirty := false
    freemap := { nbits := 32768, nwords := 1024, map := fun w => if w = 0 then 240 else 0 }
    dBlocks := 8
    disk := fun b => if b = 3 then diskInodeBytes emptyFile else fun _ => 0
    inodes := fun _ => { din := emptyFile, dirty := false } }
  (s.setBlock SFS_BLKN_SUPER (superData (fun _ => 0) s)).setBlock SFS_BLKN_FREEMAP (freemapData s.freemap 0)

theorem labelled_bit (i : Nat) : labelled.freemap.bit i = decide (4 ≤ i ∧ i < 8) := by
  by_cases low : i < 32
  · have first : ∀ i < 32, labelled.freemap.bit i = decide (4 ≤ i ∧ i < 8) := by decide
    exact first i low
  · have word : labelled.freemap.map (i / 32) = 0 := if_neg (by omega)
    unfold Bitmap.bit
    rw [word, decide_eq_false (by omega)]
    exact BitVec.getLsbD_zero

theorem labelled_volume : Volume labelled := by
  refine ⟨by decide, by decide, by decide, by decide, fun i _ free => ?_, ?_⟩
  · rw [labelled_bit, decide_eq_true_iff] at free
    change i ≠ 0 ∧ i < 8
    omega
  · unfold Bitmap.freeCount
    rw [List.filter_congr fun i _ => labelled_bit i, count_between]
    decide

theorem labelled_restartable : Restartable labelled {3} := by
  have null : ∀ g, ∀ a : Slot, pointer labelled g a = 0 := by
    intro g a
    cases a with
    | data i => simp [pointer, labelled, Sfs.setBlock, emptyFile]
    | entries => rfl
  have volume := labelled_volume
  have size : sfsFreemapBlocks labelled.blocks = 1 := by decide
  have links : emptyFile.nlinks < 65536 ∧ emptyFile.nlinks ≠ 0 := by decide
  refine ⟨⟨null_maps volume null fun _ => rfl, fun _ _ => rfl, ?_, ?_, fun _ _ => links, fun _ _ _ _ => rfl⟩, ?_,
    ⟨by decide, by decide, fun i inside => ?_, fun i inside => ?_⟩, fun _ => ?_⟩
  · rintro k rfl
    exact ⟨by decide, fun g _ a _ => by rw [null]; decide⟩
  · intro k _
    change emptyFile.size < wordSize
    decide
  · rintro k rfl _ j _
    rfl
  · obtain rfl : i = 0 := by omega
    decide
  · obtain rfl : i = 0 := by omega
    refine ⟨by decide, fun g _ a _ => ?_⟩
    rw [null]
    decide
  · obtain ⟨magic, total, unused⟩ := super_data_fields (fun _ => 0) (s := labelled) (by decide) (by decide)
    refine ⟨magic, total, unused, fun i inside w _ => ?_⟩
    obtain rfl : i = 0 := by omega
    exact freemap_word labelled.freemap 0 w

theorem labelled_restarts : ∃ t u, Run (fun s c t => FileStep {3} s c t ∧ ¬ Unnoticed s c) labelled
      [.io true 3 0 5000 fun _ => 7, .truncate 3 3] t ∧
    sfsCleanup [3] (fun _ => 0) 31 t = .ok (0, u) ∧
    ∃ v, sfsDoMount (fun _ => true) SFS_BLKSIZE u = some (.ok v) ∧ sfsReadDin 3 v = .ok (.ok (t.inodes 3).din, v) := by
  have seen : endsWith (fun _ s => decide (¬ Unnoticed s (.truncate 3 3)) &&
        endsWith (fun _ _ => true) ((FileCall.truncate 3 3).run s))
      ((FileCall.io true 3 0 5000 fun _ => 7).run labelled) = true ∧
      ¬ Unnoticed labelled (.io true 3 0 5000 fun _ => 7) := by
    decide +kernel
  obtain ⟨a, s, wrote, rest⟩ := ends_with seen.1
  rw [Bool.and_eq_true] at rest
  obtain ⟨b, t, cut, _⟩ := ends_with rest.2
  have run : Run (fun s c t => FileStep {3} s c t ∧ ¬ Unnoticed s c) labelled
      [.io true 3 0 5000 fun _ => 7, .truncate 3 3] t :=
    .call ⟨⟨rfl, a, wrote⟩, seen.2⟩ (.call ⟨⟨rfl, b, cut⟩, of_decide_eq_true rest.1⟩ (.stop t))
  have listed : SyncListed t {3} [3] :=
    ⟨fun k mem _ => List.mem_singleton.mpr mem, fun k mem outside => absurd (List.mem_singleton.mp mem) outside⟩
  obtain ⟨u, synced, restarts⟩ := synced_files_restart (fun _ _ => rfl) labelled_restartable run listed
  obtain ⟨v, mounted, loads, _⟩ := restarts u rfl rfl
  exact ⟨t, u, run, synced, v, mounted, loads 3 rfl⟩

end Ucore
