import Ucore.Fs.Sfs.SfsInode

/- The block maps of a set of regular files on a mounted volume, and what the block-level
   functions do there. -/
namespace Ucore
open Programs Words

def InUse (s : Sfs) (b : Nat) : Prop := b ≠ 0 ∧ b < s.blocks ∧ s.freemap.bit b = false

instance (s : Sfs) (b : Nat) : Decidable (InUse s b) :=
  inferInstanceAs (Decidable (b ≠ 0 ∧ b < s.blocks ∧ s.freemap.bit b = false))

/- What mounting establishes: the volume fits its device, whose length in bytes is an
   `unsigned int`, free bits are those of data blocks, and the super block counts them. -/
structure Volume (s : Sfs) : Prop where
  device : s.blocks ≤ s.dBlocks
  addressable : s.dBlocks < 1048576
  words : s.freemap.nbits = s.freemap.nwords * 32
  covered : s.blocks ≤ s.freemap.nbits
  free : ∀ i < s.freemap.nwords * 32, s.freemap.bit i = true → i ≠ 0 ∧ i < s.blocks
  counted : s.unusedBlocks = s.freemap.freeCount

section Blocks
variable {s : Sfs} {b : Nat}

theorem disk_block_run (volume : Volume s) (inside : b < s.blocks) :
    disk0Block s (u32 (b * SFS_BLKSIZE : Nat)) = .ok b := by
  have device := volume.device
  have addressable := volume.addressable
  have offset : u32 (b * SFS_BLKSIZE : Nat) = b * SFS_BLKSIZE := by
    apply u32_of_nat
    simp only [SFS_BLKSIZE, wordSize]
    omega
  have aligned : b * SFS_BLKSIZE % SFS_BLKSIZE = 0 := Nat.mul_mod_left b SFS_BLKSIZE
  have back : b * SFS_BLKSIZE / SFS_BLKSIZE = b := Nat.mul_div_cancel b (by decide)
  unfold disk0Block
  rw [offset, back, if_neg (by omega), if_neg (by omega)]

theorem read_block_run (volume : Volume s) (nonzero : b ≠ 0) (inside : b < s.blocks) :
    sfsReadBlock b s = .ok (.ok (s.disk b), s) := by
  unfold sfsReadBlock
  rw [run_get_bind, run_check_bind ⟨nonzero, inside⟩, disk_block_run volume inside]
  rfl

theorem write_block_run (volume : Volume s) (nonzero : b ≠ 0) (inside : b < s.blocks)
    (data : DiskBlock) :
    sfsWriteBlock b data s = .ok (0, { s with disk := Function.update s.disk b data }) := by
  unfold sfsWriteBlock
  rw [run_get_bind, run_check_bind ⟨nonzero, inside⟩, disk_block_run volume inside]
  rfl

theorem rbuf_run (volume : Volume s) (nonzero : b ≠ 0) (inside : b < s.blocks) {len offset : Nat}
    (start : offset < SFS_BLKSIZE) (fits : offset + len ≤ SFS_BLKSIZE) :
    sfsRbuf len b offset s = .ok (.ok fun i => s.disk b (offset + i), s) := by
  unfold sfsRbuf
  rw [run_check_bind ⟨start, fits⟩, run_bind (read_block_run volume nonzero inside)]
  rfl

theorem wbuf_run (volume : Volume s) (nonzero : b ≠ 0) (inside : b < s.blocks) {len offset : Nat}
    (buf : DiskBlock) (start : offset < SFS_BLKSIZE) (fits : offset + len ≤ SFS_BLKSIZE) :
    sfsWbuf buf len b offset s =
      .ok (0, { s with disk := Function.update s.disk b (overlay (s.disk b) buf len offset) }) := by
  unfold sfsWbuf
  rw [run_check_bind ⟨start, fits⟩, run_bind (read_block_run volume nonzero inside)]
  exact write_block_run volume nonzero inside _

theorem block_inuse_run (volume : Volume s) (nonzero : b ≠ 0) (inside : b < s.blocks) :
    sfsBlockInuse b s = .ok (!s.freemap.bit b, s) := by
  have covered := volume.covered
  unfold sfsBlockInuse
  rw [run_get_bind, run_check_bind ⟨nonzero, inside⟩, bitmap_test_bit (by omega)]
  rfl

theorem assert_inuse_run (volume : Volume s) (inuse : InUse s b) :
    sfsAssertInuse b s = .ok ((), s) := by
  unfold sfsAssertInuse
  rw [run_bind (block_inuse_run volume inuse.1 inuse.2.1), inuse.2.2]
  exact run_check rfl

/-- One free block has been taken and cleared. -/
structure Taken (s : Sfs) (b : Nat) (t : Sfs) : Prop where
  nonzero : b ≠ 0
  inside : b < s.blocks
  free : s.freemap.bit b = true
  blocks : t.blocks = s.blocks
  inodes : t.inodes = s.inodes
  disk : t.disk = Function.update s.disk b fun _ => 0
  bits : ∀ j, t.freemap.bit j = if j = b then false else s.freemap.bit j
  unused : t.unusedBlocks + 1 = s.unusedBlocks
  volume : Volume t

theorem block_alloc_run (volume : Volume s) (room : 0 < s.unusedBlocks) :
    ∃ b t, sfsBlockAlloc s = .ok (.ok b, t) ∧ Taken s b t := by
  have counted := volume.counted
  obtain ⟨b, freemap, found, inside, free, _, nbits, nwords, bits⟩ :=
    bitmap_alloc_lowest (free_count_pos (by omega : 0 < s.freemap.freeCount))
  obtain ⟨nonzero, below⟩ := volume.free b inside free
  have taken := free_count_take inside free nwords bits
  let marked : Sfs := { s with freemap, unusedBlocks := s.unusedBlocks - 1, superDirty := true }
  have markedVolume : Volume marked := by
    refine ⟨volume.device, volume.addressable, ?_, ?_, ?_, ?_⟩
    · change freemap.nbits = freemap.nwords * 32
      rw [nbits, nwords, volume.words]
    · change s.blocks ≤ freemap.nbits
      rw [nbits]
      exact volume.covered
    · intro i low bit
      have bit : freemap.bit i = true := bit
      rw [bits i] at bit
      have low : i < freemap.nwords * 32 := low
      rw [nwords] at low
      by_cases same : i = b
      · simp [same] at bit
      · exact volume.free i low (by simpa [same] using bit)
    · change s.unusedBlocks - 1 = freemap.freeCount
      omega
  have inuse : InUse marked b := ⟨nonzero, below, by simpa using bits b⟩
  refine ⟨b, { marked with disk := Function.update marked.disk b fun _ => 0 }, ?_, nonzero, below,
    free, rfl, rfl, rfl, bits, by change s.unusedBlocks - 1 + 1 = _; omega, ?_⟩
  · unfold sfsBlockAlloc
    rw [run_get_bind, found]
    change (check SfsStop.assertion (s.unusedBlocks > 0) >>= _) s = _
    rw [run_check_bind room, run_set_bind, run_bind (assert_inuse_run markedVolume inuse)]
    have cleared : sfsClearBlock b marked = .ok (0, _) :=
      write_block_run markedVolume nonzero below _
    rw [run_bind cleared]
    rfl
  · exact ⟨markedVolume.device, markedVolume.addressable, markedVolume.words,
      markedVolume.covered, markedVolume.free, markedVolume.counted⟩

theorem block_alloc_full (volume : Volume s) (full : s.unusedBlocks = 0) :
    sfsBlockAlloc s = .ok (.error (-E_NO_MEM), s) := by
  have counted := volume.counted
  have none_free := free_count_zero (by omega : s.freemap.freeCount = 0)
  unfold sfsBlockAlloc
  rw [run_get_bind, bitmap_alloc_full none_free]
  rfl

/-- One block has been given back. -/
structure Released (s : Sfs) (b : Nat) (t : Sfs) : Prop where
  blocks : t.blocks = s.blocks
  inodes : t.inodes = s.inodes
  disk : t.disk = s.disk
  bits : ∀ j, t.freemap.bit j = if j = b then true else s.freemap.bit j
  unused : t.unusedBlocks = s.unusedBlocks + 1
  volume : Volume t

/- A volume counts fewer than 2^32 blocks. -/
theorem unused_fits (volume : Volume s) : s.unusedBlocks ≤ s.blocks := by
  rw [volume.counted]
  unfold Bitmap.freeCount
  have subset : (List.range (s.freemap.nwords * 32)).filter s.freemap.bit ⊆ List.range s.blocks := by
    intro i mem
    simp only [List.mem_filter, List.mem_range] at mem ⊢
    exact (volume.free i mem.1 mem.2).2
  have := ((List.nodup_range.filter _).subperm subset).length_le
  rwa [List.length_range] at this

theorem block_free_run (volume : Volume s) (inuse : InUse s b) :
    ∃ t, sfsBlockFree b s = .ok ((), t) ∧ Released s b t := by
  have covered := volume.covered
  have words := volume.words
  have inside := inuse.2.1
  obtain ⟨freemap, found, nbits, nwords, bits⟩ :=
    bitmap_free_used (b := s.freemap) (by omega : b < s.freemap.nbits) inuse.2.2
  have taken : s.freemap.freeCount + 1 = freemap.freeCount := by
    apply free_count_take (i := b) (by omega) (by rw [bits b, if_pos rfl]) nwords.symm
    intro j
    rw [bits j]
    split_ifs with same
    · rw [same, inuse.2.2]
    · rfl
  have fits : u32 (s.unusedBlocks + 1) = s.unusedBlocks + 1 := by
    have small := unused_fits volume
    have device := volume.device
    have addressable := volume.addressable
    apply u32_exact (by omega)
    unfold wordSize
    omega
  refine ⟨{ s with freemap, unusedBlocks := u32 (s.unusedBlocks + 1), superDirty := true }, ?_,
    rfl, rfl, rfl, bits, fits, ?_⟩
  · unfold sfsBlockFree
    rw [run_bind (assert_inuse_run volume inuse), run_get_bind, found]
    rfl
  · refine ⟨volume.device, volume.addressable, ?_, ?_, ?_, ?_⟩
    · change freemap.nbits = freemap.nwords * 32
      rw [nbits, nwords, words]
    · change s.blocks ≤ freemap.nbits
      rw [nbits]
      exact covered
    · intro i low bit
      have bit : freemap.bit i = true := bit
      have low : i < freemap.nwords * 32 := low
      rw [bits i] at bit
      rw [nwords] at low
      by_cases same : i = b
      · rw [same]
        exact ⟨inuse.1, inside⟩
      · exact volume.free i low (by simpa [same] using bit)
    · change u32 (s.unusedBlocks + 1) = freemap.freeCount
      rw [fits, volume.counted, taken]

end Blocks

theorem inode_run {s : Sfs} {k : Nat} : sfsInode k s = .ok (s.inodes k, s) := rfl

def Sfs.setDin (s : Sfs) (k : Nat) (f : SfsDiskInode → SfsDiskInode) (dirty : Bool) : Sfs :=
  { s with inodes := (Function.update s.inodes k
      { din := f (s.inodes k).din, dirty := dirty || (s.inodes k).dirty }) }

theorem set_din_run {s : Sfs} {k : Nat} {f : SfsDiskInode → SfsDiskInode} {dirty : Bool} :
    sfsSetDin k f dirty s = .ok ((), s.setDin k f dirty) := rfl

def entry (s : Sfs) (ent i : Nat) : Nat := bytesU32 fun j => s.disk ent (i * 4 + j)

/-- What an inode points to: the blocks of its data, and its entry block. -/
inductive Slot where
  | data (i : Nat)
  | entries
  deriving DecidableEq

def Slot.Valid : Slot → Prop
  | .data i => i < SFS_NDIRECT + SFS_BLK_NENTRY
  | .entries => True

def pointer (s : Sfs) (k : Nat) : Slot → Nat
  | .data i =>
      if i < SFS_NDIRECT then (s.inodes k).din.direct i
      else if (s.inodes k).din.indirect = 0 then 0
      else entry s (s.inodes k).din.indirect (i - SFS_NDIRECT)
  | .entries => (s.inodes k).din.indirect

/- The map of one file: its blocks are in use, and nothing is mapped above them. -/
structure FileMap (s : Sfs) (k : Nat) : Prop where
  bounded : (s.inodes k).din.blocks ≤ SFS_NDIRECT + SFS_BLK_NENTRY
  below : ∀ i < (s.inodes k).din.blocks, InUse s (pointer s k (.data i))
  above : ∀ i, (s.inodes k).din.blocks ≤ i → i < SFS_NDIRECT + SFS_BLK_NENTRY →
    pointer s k (.data i) = 0
  entries : (s.inodes k).din.indirect ≠ 0 → InUse s (s.inodes k).din.indirect

structure BlockMaps (s : Sfs) (F : Set Nat) : Prop where
  volume : Volume s
  map : ∀ k ∈ F, FileMap s k
  unshared : ∀ f ∈ F, ∀ g ∈ F, ∀ a b : Slot, a.Valid → b.Valid → pointer s f a ≠ 0 →
    pointer s f a = pointer s g b → f = g ∧ a = b

theorem bytes_u32_bytes {v : Nat} (fits : v < wordSize) : bytesU32 (u32Bytes v) = v := by
  unfold wordSize at fits
  simp only [bytesU32, u32Bytes, UInt8.toNat_ofNat', Nat.pow_zero, Nat.div_one]
  omega

theorem bytes_u32_zero {b : DiskBlock} (zero : ∀ i, b i = 0) : bytesU32 b = 0 := by
  simp [bytesU32, zero]

theorem bytes_u32_congr {b c : DiskBlock} (same : ∀ i < 4, b i = c i) : bytesU32 b = bytesU32 c := by
  simp [bytesU32, same]

section Pointers
variable {s t : Sfs} {F : Set Nat} {k : Nat}

theorem pointer_inuse (maps : BlockMaps s F) (mem : k ∈ F) {a : Slot} (valid : a.Valid)
    (nonzero : pointer s k a ≠ 0) : InUse s (pointer s k a) := by
  have map := maps.map k mem
  cases a with
  | entries => exact map.entries nonzero
  | data i =>
    by_cases low : i < (s.inodes k).din.blocks
    · exact map.below i low
    · exact absurd (map.above i (by omega) valid) nonzero

/- A map is read off its inode and its entry block. -/
theorem pointer_congr (inode : t.inodes k = s.inodes k)
    (entries : (s.inodes k).din.indirect ≠ 0 →
      ∀ j < SFS_BLKSIZE, t.disk (s.inodes k).din.indirect j = s.disk (s.inodes k).din.indirect j)
    {a : Slot} (valid : a.Valid) : pointer t k a = pointer s k a := by
  cases a with
  | entries => simp [pointer, inode]
  | data i =>
    simp only [pointer, inode]
    by_cases direct : i < SFS_NDIRECT
    · simp [direct]
    · by_cases none_yet : (s.inodes k).din.indirect = 0
      · simp [none_yet]
      · simp only [direct, none_yet, ↓reduceIte]
        apply bytes_u32_congr
        intro j low
        apply entries none_yet
        simp only [Slot.Valid, SFS_NDIRECT, SFS_BLK_NENTRY, SFS_BLKSIZE] at *
        omega

end Pointers

end Ucore
