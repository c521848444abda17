import Ucore.Fs.Sfs.SfsMount
import Ucore.Tools.MksfsClose

/- The kernel mounts what `mksfs` has written. -/
namespace Ucore.Mksfs
open Words Transitions
variable {s t : SfsFs} {b i j w x start stop ninos nextIno : Nat} {role : Nat → Role}

theorem freemap_words_fold (js : List Nat) (data : Nat → BitVec 32) (w : Nat) (low : i < 32) :
    ((js.foldl (fun data j => Function.update data (j / 32) (data (j / 32) ||| wordMask (j % 32))) data) w).getLsbD i =
      ((data w).getLsbD i || decide (w * 32 + i ∈ js)) := by
  induction js generalizing data with
  | nil => simp
  | cons j js ih =>
    rw [List.foldl_cons, ih]
    by_cases word : w = j / 32
    · subst word
      rw [Function.update_self, BitVec.getLsbD_or, word_mask_bit _ _ low]
      have place : i = j % 32 ↔ j / 32 * 32 + i = j := by omega
      simp [place, Bool.or_assoc]
    · have apart : w * 32 + i ≠ j := by omega
      rw [Function.update_of_ne word]
      simp [apart]

theorem freemap_words_bit (start stop w : Nat) (low : i < 32) :
    (freemapWords start stop w).getLsbD i = decide (start ≤ w * 32 + i ∧ w * 32 + i < stop) := by
  unfold freemapWords
  rw [freemap_words_fold _ _ w low]
  simp only [List.mem_range'_1, BitVec.ofNat_eq_ofNat, BitVec.getLsbD_zero, Bool.false_or, decide_eq_decide]
  omega

theorem cut_words {words : Nat → Nat} (fits : words w < wordSize) (inside : w < SFS_BLK_NENTRY) :
    field (cut SFS_BLKSIZE (wordsBytes words)) (w * 4) = words w := by
  unfold SFS_BLK_NENTRY at inside
  apply field_of_u32 fits
  intro j low
  unfold cut wordsBytes
  rw [if_pos (by unfold SFS_BLKSIZE; omega), show (w * 4 + j) / 4 = w by omega, show (w * 4 + j) % 4 = j by omega]

theorem cut_freemap_bit (inside : x < 32768) :
    (BitVec.ofNat 32 (field (cut SFS_BLKSIZE (wordsBytes fun w => (freemapWords start stop w).toNat)) (x / 32 * 4))).getLsbD (x % 32) =
      decide (start ≤ x / 32 * 32 + x % 32 ∧ x / 32 * 32 + x % 32 < stop) := by
  have word : x / 32 < SFS_BLK_NENTRY := by
    unfold SFS_BLK_NENTRY
    omega
  rw [cut_words (BitVec.isLt _) word, BitVec.ofNat_toNat, BitVec.setWidth_eq,
    freemap_words_bit _ _ _ (Nat.mod_lt x (by decide))]

/- A block of the freemap has the bits of the free blocks. -/
theorem freemap_block_bit (i : Nat) (inside : x < 32768) :
    (BitVec.ofNat 32 (field (cut SFS_BLKSIZE (freemapBlock ninos nextIno (i * SFS_BLKBITS))) (x / 32 * 4))).getLsbD (x % 32) =
      decide (nextIno ≤ i * 32768 + x ∧ i * 32768 + x < ninos) := by
  unfold freemapBlock SFS_BLKBITS
  split_ifs with later front back back
  · rw [cut_freemap_bit inside, decide_eq_decide]
    omega
  · rw [cut_freemap_bit inside, decide_eq_decide]
    omega
  · rw [cut_freemap_bit inside, decide_eq_decide]
    omega
  · rw [cut_freemap_bit inside, decide_eq_decide]
    omega
  · have zero : field (cut SFS_BLKSIZE fun _ => 0) (x / 32 * 4) = 0 := by
      apply bytes_u32_zero
      intro j
      unfold cut
      exact ite_self 0
    rw [zero, BitVec.getLsbD_zero, eq_comm, decide_eq_false_iff_not]
    omega

theorem super_field {k v : Nat} (fits : v < wordSize) (inside : k + 4 ≤ sizeofSuper)
    (bytes : ∀ j < 4, superBytes s (k + j) = u32Bytes v j) : field (cut sizeofSuper (superBytes s)) k = v := by
  apply field_of_u32 fits
  intro j low
  unfold cut
  rw [if_pos (by omega), bytes j low]

theorem closed_mountable {fresh : Sfs} (sound : MkSound role s) (closed : Closed s t) (disk : fresh.disk = t.image)
    (device : s.superBlocks ≤ fresh.dBlocks) : Mountable fresh s.superBlocks s.nextIno := by
  have small := sound.small
  have room := sound.room
  have first := sound.first
  have bound : s.ninos < wordSize := by
    unfold SFS_MAX_NBLKS at small
    unfold wordSize
    omega
  have super : fresh.disk Ucore.SFS_BLKN_SUPER = cut sizeofSuper (superBytes s) := by
    rw [disk]
    exact closed.super
  rw [sound.super] at device ⊢
  unfold sizeofSuper at super
  refine ⟨small, device, first, room, ?_, ?_, ?_, fun i inside x low => ?_⟩
  · rw [super]
    refine super_field (by decide) (by decide) fun j low => ?_
    rw [Nat.zero_add]
    exact if_pos low
  · rw [super]
    refine super_field bound (by decide) fun j low => ?_
    unfold superBytes
    rw [if_neg (by omega), if_pos (by omega), Nat.add_sub_cancel_left, sound.super]
  · rw [super]
    refine super_field (Nat.lt_of_le_of_lt (Nat.sub_le ..) bound) (by decide) fun j low => ?_
    unfold superBytes
    rw [if_neg (by omega), if_neg (by omega), if_pos (by omega), Nat.add_sub_cancel_left, sound.unused]
  · have block : fresh.disk (Ucore.SFS_BLKN_FREEMAP + i) =
        cut SFS_BLKSIZE (freemapBlock s.ninos s.nextIno (i * SFS_BLKBITS)) := by
      rw [disk]
      exact closed.freemap i inside
    rw [block]
    exact freemap_block_bit i low

/-- The blocks behind the freemap that hold something: an inode, pointers, or data and entries. -/
inductive Stored (s : SfsFs) : Nat → Prop where
  | inode {f : Nat} {ci : CacheInode} (known : s.inode f = some ci) : Stored s f
  | index {i b : Nat} (cached : b ∈ s.blocks i) : Stored s b
  | data {f i : Nat} {ci : CacheInode} (known : s.inode f = some ci) (inside : i < ci.nblks) : Stored s (blockOf s ci i)

/-- The blocks that hold something. -/
inductive Holder (s : SfsFs) : Nat → Prop where
  | super : Holder s SFS_BLKN_SUPER
  | root : Holder s SFS_BLKN_ROOT
  | freemap {i : Nat} (inside : i < (s.ninos + SFS_BLKBITS - 1) / SFS_BLKBITS) : Holder s (SFS_BLKN_FREEMAP + i)
  | stored {b : Nat} (stored : Stored s b) : Holder s b

theorem stored_allocated (sound : MkSound role s) (stored : Stored s b) : b = SFS_BLKN_ROOT ∨ Allocated s b := by
  cases stored with
  | inode known => exact (sound.known _ _ known).1
  | index cached => exact .inr (sound.cached _ _ cached).2.1
  | data known inside => exact .inr (file_data sound known inside).1

theorem holder_below (sound : MkSound role s) (holder : Holder s b) : b < s.nextIno := by
  have first := sound.first
  have two := two_le_first s.ninos
  cases holder with
  | super =>
    unfold SFS_BLKN_SUPER
    omega
  | root =>
    unfold SFS_BLKN_ROOT
    omega
  | freemap inside =>
    unfold firstIno at first
    omega
  | stored stored =>
    rcases stored_allocated sound stored with rfl | allocated
    · unfold SFS_BLKN_ROOT
      omega
    · exact allocated.2

/-- The kernel mounts every image that was written to its end. -/
theorem images_mount {stSize : Nat} {image : Nat → DiskBlock} {s₀ : SfsFs} {es : List MkEvent}
    (start : createSfs stSize image = some s₀) (run : Run MkStep s₀ es s) :
    ∃ t, closeSfs s = some t ∧
    ∀ (kmalloc : Nat → Bool) (fresh : Sfs), (∀ n < 5, kmalloc n = true) → fresh.disk = t.image →
      s.superBlocks ≤ fresh.dBlocks →
    ∃ v, sfsDoMount kmalloc SFS_BLKSIZE fresh = some (.ok v) ∧ v.blocks = s.superBlocks ∧ v.unusedBlocks = s.unusedBlocks ∧
      v.unusedBlocks = ((List.range v.blocks).filter v.freemap.bit).length ∧
      (∀ b < v.freemap.nbits, v.blocks ≤ b → v.freemap.bit b = false) ∧
      (∀ b, Holder s b → b < v.blocks ∧ v.freemap.bit b = false) ∧
      v.freemap.nbits = sfsFreemapBlocks v.blocks * SFS_BLKBITS ∧
      (∀ i, i < sfsFreemapBlocks v.blocks ↔ i < (s.ninos + SFS_BLKBITS - 1) / SFS_BLKBITS) ∧
      (∀ i < sfsFreemapBlocks v.blocks,
        v.disk (SFS_BLKN_FREEMAP + i) = cut SFS_BLKSIZE (freemapBlock s.ninos s.nextIno (i * SFS_BLKBITS))) ∧
      (∀ b, Stored s b → b = SFS_BLKN_ROOT ∨ SFS_BLKN_FREEMAP + sfsFreemapBlocks v.blocks ≤ b) ∧
      (fresh.dBlocks < 1048576 → Volume v) := by
  obtain ⟨role₀, sound₀, _⟩ := create_ok start
  obtain ⟨role, sound, _⟩ := run_grows run sound₀
  obtain ⟨t, close, closed⟩ := close_run sound
  refine ⟨t, close, fun kmalloc fresh memory disk device => ?_⟩
  have able := closed_mountable sound closed disk device
  obtain ⟨v, mount, mounted⟩ := mount_run kmalloc memory able
  have room := sound.room
  have small := able.small
  have total := mounted.total
  have nblks : sfsFreemapBlocks v.blocks = (s.ninos + SFS_BLKBITS - 1) / SFS_BLKBITS := by
    rw [total, (freemap_size (by omega)).1, sound.super]
    rfl
  have inside_map : v.blocks ≤ v.freemap.nbits := by
    rw [total, mounted.nbits]
    omega
  refine ⟨v, mount, total, ?_, ?_, fun b inside beyond => ?_, fun b holder => ?_, ?_, fun i => by rw [nblks],
    fun i inside => ?_, fun b stored => ?_, fun addressable => mounted_volume mounted able addressable⟩
  · rw [mounted.unused, sound.unused, sound.super]
  · rw [mounted.unused, List.filter_congr fun i mem =>
      mounted.bits i (Nat.lt_of_lt_of_le (List.mem_range.mp mem) inside_map), count_between, total]
    have := able.room
    omega
  · rw [mounted.bits b inside, decide_eq_false_iff_not]
    omega
  · have below := holder_below sound holder
    have inside : b < v.blocks := by
      rw [total, sound.super]
      omega
    refine ⟨inside, ?_⟩
    rw [mounted.bits b (by omega), decide_eq_false_iff_not]
    omega
  · rw [mounted.nbits, total, (freemap_size (by omega)).1]
    rfl
  · rw [nblks] at inside
    rw [mounted.disk, disk]
    exact closed.freemap i inside
  · rw [nblks]
    exact (stored_allocated sound stored).imp_right fun allocated => allocated.1

/- A device with the image on it, before it is mounted. -/
def unmounted (dBlocks : Nat) (disk : Nat → DiskBlock) : Sfs where
  blocks := 0
  unusedBlocks := 0
  superDirty := false
  freemap := ⟨0, 0, fun _ => 0⟩
  dBlocks
  disk
  inodes := fun _ => ⟨⟨0, .inval, 0, 0, fun _ => 0, 0⟩, false⟩

/- Four blocks, and a directory in the last of them. -/
theorem small_image_mounts :
    ∃ s t v, closeSfs s = some t ∧ sfsDoMount (fun _ => true) SFS_BLKSIZE (unmounted 4 t.image) = some (.ok v) ∧
      v.blocks = 4 ∧ v.unusedBlocks = 0 ∧ Volume v := by
  obtain ⟨s₀, start⟩ : ∃ s₀, createSfs 16384 (fun _ _ => 0) = some s₀ := Option.isSome_iff_exists.mp rfl
  obtain ⟨s, done⟩ : ∃ s, replay SfsFs.call s₀ [.newDir 7] = some s := by
    cases start
    exact Option.isSome_iff_exists.mp rfl
  have size : s.superBlocks = 4 ∧ s.unusedBlocks = 0 := by
    cases start
    cases done
    exact ⟨rfl, rfl⟩
  obtain ⟨t, close, mounts⟩ := images_mount start (replay_run done)
  obtain ⟨v, mount, blocks, unused, _, _, _, _, _, _, _, volume⟩ :=
    mounts (fun _ => true) (unmounted 4 t.image) (fun _ _ => rfl) rfl (Nat.le_of_eq size.1)
  exact ⟨s, t, v, close, mount, blocks.trans size.1, unused.trans size.2, volume (show 4 < 1048576 by decide)⟩

end Ucore.Mksfs
