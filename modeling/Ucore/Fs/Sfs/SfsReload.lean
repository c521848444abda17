import Ucore.Fs.Sfs.SfsKinds
import Ucore.Fs.Sfs.SfsTruncfile

/- An inode that leaves memory and is loaded again: `sfs_fsync`, and the bytes of a disk
   inode. -/
namespace Ucore
open Programs Words

/-- `sfs_load_inode`, up to the inode it makes. -/
def sfsReadDin (ino : Nat) : SfsM (Except Int SfsDiskInode) := do
  sfsAssertInuse ino
  match ← sfsRbuf sizeofDiskInode ino 0 with
  | .error ret => return .error ret
  | .ok bytes =>
      check .assertion ((bytesDiskInode bytes).nlinks ≠ 0)
      return .ok (bytesDiskInode bytes)

/-- What `sfs_reclaim` and then `sfs_load_inode` do with a file that has links. -/
def sfsReload (k : Nat) : SfsM Int := do
  let ret ← sfsFsync k
  if ret ≠ 0 then return ret
  else
    match ← sfsReadDin k with
    | .error ret => return ret
    | .ok din =>
        modify fun s => { s with inodes := Function.update s.inodes k { din, dirty := false } }
        return 0

/-- The fields of an inode fit their places on disk. -/
structure Encodable (din : SfsDiskInode) : Prop where
  size : din.size < wordSize
  nlinks : din.nlinks < 65536
  linked : din.nlinks ≠ 0
  blocks : din.blocks < wordSize
  direct : ∀ i, din.direct i < wordSize
  tail : ∀ i, SFS_NDIRECT ≤ i → din.direct i = 0
  indirect : din.indirect < wordSize

/-- The inode block holds the inode. -/
def HoldsInode (block : DiskBlock) (din : SfsDiskInode) : Prop :=
  ∀ j < sizeofDiskInode, block j = diskInodeBytes din j

section
variable {din : SfsDiskInode} {block : DiskBlock}

theorem field_of_u32 {offset v : Nat} (fits : v < wordSize)
    (bytes : ∀ j < 4, block (offset + j) = u32Bytes v j) : field block offset = v := by
  unfold field
  rw [bytes_u32_congr bytes]
  exact bytes_u32_bytes fits

theorem of_code_code (type : SfsType) : SfsType.ofCode type.code = type := by
  cases type <;> rfl

theorem code_lt (type : SfsType) : type.code < 4 := by
  cases type <;> decide

/- Whether the inode is linked does not matter here. -/
theorem disk_inode_of_bytes (size_fits : din.size < wordSize) (nlinks_fits : din.nlinks < 65536)
    (blocks_fits : din.blocks < wordSize) (direct_fits : ∀ i, din.direct i < wordSize)
    (tail : ∀ i, SFS_NDIRECT ≤ i → din.direct i = 0) (indirect_fits : din.indirect < wordSize)
    (written : HoldsInode block din) : bytesDiskInode block = din := by
  unfold HoldsInode sizeofDiskInode at written
  have size : field block 0 = din.size := by
    apply field_of_u32 size_fits
    intro j low
    rw [written _ (by omega), Nat.zero_add]
    exact if_pos low
  have kind : field block 4 = din.type.code + 65536 * din.nlinks := by
    have links := nlinks_fits
    have code := code_lt din.type
    apply field_of_u32 (by unfold wordSize; omega)
    intro j low
    rw [written _ (by omega)]
    unfold diskInodeBytes
    rw [if_neg (by omega), if_pos (by omega), Nat.add_sub_cancel_left]
  have blocks : field block 8 = din.blocks := by
    apply field_of_u32 blocks_fits
    intro j low
    rw [written _ (by omega)]
    unfold diskInodeBytes
    rw [if_neg (by omega), if_neg (by omega), if_pos (by omega), Nat.add_sub_cancel_left]
  have direct : ∀ i < SFS_NDIRECT, field block (12 + 4 * i) = din.direct i := by
    intro i inside
    unfold SFS_NDIRECT at inside
    apply field_of_u32 (direct_fits i)
    intro j low
    rw [written _ (by omega)]
    unfold diskInodeBytes
    rw [if_neg (by omega), if_neg (by omega), if_neg (by omega), if_pos (by omega),
      show (12 + 4 * i + j - 12) / 4 = i by omega, show (12 + 4 * i + j - 12) % 4 = j by omega]
  have indirect : field block 60 = din.indirect := by
    apply field_of_u32 indirect_fits
    intro j low
    rw [written _ (by omega)]
    unfold diskInodeBytes
    rw [if_neg (by omega), if_neg (by omega), if_neg (by omega), if_neg (by omega),
      Nat.add_sub_cancel_left]
  have code := code_lt din.type
  have entries : (fun i => if i < SFS_NDIRECT then field block (12 + 4 * i) else 0) = din.direct := by
    funext i
    split_ifs with inside
    · exact direct i inside
    · exact (tail i (by omega)).symm
  unfold bytesDiskInode
  rw [size, kind, blocks, indirect, entries, show (din.type.code + 65536 * din.nlinks) % 65536 =
      din.type.code by omega, show (din.type.code + 65536 * din.nlinks) / 65536 = din.nlinks by omega,
    of_code_code]

/-- An inode comes back from its block as it was written. -/
theorem disk_inode_round_trip (fits : Encodable din) (written : HoldsInode block din) :
    bytesDiskInode block = din :=
  disk_inode_of_bytes fits.size fits.nlinks fits.blocks fits.direct fits.tail fits.indirect written

end

section
variable {s : Sfs} {k : Nat}

/-- The state when inode `k` has been written back. -/
def synced (s : Sfs) (k : Nat) : Sfs :=
  if (s.inodes k).dirty then
    { s with
      inodes := Function.update s.inodes k { s.inodes k with dirty := false }
      disk := Function.update s.disk k
        (overlay (s.disk k) (diskInodeBytes (s.inodes k).din) sizeofDiskInode 0) }
  else s

theorem fsync_run (volume : Volume s) (inuse : InUse s k) :
    sfsFsync k s = .ok (0, synced s k) := by
  unfold sfsFsync synced
  rw [run_bind inode_run]
  by_cases dirty : (s.inodes k).dirty
  · have volume' : Volume { s with
        inodes := Function.update s.inodes k { s.inodes k with dirty := false } } :=
      ⟨volume.device, volume.addressable, volume.words, volume.covered, volume.free, volume.counted⟩
    rw [if_pos dirty, if_pos dirty]
    unfold sfsSetDirty
    rw [run_modify_bind, run_bind (wbuf_run volume' inuse.1 inuse.2.1 _ (by decide) (by decide))]
    rfl
  · rw [if_neg dirty, if_neg dirty]
    rfl

theorem synced_clean : ((synced s k).inodes k).dirty = false := by
  unfold synced
  split_ifs with dirty
  · simp
  · simpa using dirty

theorem synced_din (g : Nat) : ((synced s k).inodes g).din = (s.inodes g).din := by
  unfold synced
  split_ifs
  · by_cases same : g = k
    · subst g
      simp
    · simp [same]
  · rfl

theorem synced_written (clean : (s.inodes k).dirty = false → HoldsInode (s.disk k) (s.inodes k).din) :
    HoldsInode ((synced s k).disk k) (s.inodes k).din := by
  unfold synced
  split_ifs with dirty
  · intro j inside
    simp only [Function.update_self]
    unfold overlay
    rw [if_pos ⟨Nat.zero_le j, by omega⟩, Nat.sub_zero]
  · exact clean (by simpa using dirty)

theorem read_din_run {din : SfsDiskInode} (volume : Volume s) (inuse : InUse s k) (fits : Encodable din)
    (written : HoldsInode (s.disk k) din) : sfsReadDin k s = .ok (.ok din, s) := by
  have back : bytesDiskInode (fun j => s.disk k (0 + j)) = din := by
    apply disk_inode_round_trip fits
    intro j inside
    change s.disk k (0 + j) = _
    rw [Nat.zero_add]
    exact written j inside
  unfold sfsReadDin
  rw [run_bind (assert_inuse_run volume inuse),
    run_bind (rbuf_run volume inuse.1 inuse.2.1 (by decide) (by decide))]
  dsimp only
  rw [back, run_check_bind fits.linked]
  rfl

/-- Leaving memory and coming back is writing the inode back. -/
theorem reload_run (volume : Volume s) (inuse : InUse s k) (fits : Encodable (s.inodes k).din)
    (clean : (s.inodes k).dirty = false → HoldsInode (s.disk k) (s.inodes k).din) :
    sfsReload k s = .ok (0, synced s k) := by
  have volume' : Volume (synced s k) := by
    unfold synced
    split_ifs
    · exact ⟨volume.device, volume.addressable, volume.words, volume.covered, volume.free,
        volume.counted⟩
    · exact volume
  have inuse' : InUse (synced s k) k := by
    unfold synced
    split_ifs
    · exact inuse
    · exact inuse
  have read := read_din_run volume' inuse' fits (synced_written clean)
  have same : Function.update (synced s k).inodes k { din := (s.inodes k).din, dirty := false } =
      (synced s k).inodes := by
    funext g
    by_cases here : g = k
    · subst g
      rw [Function.update_self, ← synced_din (s := s) (k := k) k, ← synced_clean (s := s) (k := k)]
    · rw [Function.update_of_ne here]
  unfold sfsReload
  rw [run_bind (fsync_run volume inuse), if_neg (by decide), run_bind read]
  dsimp only
  rw [run_modify_bind, same]
  rfl

end

end Ucore
