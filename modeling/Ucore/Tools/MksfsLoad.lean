import Ucore.Fs.Sfs.SfsFileData
import Ucore.Tools.MksfsMount

/- The files of a finished image as the kernel sees them when it has loaded their inodes. -/
namespace Ucore.Mksfs
open Words Transitions Programs
variable {s t : SfsFs} {b f i j k n : Nat} {ci : CacheInode} {role : Nat → Role} {fresh v : Sfs}

/-- The inode that the kernel reads. -/
def kernelInode (inode : DiskInode) : SfsDiskInode where
  size := inode.size % wordSize
  type := inode.type
  nlinks := inode.nlinks % 65536
  blocks := inode.blocks
  direct := fun i => if i < SFS_NDIRECT then inode.direct i else 0
  indirect := inode.indirect

/- The inode `k` as `sfs_load_inode` puts it into memory. -/
def loaded (v : Sfs) (k : Nat) : Sfs :=
  { v with inodes := Function.update v.inodes k { din := bytesDiskInode (v.disk k), dirty := false } }

theorem allocated_lt (sound : MkSound role s) (allocated : Allocated s b) : b < wordSize := by
  have room := sound.room
  have small := sound.small
  have below := allocated.2
  unfold SFS_MAX_NBLKS at small
  unfold wordSize
  omega

theorem u32_bytes_mod (v : Nat) (low : j < 4) : u32Bytes (v % wordSize) j = u32Bytes v j := by
  unfold u32Bytes
  apply UInt8.toNat_inj.mp
  rw [UInt8.toNat_ofNat', UInt8.toNat_ofNat']
  unfold wordSize
  interval_cases j <;> omega

theorem pointer_fits (sound : MkSound role s) (ok : FileOk role s f ci) (i : Nat) (low : i < SFS_NDIRECT) :
    ci.inode.direct i < wordSize := by
  by_cases inside : i < ci.nblks
  · have block := (ok.data i inside).1
    unfold blockOf at block
    rw [if_pos (show i < SFS_L0_NBLKS from low)] at block
    exact allocated_lt sound block
  · rw [ok.direct i (by omega)]
    decide

theorem indirect_fits (sound : MkSound role s) (ok : FileOk role s f ci) : ci.inode.indirect < wordSize := by
  by_cases few : ci.nblks ≤ SFS_L0_NBLKS
  · rw [ok.noIndirect few]
    decide
  · exact allocated_lt sound (ok.indirect (by omega)).allocated

/- Both layouts of an inode agree, but for what the kernel has no place for. -/
theorem loaded_inode (sound : MkSound role s) (known : s.inode k = some ci) :
    bytesDiskInode (cut sizeofInode (inodeBytes ci.inode)) = kernelInode ci.inode := by
  obtain ⟨_, _, ok⟩ := sound.known k ci known
  have count := ok.count
  have code := code_lt ci.inode.type
  apply disk_inode_of_bytes
  · exact Nat.mod_lt _ (by decide)
  · exact Nat.mod_lt _ (by decide)
  · change ci.inode.blocks < wordSize
    rw [ok.blocks]
    unfold SFS_LN_NBLKS SFS_MAX_FILE_SIZE SFS_BLKSIZE at count
    unfold wordSize
    omega
  · intro i
    unfold kernelInode
    dsimp only
    split_ifs with low
    · exact pointer_fits sound ok i low
    · decide
  · intro i high
    exact if_neg (by omega)
  · exact indirect_fits sound ok
  · intro j low
    unfold sizeofDiskInode at low
    unfold cut
    rw [if_pos (by unfold sizeofInode; omega)]
    unfold inodeBytes diskInodeBytes kernelInode
    split_ifs with size links blocks direct
    · exact (u32_bytes_mod _ (by omega)).symm
    · rw [← u32_bytes_mod (ci.inode.type.code + 65536 * ci.inode.nlinks) (by omega)]
      congr 1
      dsimp only
      unfold wordSize
      omega
    · rfl
    · dsimp only
      rw [if_pos (by unfold SFS_NDIRECT; omega)]
    · rfl

theorem closed_data (sound : MkSound role s) (closed : Closed s t) (known : s.inode k = some ci) (inside : i < ci.nblks) :
    t.image (blockOf s ci i) = s.image (blockOf s ci i) := by
  obtain ⟨allocated, here⟩ := file_data sound known inside
  apply closed.data _ allocated
  · cases there : s.inode (blockOf s ci i) with
    | none => rfl
    | some c => cases here.symm.trans (sound.known _ c there).2.1
  · intro mem
    obtain ⟨_, _, g, m, index⟩ := sound.cached 0 _ mem
    cases here.symm.trans index

theorem allocated_inuse (sound : MkSound role s) (mounted : JustMounted fresh s.superBlocks s.nextIno v)
    (allocated : Allocated s b) : InUse v b := by
  have room := sound.room
  have small := sound.small
  have below := allocated.2
  unfold SFS_MAX_NBLKS at small
  have total := mounted.total
  rw [sound.super] at total
  have covered : b < v.freemap.nbits := by
    rw [mounted.nbits, sound.super]
    omega
  refine ⟨allocated.nonzero, by omega, ?_⟩
  rw [mounted.bits b covered, decide_eq_false_iff_not]
  omega

/-- An image that the kernel has mounted, and a file of it whose inode it has loaded. -/
structure Opened (role : Nat → Role) (s t : SfsFs) (fresh v : Sfs) (k : Nat) (ci : CacheInode) : Prop where
  sound : MkSound role s
  closed : Closed s t
  mounted : JustMounted fresh s.superBlocks s.nextIno v
  volume : Volume v
  disk : v.disk = t.image
  known : s.inode k = some ci

theorem Opened.din (opened : Opened role s t fresh v k ci) : ((loaded v k).inodes k).din = kernelInode ci.inode := by
  unfold loaded
  dsimp only
  rw [Function.update_self, opened.disk, opened.closed.inode k ci opened.known]
  exact loaded_inode opened.sound opened.known

theorem Opened.blocks (opened : Opened role s t fresh v k ci) : ((loaded v k).inodes k).din.blocks = ci.nblks := by
  rw [opened.din]
  exact (opened.sound.known k ci opened.known).2.2.blocks

theorem Opened.loadedVolume (opened : Opened role s t fresh v k ci) : Volume (loaded v k) :=
  ⟨opened.volume.device, opened.volume.addressable, opened.volume.words, opened.volume.covered, opened.volume.free,
    opened.volume.counted⟩

/- The indirect block as it lies on the disk. -/
theorem Opened.entry (opened : Opened role s t fresh v k ci) (more : SFS_L0_NBLKS < ci.nblks) (inside : i < SFS_BLK_NENTRY) :
    Ucore.entry (loaded v k) ci.inode.indirect i = s.cache ci.inode.indirect i := by
  have ok := (opened.sound.known k ci opened.known).2.2
  have indexed := ok.indirect more
  have fits : s.cache ci.inode.indirect i < wordSize := by
    by_cases below : SFS_L0_NBLKS + i < ci.nblks
    · have block := (ok.data _ below).1
      unfold blockOf at block
      rw [if_neg (by omega), if_pos (by unfold SFS_L1_NBLKS; omega), Nat.add_sub_cancel_left] at block
      exact allocated_lt opened.sound block
    · rw [ok.rest more i (by omega)]
      decide
  have block : (loaded v k).disk ci.inode.indirect = cut SFS_BLKSIZE (wordsBytes (s.cache ci.inode.indirect)) := by
    change v.disk ci.inode.indirect = _
    rw [opened.disk]
    exact opened.closed.index _ indexed.cached
  unfold Ucore.entry
  rw [block]
  exact cut_words fits inside

theorem Opened.pointer (opened : Opened role s t fresh v k ci) (inside : i < ci.nblks) (low : i < SFS_NDIRECT + SFS_BLK_NENTRY) :
    Ucore.pointer (loaded v k) k (.data i) = blockOf s ci i := by
  have ok := (opened.sound.known k ci opened.known).2.2
  unfold Ucore.pointer blockOf
  rw [opened.din]
  dsimp only
  by_cases direct : i < SFS_NDIRECT
  · rw [if_pos direct, if_pos (show i < SFS_L0_NBLKS from direct)]
    exact if_pos direct
  · have more : SFS_L0_NBLKS < ci.nblks := by
      unfold SFS_L0_NBLKS
      omega
    have single : i < SFS_L1_NBLKS := by
      unfold SFS_L1_NBLKS SFS_L0_NBLKS
      omega
    have nonzero : ¬ (kernelInode ci.inode).indirect = 0 := (ok.indirect more).allocated.nonzero
    rw [if_neg direct, if_neg nonzero, if_neg (show ¬ i < SFS_L0_NBLKS from direct), if_pos single]
    exact opened.entry more (by omega)

theorem Opened.above (opened : Opened role s t fresh v k ci) (high : ci.nblks ≤ i) (low : i < SFS_NDIRECT + SFS_BLK_NENTRY) :
    Ucore.pointer (loaded v k) k (.data i) = 0 := by
  have ok := (opened.sound.known k ci opened.known).2.2
  unfold Ucore.pointer
  rw [opened.din]
  dsimp only
  by_cases direct : i < SFS_NDIRECT
  · rw [if_pos direct]
    exact (if_pos direct).trans (ok.direct i high)
  · rw [if_neg direct]
    by_cases none_there : (kernelInode ci.inode).indirect = 0
    · rw [if_pos none_there]
    · have more : SFS_L0_NBLKS < ci.nblks := by
        by_contra few
        exact none_there (ok.noIndirect (by omega))
      rw [if_neg none_there]
      refine (opened.entry more (by omega)).trans (ok.rest more _ ?_)
      unfold SFS_L0_NBLKS
      omega

/- The kernel finds the blocks of a file where the tool has put them. -/
theorem Opened.maps (opened : Opened role s t fresh v k ci) (short : ci.nblks ≤ SFS_NDIRECT + SFS_BLK_NENTRY) :
    BlockMaps (loaded v k) {k} := by
  have ok := (opened.sound.known k ci opened.known).2.2
  have inuse : ∀ {b}, Allocated s b → InUse (loaded v k) b := fun allocated =>
    have inuse : InUse v _ := allocated_inuse opened.sound opened.mounted allocated
    ⟨inuse.1, inuse.2.1, inuse.2.2⟩
  have inner : ∀ i, i < SFS_NDIRECT + SFS_BLK_NENTRY → Ucore.pointer (loaded v k) k (.data i) ≠ 0 →
      i < ci.nblks ∧ role (Ucore.pointer (loaded v k) k (.data i)) = .data k i := by
    intro i low nonzero
    have inside : i < ci.nblks := by
      by_contra high
      exact nonzero (opened.above (by omega) low)
    rw [opened.pointer inside low]
    exact ⟨inside, (ok.data i inside).2⟩
  have outer : Ucore.pointer (loaded v k) k .entries ≠ 0 → role (Ucore.pointer (loaded v k) k .entries) = .index k 0 := by
    intro nonzero
    have more : SFS_L0_NBLKS < ci.nblks := by
      by_contra few
      apply nonzero
      unfold Ucore.pointer
      rw [opened.din]
      exact ok.noIndirect (by omega)
    unfold Ucore.pointer
    rw [opened.din]
    exact (ok.indirect more).role
  refine ⟨opened.loadedVolume, ?_, ?_⟩
  · rintro _ rfl
    refine ⟨?_, fun i below => ?_, fun i high low => ?_, fun nonzero => ?_⟩
    · rw [opened.blocks]
      exact short
    · rw [opened.blocks] at below
      rw [opened.pointer below (by omega)]
      exact inuse (ok.data i below).1
    · rw [opened.blocks] at high
      exact opened.above high low
    · rw [opened.din] at nonzero ⊢
      have more : SFS_L0_NBLKS < ci.nblks := by
        by_contra few
        exact nonzero (ok.noIndirect (by omega))
      exact inuse (ok.indirect more).allocated
  · rintro _ rfl _ rfl a b valid_a valid_b nonzero same
    refine ⟨rfl, ?_⟩
    cases a with
    | data i =>
      have one := (inner i valid_a nonzero).2
      cases b with
      | data j =>
        rw [same] at nonzero one
        rw [(Role.data.inj (one.symm.trans (inner j valid_b nonzero).2)).2]
      | entries =>
        rw [same] at nonzero one
        cases one.symm.trans (outer nonzero)
    | entries =>
      have one := outer nonzero
      cases b with
      | data j =>
        rw [same] at nonzero one
        cases one.symm.trans (inner j valid_b nonzero).2
      | entries => rfl

/- Past the last block that the kernel's inodes can point to it stops, wherever the file ends. -/
theorem load_high_stops {u : Sfs} (most : i ≤ (u.inodes k).din.blocks) (high : SFS_NDIRECT + SFS_BLK_NENTRY ≤ i) :
    sfsBmapLoadNolock k i u = .error .indexOutOfRange := by
  have direct : ¬ i < SFS_NDIRECT := by omega
  have entries : ¬ i - SFS_NDIRECT < SFS_BLK_NENTRY := by omega
  have stops : ∀ create, sfsBmapGetNolock k i create u = .error .indexOutOfRange := by
    intro create
    unfold sfsBmapGetNolock
    rw [run_bind inode_run]
    dsimp only
    rw [if_neg direct, if_neg entries]
    rfl
  unfold sfsBmapLoadNolock
  rw [run_bind inode_run]
  dsimp only
  rw [run_check_bind (by omega), run_bind_stop (stops _)]

end Ucore.Mksfs
