import Ucore.Fs.Sfs.SfsRead

/- The files of a volume as byte arrays, and `sfs_io_nolock` over them. -/
namespace Ucore
open Programs Words ByteFile

/-- The block maps of a set of regular files, each as long as its size asks for. -/
structure Represents (s : Sfs) (F : Set Nat) : Prop where
  maps : BlockMaps s F
  regular : ∀ k ∈ F, (s.inodes k).din.type = .file
  fitted : ∀ k ∈ F, (s.inodes k).din.blocks = blocksFor (s.inodes k).din.size

/-- What a file holds. -/
def sfsFile (s : Sfs) (k : Nat) : File UInt8 :=
  { size := (s.inodes k).din.size, data := fileData s k }

def maxMapped : Nat := (SFS_NDIRECT + SFS_BLK_NENTRY) * SFS_BLKSIZE

section
variable {s t : Sfs} {F : Set Nat} {k offset len : Nat} {buf : DiskBlock}

theorem i64_of_nat {n : Nat} (small : n ≤ maxMapped) : i64 (n : Int) = n := by
  unfold i64
  unfold maxMapped SFS_NDIRECT SFS_BLK_NENTRY SFS_BLKSIZE at small
  omega

theorem max_mapped_lt : maxMapped < SFS_MAX_FILE_SIZE := by decide

/-- Nothing but a new size. -/
def Sfs.resize (s : Sfs) (k size : Nat) : Sfs := s.setDin k (fun din => { din with size }) true

theorem resize_other {g size : Nat} (ne : g ≠ k) : (s.resize k size).inodes g = s.inodes g :=
  set_din_other ne

theorem resize_size {size : Nat} : ((s.resize k size).inodes k).din.size = size := by
  simp [Sfs.resize, Sfs.setDin]

theorem resize_map {g size : Nat} : ((s.resize k size).inodes g).din =
    { (s.inodes g).din with size := ((s.resize k size).inodes g).din.size } := by
  by_cases same : g = k
  · subst g
    simp [Sfs.resize, Sfs.setDin]
  · rw [resize_other same]

theorem resize_pointer {g size : Nat} (a : Slot) : pointer (s.resize k size) g a = pointer s g a := by
  cases a with
  | data i =>
    unfold pointer
    rw [resize_map]
    rfl
  | entries =>
    unfold pointer
    rw [resize_map]

theorem resize_maps {size : Nat} (maps : BlockMaps s F) : BlockMaps (s.resize k size) F := by
  constructor
  · exact set_din_volume maps.volume
  · intro g mem
    have map := maps.map g mem
    constructor
    · rw [resize_map]
      exact map.bounded
    · rw [resize_map]
      intro i low
      rw [resize_pointer]
      exact map.below i low
    · rw [resize_map]
      intro i high low
      rw [resize_pointer]
      exact map.above i high low
    · rw [resize_map]
      exact map.entries
  · intro f mf g mg a c va vc
    rw [resize_pointer, resize_pointer]
    exact maps.unshared f mf g mg a c va vc

theorem resize_data {g size : Nat} : fileData (s.resize k size) g = fileData s g := by
  funext p
  unfold fileData mappedSize fileByte
  rw [resize_map, resize_pointer]
  rfl

/-- After the transfer, `sfs_io_nolock` sets the size. -/
theorem written_represents (rep : Represents s F) (mem : k ∈ F) (some : 0 < len)
    (written : Written F s k offset (offset + len) (placed buf offset) t) {u : Sfs}
    (sized : u = if offset + len > (s.inodes k).din.size then t.resize k (offset + len) else t) :
    Represents u F ∧ sfsFile u k = (sfsFile s k).write buf offset len ∧
      ∀ g ∈ F, g ≠ k → sfsFile u g = sfsFile s g := by
  have size : (u.inodes k).din.size = max (s.inodes k).din.size (offset + len) := by
    rw [sized]
    split_ifs with grows
    · rw [resize_size]
      omega
    · rw [written.size]
      omega
  have blocks : ∀ g, (u.inodes g).din.blocks = (t.inodes g).din.blocks := by
    intro g
    rw [sized]
    split_ifs
    · rw [resize_map]
    · rfl
  have data : ∀ g, fileData u g = fileData t g := by
    intro g
    rw [sized]
    split_ifs
    · exact resize_data
    · rfl
  have other : ∀ g, g ≠ k → u.inodes g = s.inodes g := by
    intro g ne
    rw [sized]
    split_ifs
    · rw [resize_other ne, written.others g ne]
    · exact written.others g ne
  have kind : ∀ g, (u.inodes g).din.type = (s.inodes g).din.type := by
    intro g
    by_cases same : g = k
    · subst g
      rw [← written.grown.kind.1, sized]
      split_ifs
      · rw [resize_map]
      · rfl
    · rw [other g same]
  refine ⟨⟨?_, fun g mg => (kind g).trans (rep.regular g mg), ?_⟩, ?_, ?_⟩
  · rw [sized]
    split_ifs
    · exact resize_maps written.maps
    · exact written.maps
  · intro g mg
    by_cases same : g = k
    · subst g
      rw [blocks, written.blocks, size, rep.fitted k mem]
      have mono := @blocks_for_mono
      rcases le_total (s.inodes k).din.size (offset + len) with le | le
      · rw [max_eq_right le, max_eq_right (mono le)]
      · rw [max_eq_left le, max_eq_left (mono le)]
    · rw [other g same]
      exact rep.fitted g mg
  · unfold sfsFile File.write
    rw [size, data, written.data, if_neg (by omega)]
  · intro g mg ne
    unfold sfsFile
    rw [other g ne, data, written.elsewhere g mg ne]

theorem io_write_run (buf : DiskBlock) (rep : Represents s F) (mem : k ∈ F) (start : offset ≤ mappedSize s k)
    (fits : offset + len ≤ maxMapped) (room : need s k (blocksFor (offset + len)) ≤ s.unusedBlocks) :
    ∃ t, sfsIoNolock k buf offset len true s = .ok ((0, len, buf), t) ∧ Represents t F ∧
      sfsFile t k = (sfsFile s k).write buf offset len ∧
      ∀ g ∈ F, g ≠ k → sfsFile t g = sfsFile s g := by
  have regular := rep.regular k mem
  have below := max_mapped_lt
  have ends : i64 ((offset : Int) + len) = ((offset + len : Nat) : Int) := i64_of_nat fits
  have fileSize : (s.inodes k).din.type ≠ .dir := by
    rw [regular]
    decide
  by_cases none : len = 0
  · subst len
    refine ⟨s, ?_, rep, write_nothing.symm, fun _ _ _ => rfl⟩
    unfold sfsIoNolock
    rw [run_bind inode_run]
    dsimp only
    rw [run_check_bind fileSize, ends, if_neg (by omega), if_pos (by omega)]
    rfl
  · obtain ⟨t, run, written⟩ := io_range_write_run buf rep.maps mem start
      (by omega : offset < offset + len) fits room
    have result := written_represents rep mem (by omega) written rfl
    refine ⟨_, ?_, result⟩
    have sized : u32 (offset + len : Nat) = offset + len := by
      apply u32_of_nat
      unfold maxMapped SFS_NDIRECT SFS_BLK_NENTRY SFS_BLKSIZE at fits
      unfold wordSize
      omega
    unfold sfsIoNolock
    rw [run_bind inode_run]
    dsimp only
    rw [run_check_bind fileSize, ends, if_neg (by omega), if_neg (by omega),
      if_neg (by omega : ¬ ((offset + len : Nat) : Int) > SFS_MAX_FILE_SIZE), if_neg (by simp),
      if_neg (by simp), Int.toNat_natCast, Int.toNat_natCast, run_bind run]
    dsimp only
    rw [Nat.add_sub_cancel_left, run_bind inode_run, written.size]
    split_ifs
    · rw [run_bind set_din_run, sized]
      rfl
    · rfl

theorem overlay_is_read :
    overlay buf (fileFrom s k offset) ((sfsFile s k).readable offset len) 0 =
      (sfsFile s k).read buf offset len := by
  funext j
  unfold overlay File.read
  by_cases inside : j < (sfsFile s k).readable offset len
  · rw [if_pos (by omega), if_pos inside]
    rfl
  · rw [if_neg (by omega), if_neg inside]

/- `sfs_io_nolock` reads a file whose blocks reach its size, up to the largest offset. -/
theorem io_read_covered_run (buf : DiskBlock) (maps : BlockMaps s F) (mem : k ∈ F) (regular : (s.inodes k).din.type = .file)
    (covered : (s.inodes k).din.size ≤ mappedSize s k) (start : offset < SFS_MAX_FILE_SIZE)
    (fits : offset + len < 9223372036854775808) :
    sfsIoNolock k buf offset len false s =
      .ok ((0, (sfsFile s k).readable offset len, (sfsFile s k).read buf offset len), s) := by
  have below := max_mapped_lt
  have ends : i64 ((offset : Int) + len) = ((offset + len : Nat) : Int) := by
    unfold i64
    omega
  have no_dir : (s.inodes k).din.type ≠ .dir := by
    rw [regular]
    decide
  have small : (s.inodes k).din.size ≤ maxMapped := by
    have bounded := (maps.map k mem).bounded
    unfold mappedSize at covered
    exact Nat.le_trans covered (Nat.mul_le_mul_right _ bounded)
  rw [← overlay_is_read]
  obtain ⟨count, count_eq⟩ : ∃ count, count = (sfsFile s k).readable offset len := ⟨_, rfl⟩
  rw [← count_eq]
  unfold File.readable sfsFile at count_eq
  dsimp only at count_eq
  unfold sfsIoNolock
  rw [run_bind inode_run]
  dsimp only
  rw [run_check_bind no_dir, ends, if_neg (by omega)]
  by_cases none : len = 0
  · rw [if_pos (by omega), show count = 0 by omega, overlay_nothing]
    rfl
  · rw [if_neg (by omega)]
    by_cases past : (s.inodes k).din.size ≤ offset
    · rw [if_pos ⟨rfl, by omega⟩, show count = 0 by omega, overlay_nothing]
      rfl
    · obtain ⟨last, is⟩ : ∃ last : Int, last = if ((offset + len : Nat) : Int) > SFS_MAX_FILE_SIZE
          then (SFS_MAX_FILE_SIZE : Int) else ((offset + len : Nat) : Int) := ⟨_, rfl⟩
      have clamp : (if (!false) = true ∧ last > (s.inodes k).din.size then ((s.inodes k).din.size : Int) else last) =
          ((offset + count : Nat) : Int) := by
        split_ifs at is with large
        · split_ifs with long <;> simp only [Bool.not_false, true_and] at long <;> omega
        · split_ifs with long <;> simp only [Bool.not_false, true_and] at long <;> omega
      rw [if_neg (by omega), ← is, clamp, Int.toNat_natCast, Int.toNat_natCast,
        run_bind (io_range_read_run maps mem (by omega) (by omega))]
      dsimp only
      rw [Nat.add_sub_cancel_left, run_bind inode_run, if_neg (by omega)]
      rfl

theorem represents_covered (rep : Represents s F) (mem : k ∈ F) : (s.inodes k).din.size ≤ mappedSize s k := by
  unfold mappedSize
  rw [rep.fitted k mem]
  exact blocks_for_le.mp le_rfl

theorem io_read_run (buf : DiskBlock) (rep : Represents s F) (mem : k ∈ F) (start : offset < SFS_MAX_FILE_SIZE)
    (fits : offset + len < 9223372036854775808) :
    sfsIoNolock k buf offset len false s =
      .ok ((0, (sfsFile s k).readable offset len, (sfsFile s k).read buf offset len), s) :=
  io_read_covered_run buf rep.maps mem (rep.regular k mem) (represents_covered rep mem) start fits

/-- A regular file is a byte array: writes replace the bytes they are given, with the blocks
this takes, and reads deliver the bytes below the size. -/
theorem sfs_io_refines_byte_file {s : Sfs} {F : Set Nat} (rep : Represents s F) {k : Nat}
    (mem : k ∈ F) (offset len : Nat) (start : offset ≤ mappedSize s k)
    (fits : offset + len ≤ maxMapped) (room : need s k (blocksFor (offset + len)) ≤ s.unusedBlocks)
    (buf into : DiskBlock) :
    (∃ t, sfsIoNolock k buf offset len true s = .ok ((0, len, buf), t) ∧ Represents t F ∧
      sfsFile t k = (sfsFile s k).write buf offset len ∧
      (∀ g ∈ F, g ≠ k → sfsFile t g = sfsFile s g) ∧
      ∃ out, sfsIoNolock k into offset len false t = .ok ((0, len, out), t) ∧
        ∀ j < len, out j = buf j) ∧
    sfsIoNolock k into offset len false s =
      .ok ((0, min (offset + len) (s.inodes k).din.size - offset,
        (sfsFile s k).read into offset len), s) := by
  have below := max_mapped_lt
  have largest : SFS_MAX_FILE_SIZE < 9223372036854775808 := by decide
  have begins : offset < SFS_MAX_FILE_SIZE := by omega
  have ends : offset + len < 9223372036854775808 := by omega
  refine ⟨?_, io_read_run into rep mem begins ends⟩
  obtain ⟨t, run, after, changed, others⟩ := io_write_run buf rep mem start fits room
  have back := io_read_run into after mem begins ends
  rw [changed] at back
  rw [readable_written] at back
  exact ⟨t, run, after, changed, others, _, back, fun j low => read_written low⟩

end

/- What a finished program has left. -/
def endsWith {α : Type} (p : α → Sfs → Bool) : Except SfsStop (α × Sfs) → Bool
  | .ok (a, t) => p a t
  | .error _ => false

theorem ends_with {α : Type} {p : α → Sfs → Bool} {r : Except SfsStop (α × Sfs)}
    (ends : endsWith p r = true) : ∃ a t, r = .ok (a, t) ∧ p a t = true := by
  cases r with
  | error e => cases ends
  | ok b => exact ⟨b.1, b.2, rfl, ends⟩

def stopsFor {α : Type} (reason : SfsStop) : Except SfsStop (α × Sfs) → Bool
  | .ok _ => false
  | .error e => e = reason

theorem stops_for {α : Type} {reason : SfsStop} {r : Except SfsStop (α × Sfs)}
    (stops : stopsFor reason r = true) : r = .error reason := by
  cases r with
  | error e => rw [of_decide_eq_true stops]
  | ok b => cases stops

/-- A volume of eight blocks, of which the last three are free. -/
def smallVolume (inodes : Nat → SfsDiskInode) : Sfs where
  blocks := 8
  unusedBlocks := 3
  superDirty := false
  freemap := { nbits := 32, nwords := 1, map := fun _ => 0xe0 }
  dBlocks := 8
  disk := fun _ _ => 0
  inodes := fun k => { din := inodes k, dirty := false }

def emptyFile : SfsDiskInode :=
  { size := 0, type := .file, nlinks := 1, blocks := 0, direct := fun _ => 0, indirect := 0 }

theorem small_volume (inodes : Nat → SfsDiskInode) : Volume (smallVolume inodes) := by
  have volume : Volume (smallVolume fun _ => emptyFile) := by
    constructor <;> decide
  exact ⟨volume.device, volume.addressable, volume.words, volume.covered, volume.free,
    volume.counted⟩

/- Inodes without blocks. -/
theorem null_maps {s : Sfs} {F : Set Nat} (volume : Volume s)
    (null : ∀ g, ∀ a : Slot, pointer s g a = 0) (empty : ∀ g, (s.inodes g).din.blocks = 0) :
    BlockMaps s F := by
  refine ⟨volume, ?_, ?_⟩
  · intro k _
    refine ⟨by rw [empty]; exact Nat.zero_le _, ?_, fun i _ _ => null k _,
      fun some => absurd (null k .entries) some⟩
    intro i low
    rw [empty] at low
    exact absurd low (Nat.not_lt_zero i)
  · intro f _ g _ a c _ _ nonzero
    exact absurd (null f a) nonzero

theorem empty_files_represent : Represents (smallVolume fun _ => emptyFile) Set.univ := by
  have null : ∀ g, ∀ a : Slot, pointer (smallVolume fun _ => emptyFile) g a = 0 := by
    intro g a
    cases a with
    | data i => simp [pointer, smallVolume, emptyFile]
    | entries => rfl
  have fitted : emptyFile.blocks = blocksFor emptyFile.size := by decide
  exact ⟨null_maps (small_volume _) null fun _ => rfl, fun _ _ => rfl, fun _ _ => fitted⟩

theorem five_thousand_bytes_written :
    ∃ t out, sfsIoNolock 1 (fun _ => 7) 0 5000 true (smallVolume fun _ => emptyFile) =
        .ok ((0, 5000, fun _ => 7), t) ∧
      sfsIoNolock 1 (fun _ => 0) 0 5000 false t = .ok ((0, 5000, out), t) ∧ out 4999 = 7 := by
  obtain ⟨⟨t, run, _, _, _, out, back, same⟩, _⟩ := sfs_io_refines_byte_file empty_files_represent
    (Set.mem_univ 1) 0 5000 (by decide) (by decide) (by decide) (fun _ => 7)
    (fun _ => 0)
  exact ⟨t, out, run, back, same 4999 (by decide)⟩

/-- What is said of the blocks below the count only. -/
structure MappedBelow (s : Sfs) (F : Set Nat) : Prop where
  fitted : ∀ k ∈ F, (s.inodes k).din.blocks = blocksFor (s.inodes k).din.size
  inuse : ∀ k ∈ F, ∀ i < (s.inodes k).din.blocks, InUse s (pointer s k (.data i))
  distinct : ∀ f ∈ F, ∀ g ∈ F, ∀ i < (s.inodes f).din.blocks, ∀ j < (s.inodes g).din.blocks,
    pointer s f (.data i) = pointer s g (.data j) → f = g ∧ i = j

/- Both files point to block 4, and only the first has it below its count. -/
def stalePointer : Sfs :=
  smallVolume fun k => { emptyFile with
    size := if k = 1 then 1 else 0
    blocks := if k = 1 then 1 else 0
    direct := fun i => if i = 0 then 4 else 0 }

theorem stale_pointer_overwrites :
    Volume stalePointer ∧ MappedBelow stalePointer {1, 2} ∧
    100 + 0 ≤ mappedSize stalePointer 1 ∧
    (∃ t, sfsIoNolock 1 (fun _ => 7) 100 0 true stalePointer = .ok ((0, 0, fun _ => 7), t) ∧
      (t.inodes 1).din.size ≠ max (stalePointer.inodes 1).din.size (100 + 0)) ∧
    (∃ t, sfsIoNolock 2 (fun _ => 7) 0 1 true stalePointer = .ok ((0, 1, fun _ => 7), t) ∧
      fileData t 1 0 ≠ fileData stalePointer 1 0) := by
  refine ⟨small_volume _, ⟨?_, ?_, ?_⟩, by decide, ⟨_, rfl, by decide⟩, ⟨_, rfl, by decide⟩⟩
  · rintro k (rfl | rfl) <;> decide
  · rintro k (rfl | rfl) <;> decide
  · rintro f (rfl | rfl) g (rfl | rfl) <;> decide

end Ucore
