import Ucore.Fs.Sfs.BmapTruncate
import Ucore.Fs.Sfs.SfsFileData
import Ucore.Fs.Sfs.SfsIo

/- Every outcome of `sfs_truncfile`, `sfs_tryseek` and `sfs_io_nolock`. -/
namespace Ucore
open Programs Words ByteFile

/-- File `k` has at least `n` blocks now, the new ones cleared. -/
structure Extended (F : Set Nat) (s : Sfs) (k n : Nat) (t : Sfs) : Prop where
  maps : BlockMaps t F
  blocks : (t.inodes k).din.blocks = max (s.inodes k).din.blocks n
  size : (t.inodes k).din.size = (s.inodes k).din.size
  others : ∀ g, g ≠ k → t.inodes g = s.inodes g
  data : fileData t k = fileData s k
  elsewhere : ∀ g ∈ F, g ≠ k → fileData t g = fileData s g
  grown : Grown s k t

section
variable {s t u : Sfs} {F : Set Nat} {k i b n m : Nat}

theorem loaded_extended (loaded : Loaded F s k i b t) : Extended F s k (i + 1) t :=
  ⟨loaded.maps, loaded.blocks, loaded.size, loaded.others, loaded_data loaded,
    fun _ mem ne => loaded_elsewhere loaded mem ne, loaded.grown⟩

theorem idle_extended (maps : BlockMaps s F) (mem : k ∈ F) (idle : Idle s t)
    (few : n ≤ (s.inodes k).din.blocks) : Extended F s k n t := by
  constructor
  · exact idle_maps maps idle
  · rw [idle.inodes]
    omega
  · rw [idle.inodes]
  · intro g _
    rw [idle.inodes]
  · exact idle_data maps idle mem
  · intro g mg _
    exact idle_data maps idle mg
  · exact idle_grown maps mem idle

theorem extended_trans (first : Extended F s k n t) (second : Extended F t k m u) (le : n ≤ m) :
    Extended F s k m u := by
  constructor
  · exact second.maps
  · rw [second.blocks, first.blocks]
    omega
  · exact second.size.trans first.size
  · intro g ne
    exact (second.others g ne).trans (first.others g ne)
  · exact second.data.trans first.data
  · intro g mg ne
    exact (second.elsewhere g mg ne).trans (first.elsewhere g mg ne)
  · exact grown_trans first.grown second.grown

/- The growing loop of `sfs_truncfile`, by induction on the blocks left. -/
theorem enlarge_outcome (count : Nat) {s : Sfs} {nblks : Nat} (maps : BlockMaps s F) (mem : k ∈ F)
    (start : nblks = (s.inodes k).din.blocks) :
    Meets (sfsEnlarge k count nblks) s
      (fun r t => (nblks + count ≤ limit s k ∧ nblks + count ≤ maxBlocks ∧ r = 0 ∧
          Extended F s k (nblks + count) t) ∨
        limit s k < nblks + count ∧ limit s k < maxBlocks ∧ r = -E_NO_MEM ∧
          Extended F s k (limit s k) t)
      fun e => e = .indexOutOfRange ∧ maxBlocks < nblks + count ∧ maxBlocks ≤ limit s k := by
  have map := maps.map k mem
  have bounded := map.bounded
  have within := blocks_le_limit map
  induction count generalizing s nblks with
  | zero =>
    refine Or.inl ⟨by omega, ?_, rfl, idle_extended maps mem (idle_refl maps.volume) (by omega)⟩
    unfold maxBlocks
    omega
  | succ count ih =>
    unfold sfsEnlarge
    rw [meets_bind]
    rcases load_outcome maps mem start.le with ⟨low, b, t, run, loaded⟩ | ⟨last, low, t, run, idle⟩ |
      ⟨high, last, run⟩
    · have far := grown_limit map loaded.grown
      have blocks := loaded.blocks
      have mapT := loaded.maps.map k mem
      have later := ih loaded.maps (by omega : nblks + 1 = (t.inodes k).din.blocks) mapT
        mapT.bounded (blocks_le_limit mapT)
      rw [far, Nat.add_assoc, Nat.add_comm 1 count] at later
      unfold Meets
      rw [run]
      apply meets_mono later
      · rintro r u (⟨few, fits, ok, extended⟩ | ⟨many, full, failed, extended⟩)
        · exact Or.inl ⟨few, fits, ok, extended_trans (loaded_extended loaded) extended (by omega)⟩
        · exact Or.inr ⟨many, full, failed,
            extended_trans (loaded_extended loaded) extended (by omega)⟩
      · exact fun _ stopped => stopped
    · unfold Meets
      rw [run]
      exact Or.inr ⟨by omega, low, rfl, idle_extended maps mem idle (by omega)⟩
    · unfold Meets
      rw [run]
      refine ⟨rfl, ?_, high⟩
      unfold maxBlocks
      omega

end

/-- What `sfs_truncfile` does with a file, by the length asked for. -/
inductive TruncOutcome (F : Set Nat) (s : Sfs) (k : Nat) (len : Int) :
    Except SfsStop (Int × Sfs) → Prop
  | invalid (bad : len < 0 ∨ len > SFS_MAX_FILE_SIZE) : TruncOutcome F s k len (.ok (-E_INVAL, s))
  | asItWas (good : 0 ≤ len ∧ len ≤ SFS_MAX_FILE_SIZE) (same : (s.inodes k).din.size = len.toNat)
      (fitted : blocksFor len.toNat = (s.inodes k).din.blocks) : TruncOutcome F s k len (.ok (0, s))
  | mismatch (good : 0 ≤ len ∧ len ≤ SFS_MAX_FILE_SIZE) (same : (s.inodes k).din.size = len.toNat)
      (ahead : blocksFor len.toNat ≠ (s.inodes k).din.blocks) :
      TruncOutcome F s k len (.error .assertion)
  | enlarged (t : Sfs) (good : 0 ≤ len ∧ len ≤ SFS_MAX_FILE_SIZE)
      (new : (s.inodes k).din.size ≠ len.toNat)
      (more : (s.inodes k).din.blocks < blocksFor len.toNat)
      (room : blocksFor len.toNat ≤ limit s k) (few : blocksFor len.toNat ≤ maxBlocks)
      (extended : Extended F s k (blocksFor len.toNat) t) :
      TruncOutcome F s k len (.ok (0, t.resize k len.toNat))
  | full (t : Sfs) (good : 0 ≤ len ∧ len ≤ SFS_MAX_FILE_SIZE)
      (new : (s.inodes k).din.size ≠ len.toNat)
      (more : (s.inodes k).din.blocks < blocksFor len.toNat)
      (noRoom : limit s k < blocksFor len.toNat) (few : limit s k < maxBlocks)
      (extended : Extended F s k (limit s k) t) : TruncOutcome F s k len (.ok (-E_NO_MEM, t))
  | pastEnd (good : 0 ≤ len ∧ len ≤ SFS_MAX_FILE_SIZE) (new : (s.inodes k).din.size ≠ len.toNat)
      (more : (s.inodes k).din.blocks < blocksFor len.toNat)
      (past : PastEnd s k len.toNat) : TruncOutcome F s k len (.error .indexOutOfRange)
  | reduced (t : Sfs) (good : 0 ≤ len ∧ len ≤ SFS_MAX_FILE_SIZE)
      (new : (s.inodes k).din.size ≠ len.toNat)
      (fewer : blocksFor len.toNat ≤ (s.inodes k).din.blocks)
      (shrunk : Shrunk F s k (blocksFor len.toNat) t) :
      TruncOutcome F s k len (.ok (0, t.resize k len.toNat))

section
variable {s : Sfs} {F : Set Nat} {k : Nat}

theorem truncfile_outcome (maps : BlockMaps s F) (mem : k ∈ F) (len : Int) :
    TruncOutcome F s k len (sfsTruncfile k len s) := by
  have map := maps.map k mem
  unfold sfsTruncfile
  by_cases bad : len < 0 ∨ len > SFS_MAX_FILE_SIZE
  · rw [if_pos bad]
    exact .invalid bad
  · have good : 0 ≤ len ∧ len ≤ SFS_MAX_FILE_SIZE := by omega
    rw [if_neg bad, run_bind inode_run]
    dsimp only
    have tblks : (len.toNat + SFS_BLKSIZE - 1) / SFS_BLKSIZE = blocksFor len.toNat := rfl
    rw [tblks]
    by_cases same : (s.inodes k).din.size = len.toNat
    · rw [if_pos same]
      by_cases fitted : blocksFor len.toNat = (s.inodes k).din.blocks
      · rw [run_check_bind fitted]
        exact .asItWas good same fitted
      · rw [run_check_stop fitted]
        exact .mismatch good same fitted
    · rw [if_neg same]
      by_cases more : (s.inodes k).din.blocks < blocksFor len.toNat
      · rw [if_pos more]
        have loop := enlarge_outcome (blocksFor len.toNat - (s.inodes k).din.blocks) maps mem rfl
        have total : (s.inodes k).din.blocks + (blocksFor len.toNat - (s.inodes k).din.blocks) =
            blocksFor len.toNat := by omega
        rw [total] at loop
        unfold Meets at loop
        cases run : sfsEnlarge k (blocksFor len.toNat - (s.inodes k).din.blocks)
            (s.inodes k).din.blocks s with
        | error e =>
          rw [run] at loop
          obtain ⟨rfl, many, enough⟩ := loop
          rw [run_bind_stop run]
          refine .pastEnd good same more ⟨?_, enough⟩
          by_contra small
          have := blocks_for_le.mpr (by omega : len.toNat ≤ maxBlocks * SFS_BLKSIZE)
          omega
        | ok r =>
          obtain ⟨ret, t⟩ := r
          rw [run] at loop
          rcases loop with ⟨room, few, rfl, extended⟩ | ⟨noRoom, few, rfl, extended⟩
          · have blocks : (t.inodes k).din.blocks = blocksFor len.toNat := by
              rw [extended.blocks]
              omega
            rw [run_bind run, if_neg (by decide), run_bind inode_run, run_check_bind blocks,
              run_bind set_din_run]
            exact .enlarged t good same more room few extended
          · rw [run_bind run, if_pos (by decide)]
            exact .full t good same more noRoom few extended
      · have fewer : blocksFor len.toNat ≤ (s.inodes k).din.blocks := by omega
        obtain ⟨t, run, shrunk⟩ := reduce_run ((s.inodes k).din.blocks - blocksFor len.toNat) maps mem
          (by omega)
        rw [Nat.sub_sub_self fewer] at shrunk
        rw [if_neg more, run_bind run, if_neg (by decide), run_bind inode_run,
          run_check_bind shrunk.blocks, run_bind set_din_run]
        exact .reduced t good same fewer shrunk

end

/-- `endpos` of `sfs_io_nolock`, after the end of the file is taken into account. -/
def ioEnd (size : Nat) (write : Bool) (offset : Nat) (len : Nat) : Nat :=
  let endpos := min (i64 (offset + len)).toNat SFS_MAX_FILE_SIZE
  if write then endpos else min endpos size

/- The size is set where the transfer has gone past it. -/
def sized (s t : Sfs) (k pos : Nat) : Sfs := if pos > (s.inodes k).din.size then t.resize k pos else t

/-- What `sfs_io_nolock` does with a file. -/
inductive IoOutcome (F : Set Nat) (s : Sfs) (k : Nat) (buf : DiskBlock) (offset : Int) (len : Nat)
    (write : Bool) : Except SfsStop ((Int × Nat × DiskBlock) × Sfs) → Prop
  | invalid (bad : offset < 0 ∨ offset ≥ SFS_MAX_FILE_SIZE ∨ offset > i64 (offset + len)) :
      IoOutcome F s k buf offset len write (.ok ((-E_INVAL, 0, buf), s))
  | nothing (good : 0 ≤ offset ∧ offset < SFS_MAX_FILE_SIZE ∧ offset ≤ i64 (offset + len))
      (empty : ioEnd (s.inodes k).din.size write offset.toNat len ≤ offset.toNat) :
      IoOutcome F s k buf offset len write (.ok ((0, 0, buf), s))
  | moved (t : Sfs) (good : 0 ≤ offset ∧ offset < SFS_MAX_FILE_SIZE ∧ offset ≤ i64 (offset + len))
      (some : offset.toNat < ioEnd (s.inodes k).din.size write offset.toNat len)
      (start : offset.toNat / SFS_BLKSIZE ≤ (s.inodes k).din.blocks)
      (within : ¬ PastEnd s k (ioEnd (s.inodes k).din.size write offset.toNat len))
      (near : offset.toNat ≤ limit s k * SFS_BLKSIZE)
      (written : Written F s k offset.toNat (offset.toNat + served s k offset.toNat
          (ioEnd (s.inodes k).din.size write offset.toNat len))
        (if write then placed buf offset.toNat else fileData s k) t) :
      IoOutcome F s k buf offset len write (.ok (ioResult s k write buf offset.toNat
          (ioEnd (s.inodes k).din.size write offset.toNat len) 0,
        sized s t k (offset.toNat + served s k offset.toNat
          (ioEnd (s.inodes k).din.size write offset.toNat len))))
  | stuck (t : Sfs) (good : 0 ≤ offset ∧ offset < SFS_MAX_FILE_SIZE ∧ offset ≤ i64 (offset + len))
      (some : offset.toNat < ioEnd (s.inodes k).din.size write offset.toNat len)
      (start : offset.toNat / SFS_BLKSIZE ≤ (s.inodes k).din.blocks)
      (within : ¬ PastEnd s k (ioEnd (s.inodes k).din.size write offset.toNat len))
      (far : limit s k * SFS_BLKSIZE < offset.toNat) (idle : Idle s t) :
      IoOutcome F s k buf offset len write
        (.ok ((-E_NO_MEM, 0, buf), sized s t k offset.toNat))
  | beyond (good : 0 ≤ offset ∧ offset < SFS_MAX_FILE_SIZE ∧ offset ≤ i64 (offset + len))
      (some : offset.toNat < ioEnd (s.inodes k).din.size write offset.toNat len)
      (far : (s.inodes k).din.blocks < offset.toNat / SFS_BLKSIZE) :
      IoOutcome F s k buf offset len write (.error .assertion)
  | pastEnd (good : 0 ≤ offset ∧ offset < SFS_MAX_FILE_SIZE ∧ offset ≤ i64 (offset + len))
      (some : offset.toNat < ioEnd (s.inodes k).din.size write offset.toNat len)
      (start : offset.toNat / SFS_BLKSIZE ≤ (s.inodes k).din.blocks)
      (past : PastEnd s k (ioEnd (s.inodes k).din.size write offset.toNat len)) :
      IoOutcome F s k buf offset len write (.error .indexOutOfRange)

section
variable {s : Sfs} {F : Set Nat} {k : Nat}

/- `sfs_io_nolock` after its checks. -/
theorem io_sized_run {buf : DiskBlock} {offset endpos : Nat} {write : Bool} {t u : Sfs}
    {ret : Int} {alen : Nat} {out : DiskBlock}
    (run : sfsIoRange k buf offset endpos write s = .ok ((ret, alen, out), t))
    (size : (t.inodes k).din.size = (s.inodes k).din.size) (fits : offset + alen < wordSize)
    (after : u = sized s t k (offset + alen)) :
    (do
      let (ret, alen, buf) ← sfsIoRange k buf offset endpos write
      if offset + alen > (← sfsInode k).din.size then
        sfsSetDin k (fun din => { din with size := u32 (offset + alen : Nat) }) true
      return (ret, alen, buf) : SfsM (Int × Nat × DiskBlock)) s = .ok ((ret, alen, out), u) := by
  rw [run_bind run]
  dsimp only
  rw [run_bind inode_run, size, after]
  unfold sized
  split_ifs
  · rw [run_bind set_din_run, u32_of_nat fits]
    rfl
  · rfl

theorem io_outcome (maps : BlockMaps s F) (mem : k ∈ F) (file : (s.inodes k).din.type ≠ .dir)
    (buf : DiskBlock) (offset : Int) (len : Nat) (write : Bool) :
    IoOutcome F s k buf offset len write (sfsIoNolock k buf offset len write s) := by
  unfold sfsIoNolock
  rw [run_bind inode_run]
  dsimp only
  rw [run_check_bind file]
  by_cases bad : offset < 0 ∨ offset ≥ SFS_MAX_FILE_SIZE ∨ offset > i64 (offset + len)
  · rw [if_pos bad]
    exact .invalid bad
  · have good : 0 ≤ offset ∧ offset < SFS_MAX_FILE_SIZE ∧ offset ≤ i64 (offset + len) := by omega
    have natural : ((offset.toNat : Nat) : Int) = offset := by omega
    rw [if_neg bad]
    by_cases none : offset = i64 (offset + len)
    · rw [if_pos none]
      refine .nothing good ?_
      unfold ioEnd
      rw [natural, ← none]
      dsimp only
      split_ifs <;> omega
    · rw [if_neg none]
      by_cases behind : !write ∧ offset ≥ (s.inodes k).din.size
      · rw [if_pos behind]
        refine .nothing good ?_
        have reading : write = false := by simpa using behind.1
        unfold ioEnd
        rw [reading, if_neg (by decide)]
        omega
      · rw [if_neg behind]
        have clipped : (if (!write) = true ∧ (if i64 (offset + len) > SFS_MAX_FILE_SIZE
              then (SFS_MAX_FILE_SIZE : Int) else i64 (offset + len)) > (s.inodes k).din.size
            then ((s.inodes k).din.size : Int)
            else if i64 (offset + len) > SFS_MAX_FILE_SIZE
              then (SFS_MAX_FILE_SIZE : Int) else i64 (offset + len)).toNat =
            ioEnd (s.inodes k).din.size write offset.toNat len := by
          unfold ioEnd
          rw [natural]
          cases write with
          | true =>
            simp only [Bool.not_true, Bool.false_eq_true, false_and, ↓reduceIte]
            split_ifs <;> omega
          | false =>
            simp only [Bool.not_false, true_and, Bool.false_eq_true, ↓reduceIte]
            split_ifs <;> omega
        rw [clipped]
        have some : offset.toNat < ioEnd (s.inodes k).din.size write offset.toNat len := by
          unfold ioEnd
          rw [natural]
          cases write with
          | true =>
            simp only [↓reduceIte]
            omega
          | false =>
            simp only [Bool.not_false, true_and, Bool.false_eq_true, ↓reduceIte] at behind ⊢
            omega
        have most : ioEnd (s.inodes k).din.size write offset.toNat len ≤ SFS_MAX_FILE_SIZE := by
          unfold ioEnd
          dsimp only
          split_ifs <;> omega
        have small : SFS_MAX_FILE_SIZE < wordSize := by decide
        have bytes : IoBytes s k write buf offset.toNat 0
            (if write then placed buf offset.toNat else fileData s k) := by
          unfold IoBytes
          cases write with
          | true =>
            intro j
            simp only [↓reduceIte]
            unfold placed
            rw [Nat.add_sub_cancel_left, Nat.zero_add]
          | false => rfl
        have range := io_range_outcome buf maps mem some bytes
        unfold Meets at range
        cases run : sfsIoRange k buf offset.toNat
            (ioEnd (s.inodes k).din.size write offset.toNat len) write s with
        | error e =>
          rw [run] at range
          rw [run_bind_stop run]
          rcases range with ⟨rfl, far⟩ | ⟨rfl, start, past⟩
          · exact .beyond good some far
          · exact .pastEnd good some start past
        | ok r =>
          obtain ⟨result, t⟩ := r
          rw [run] at range
          obtain ⟨rfl, start, within, near, far⟩ := range
          have reach : offset.toNat + served s k offset.toNat
              (ioEnd (s.inodes k).din.size write offset.toNat len) < wordSize := by
            unfold served
            omega
          by_cases close : offset.toNat ≤ limit s k * SFS_BLKSIZE
          · have written := near close
            have moved := @IoOutcome.moved F s k buf offset len write t good some start within close
              written
            rw [io_sized_run run written.size (by rw [Nat.zero_add]; exact reach) rfl]
            unfold ioResult at moved
            rw [Nat.zero_add] at moved ⊢
            exact moved
          · have idle := far (by omega)
            have none_done : served s k offset.toNat
                (ioEnd (s.inodes k).din.size write offset.toNat len) = 0 := by
              unfold served
              omega
            have stuck := @IoOutcome.stuck F s k buf offset len write t good some start within (by omega) idle
            rw [io_sized_run run (by rw [idle.inodes]) (by rw [Nat.zero_add]; exact reach) rfl]
            rw [none_done, io_buffer_nothing, if_neg (by omega)]
            exact stuck

end

end Ucore
