import Ucore.Fs.Sfs.BmapFull
import Ucore.Fs.Sfs.SfsRead

/- Every outcome of the three phases of `sfs_io_nolock`, also on a full volume and behind the
   last block that can be mapped. -/
namespace Ucore
open Programs Words ByteFile

/-- How many bytes of `[offset, endpos)` the free blocks are enough for. -/
def served (s : Sfs) (k offset endpos : Nat) : Nat := min endpos (limit s k * SFS_BLKSIZE) - offset

section
variable {s t u : Sfs} {F : Set Nat} {k i lo hi : Nat} {bytes : Nat → UInt8} {buf : DiskBlock}

theorem idle_data (maps : BlockMaps s F) (idle : Idle s t) {g : Nat} (mem : g ∈ F) :
    fileData t g = fileData s g := by
  have map := maps.map g mem
  have bounded := map.bounded
  have mapped : mappedSize t g = mappedSize s g := by
    unfold mappedSize
    rw [idle.inodes]
  funext p
  unfold fileData
  rw [mapped]
  split_ifs with inside
  · have below := mapped_block.mp inside
    unfold fileByte
    rw [idle_pointer maps idle mem (a := .data _) (Nat.lt_of_lt_of_le below bounded),
      idle.content _ (map.below _ below)]
  · rfl

theorem idle_written (maps : BlockMaps s F) (mem : k ∈ F) (idle : Idle s t)
    (mapped : lo ≤ mappedSize s k) : Written F s k lo lo bytes t := by
  have enough := blocks_for_le.mpr mapped
  constructor
  · exact idle_maps maps idle
  · rw [idle.inodes]
    omega
  · rw [idle.inodes]
  · intro g _
    rw [idle.inodes]
  · rw [idle_data maps idle mem, splice_nothing]
  · intro g mg _
    exact idle_data maps idle mg
  · intro n _ room
    unfold need at *
    rw [idle.inodes, idle.unused]
    exact room
  · exact idle_grown maps mem idle

/- What an operation leaves of the buffer after `len` bytes from `lo` on. -/
def ioBuffer (s : Sfs) (k : Nat) (write : Bool) (buf : DiskBlock) (lo len pos : Nat) : DiskBlock :=
  if write then buf else overlay buf (fileFrom s k lo) len pos

/- `bytes` is what the file holds afterwards where the operation has been. -/
def IoBytes (s : Sfs) (k : Nat) (write : Bool) (buf : DiskBlock) (lo pos : Nat)
    (bytes : Nat → UInt8) : Prop :=
  if write then ∀ j, bytes (lo + j) = buf (pos + j) else bytes = fileData s k

/-- `op` reads or writes `[off, off + len)` of the block it is given. -/
def Serves (op : Nat → SfsM (Int × DiskBlock)) (write : Bool) (buf : DiskBlock)
    (off len pos : Nat) : Prop :=
  ∀ (s : Sfs) (b : Nat), Volume s → InUse s b → ∃ data,
    op b s = .ok ((0, if write then buf else overlay buf (fun j => s.disk b (off + j)) len pos),
      s.setBlock b data) ∧
    ∀ j < SFS_BLKSIZE, data j =
      if write ∧ off ≤ j ∧ j < off + len then buf (pos + (j - off)) else s.disk b j

theorem set_block_same (s : Sfs) (b : Nat) : s.setBlock b (s.disk b) = s := by
  unfold Sfs.setBlock
  rw [Function.update_eq_self]

theorem buf_op_serves {write : Bool} {off len pos : Nat} (start : off < SFS_BLKSIZE)
    (fits : off + len ≤ SFS_BLKSIZE) :
    Serves (fun ino => sfsBufOp write buf pos len ino off) write buf off len pos := by
  intro s b volume inuse
  cases write with
  | true =>
    refine ⟨overlay (s.disk b) (fun i => buf (pos + i)) len off, ?_, ?_⟩
    · change sfsBufOp true buf pos len b off s = _
      unfold sfsBufOp
      rw [if_pos rfl, run_bind (wbuf_run volume inuse.1 inuse.2.1 _ start fits)]
      rfl
    · intro j _
      unfold overlay
      simp only [true_and]
  | false =>
    refine ⟨s.disk b, ?_, fun j _ => by simp⟩
    change sfsBufOp false buf pos len b off s = _
    unfold sfsBufOp
    rw [if_neg (by decide), run_bind (rbuf_run volume inuse.1 inuse.2.1 start fits), set_block_same]
    rfl

theorem block_op_serves {write : Bool} {pos : Nat} :
    Serves (fun ino => sfsBlockOp write buf pos ino) write buf 0 SFS_BLKSIZE pos := by
  intro s b volume inuse
  cases write with
  | true =>
    refine ⟨fun i => buf (pos + i), ?_, ?_⟩
    · change sfsBlockOp true buf pos b s = _
      unfold sfsBlockOp sfsWblock
      rw [if_pos rfl, run_bind (write_block_run volume inuse.1 inuse.2.1 _)]
      rfl
    · intro j low
      rw [if_pos ⟨rfl, Nat.zero_le j, by omega⟩, Nat.sub_zero]
  | false =>
    refine ⟨s.disk b, ?_, fun j _ => by simp⟩
    change sfsBlockOp false buf pos b s = _
    unfold sfsBlockOp sfsRblock
    rw [if_neg (by decide), run_bind (read_block_run volume inuse.1 inuse.2.1), set_block_same]
    simp only [Nat.zero_add]
    rfl

/- The block has been found, and the operation done on it. -/
theorem served_written {b off len pos : Nat} {write : Bool} (mem : k ∈ F)
    (loaded : Loaded F s k i b t) (some : 0 < len) (fits : off + len ≤ SFS_BLKSIZE)
    {op : Nat → SfsM (Int × DiskBlock)} (serves : Serves op write buf off len pos)
    (same : IoBytes s k write buf (i * SFS_BLKSIZE + off) pos bytes) :
    ∃ u, op b t = .ok ((0, ioBuffer s k write buf (i * SFS_BLKSIZE + off) len pos), u) ∧
      Written F s k (i * SFS_BLKSIZE + off) (i * SFS_BLKSIZE + off + len) bytes u := by
  have below : i < (t.inodes k).din.blocks := by
    rw [loaded.blocks]
    omega
  have inuse := (loaded.maps.map k mem).below i below
  rw [loaded.found] at inuse
  obtain ⟨data, run, filled⟩ := serves t b loaded.maps.volume inuse
  rw [← loaded.found] at run filled
  have content : ∀ j, off + j < SFS_BLKSIZE →
      t.disk (pointer t k (.data i)) (off + j) = fileFrom s k (i * SFS_BLKSIZE + off) j := by
    intro j inside
    rw [file_from_block off below inside]
    unfold fileFrom
    rw [loaded_data loaded]
  refine ⟨t.setBlock (pointer t k (.data i)) data, ?_, loaded_written loaded some fits
    (fill_written loaded.maps mem below fits bytes ?_)⟩
  · rw [← loaded.found, run]
    unfold ioBuffer
    cases write with
    | true => rfl
    | false =>
      have read : overlay buf (fun j => t.disk (pointer t k (.data i)) (off + j)) len pos =
          overlay buf (fileFrom s k (i * SFS_BLKSIZE + off)) len pos :=
        overlay_congr fun j low => content j (by omega)
      simp only [Bool.false_eq_true, ↓reduceIte, read]
  · intro j low
    rw [filled j low]
    unfold IoBytes at same
    cases write with
    | true =>
      simp only [true_and, ↓reduceIte] at same ⊢
      split_ifs with inside
      · have here : i * SFS_BLKSIZE + j = i * SFS_BLKSIZE + off + (j - off) := by omega
        rw [here, same]
      · rfl
    | false =>
      simp only [Bool.false_eq_true, false_and, ↓reduceIte] at same ⊢
      split_ifs with inside
      · have here := content (j - off) (by omega)
        rw [Nat.add_sub_cancel' inside.1] at here
        have place : i * SFS_BLKSIZE + j = i * SFS_BLKSIZE + off + (j - off) := by omega
        rw [here, same, place]
        rfl
      · rfl

theorem transfer_outcome {off len pos : Nat} {write : Bool} (maps : BlockMaps s F) (mem : k ∈ F)
    (most : i ≤ (s.inodes k).din.blocks) (some : 0 < len) (fits : off + len ≤ SFS_BLKSIZE)
    {op : Nat → SfsM (Int × DiskBlock)} (serves : Serves op write buf off len pos)
    (same : IoBytes s k write buf (i * SFS_BLKSIZE + off) pos bytes) :
    (i < min (limit s k) maxBlocks ∧ ∃ t, sfsTransfer k i buf op s =
        .ok ((0, ioBuffer s k write buf (i * SFS_BLKSIZE + off) len pos), t) ∧
      Written F s k (i * SFS_BLKSIZE + off) (i * SFS_BLKSIZE + off + len) bytes t) ∨
    (i = limit s k ∧ limit s k < maxBlocks ∧
      ∃ t, sfsTransfer k i buf op s = .ok ((-E_NO_MEM, buf), t) ∧ Idle s t) ∨
    (maxBlocks ≤ limit s k ∧ i = maxBlocks ∧
      sfsTransfer k i buf op s = .error .indexOutOfRange) := by
  unfold sfsTransfer
  rcases load_outcome maps mem most with ⟨low, b, t, run, loaded⟩ | ⟨last, low, t, run, idle⟩ |
    ⟨high, last, run⟩
  · obtain ⟨u, done, written⟩ := served_written mem loaded some fits serves same
    refine Or.inl ⟨low, u, ?_, written⟩
    rw [run_bind run]
    exact done
  · refine Or.inr (Or.inl ⟨last, low, t, ?_, idle⟩)
    rw [run_bind run]
    rfl
  · exact Or.inr (Or.inr ⟨high, last, run_bind_stop run⟩)

end

/-- The code, the count and the buffer when `[lo, endpos)` is done as far as there is room,
`pos` bytes into the buffer. -/
def ioResult (s : Sfs) (k : Nat) (write : Bool) (buf : DiskBlock) (lo endpos pos : Nat) :
    Int × Nat × DiskBlock :=
  (if endpos ≤ limit s k * SFS_BLKSIZE then 0 else -E_NO_MEM, pos + served s k lo endpos,
    ioBuffer s k write buf lo (served s k lo endpos) pos)

/-- The volume is not full before the last block that can be mapped, and more is asked for. -/
def PastEnd (s : Sfs) (k endpos : Nat) : Prop :=
  maxBlocks * SFS_BLKSIZE < endpos ∧ maxBlocks ≤ limit s k

section
variable {s t : Sfs} {F : Set Nat} {k lo endpos : Nat} {bytes : Nat → UInt8} {buf : DiskBlock}
  {write : Bool}

theorem io_buffer_nothing {pos : Nat} : ioBuffer s k write buf lo 0 pos = buf := by
  unfold ioBuffer
  cases write with
  | true => rfl
  | false => exact overlay_nothing

theorem io_buffer_further (same : fileData t k = fileData s k ∨ write = true) {n m pos : Nat} :
    ioBuffer t k write (ioBuffer s k write buf lo n pos) (lo + n) m (pos + n) =
      ioBuffer s k write buf lo (n + m) pos := by
  unfold ioBuffer
  cases write with
  | true => rfl
  | false =>
    have same : fileData t k = fileData s k := by simpa using same
    have further : fileFrom t k (lo + n) = fun j => fileFrom s k lo (n + j) := by
      rw [file_from_further]
      unfold fileFrom
      rw [same]
    simp only [Bool.false_eq_true, ↓reduceIte]
    rw [further, overlay_overlay]

/- A read leaves the data, and a write the bytes to come. -/
theorem io_bytes_further {mid pos : Nat} (same : IoBytes s k write buf lo pos bytes) {n : Nat}
    (written : Written F s k lo mid bytes t) :
    IoBytes t k write (ioBuffer s k write buf lo n pos) (lo + n) (pos + n) bytes ∧
      (fileData t k = fileData s k ∨ write = true) := by
  unfold IoBytes ioBuffer at *
  cases write with
  | true =>
    simp only [↓reduceIte] at same ⊢
    refine ⟨?_, Or.inr trivial⟩
    intro j
    rw [Nat.add_assoc, same, Nat.add_assoc]
  | false =>
    simp only [Bool.false_eq_true, ↓reduceIte] at same ⊢
    have kept : fileData t k = fileData s k := by
      rw [written.data, same]
      funext p
      unfold splice
      split_ifs <;> rfl
    exact ⟨same.trans kept.symm, Or.inl kept⟩

theorem io_result_further (buf : DiskBlock) (pos : Nat) {mid n : Nat} (written : Written F s k lo mid bytes t)
    (map : FileMap s k) (next : mid = lo + n) (reach : mid ≤ endpos)
    (within : mid ≤ limit s k * SFS_BLKSIZE)
    (kept : fileData t k = fileData s k ∨ write = true) :
    ioResult t k write (ioBuffer s k write buf lo n pos) mid endpos (pos + n) =
        ioResult s k write buf lo endpos pos ∧
      mid + served t k mid endpos = lo + served s k lo endpos := by
  subst next
  have far := grown_limit map written.grown
  have count : n + served t k (lo + n) endpos = served s k lo endpos := by
    unfold served
    rw [far]
    omega
  constructor
  · unfold ioResult
    rw [far, io_buffer_further kept, Nat.add_assoc, count]
  · rw [Nat.add_assoc, count]

/- The volume is full where the next block would be mapped. -/
theorem io_full {blkno pos : Nat} (maps : BlockMaps s F) (mem : k ∈ F) (mapped : blkno * SFS_BLKSIZE ≤ mappedSize s k)
    (last : blkno = limit s k) (low : limit s k < maxBlocks) (more : blkno * SFS_BLKSIZE < endpos) (idle : Idle s t) :
    (-E_NO_MEM, pos, buf) = ioResult s k write buf (blkno * SFS_BLKSIZE) endpos pos ∧ ¬ PastEnd s k endpos ∧
      Written F s k (blkno * SFS_BLKSIZE) (blkno * SFS_BLKSIZE + served s k (blkno * SFS_BLKSIZE) endpos) bytes t := by
  have full : limit s k * SFS_BLKSIZE = blkno * SFS_BLKSIZE := by rw [last]
  have done : served s k (blkno * SFS_BLKSIZE) endpos = 0 := by
    unfold served
    omega
  refine ⟨?_, ?_, ?_⟩
  · unfold ioResult
    rw [if_neg (by omega), done, io_buffer_nothing]
    rfl
  · unfold PastEnd
    omega
  · rw [done, Nat.add_zero]
    exact idle_written maps mem idle mapped

theorem past_end {i : Nat} (high : maxBlocks ≤ limit s k) (last : i = maxBlocks) (more : i * SFS_BLKSIZE < endpos) :
    PastEnd s k endpos := ⟨last ▸ more, high⟩

/- The bytes after the last whole block. -/
theorem io_tail_outcome {blkno pos : Nat} (maps : BlockMaps s F) (mem : k ∈ F) (start : blkno ≤ (s.inodes k).din.blocks)
    (count : endpos / SFS_BLKSIZE = blkno) (same : IoBytes s k write buf (blkno * SFS_BLKSIZE) pos bytes) :
    Meets (sfsIoBlocks k write endpos 0 blkno pos buf) s
      (fun r t => r = ioResult s k write buf (blkno * SFS_BLKSIZE) endpos pos ∧
        ¬ PastEnd s k endpos ∧ Written F s k (blkno * SFS_BLKSIZE)
          (blkno * SFS_BLKSIZE + served s k (blkno * SFS_BLKSIZE) endpos) bytes t)
      fun e => e = .indexOutOfRange ∧ PastEnd s k endpos := by
  have map := maps.map k mem
  have bounded := map.bounded
  have within := blocks_le_limit map
  have mapped : blkno * SFS_BLKSIZE ≤ mappedSize s k := Nat.mul_le_mul_right _ start
  have split := Nat.div_add_mod' endpos SFS_BLKSIZE
  rw [count] at split
  unfold sfsIoBlocks
  by_cases tail : endpos % SFS_BLKSIZE = 0
  · have done : served s k (blkno * SFS_BLKSIZE) endpos = 0 := by
      unfold served
      omega
    have few : endpos ≤ limit s k * SFS_BLKSIZE := by
      have := Nat.mul_le_mul_right SFS_BLKSIZE (start.trans within)
      omega
    have short : ¬ PastEnd s k endpos := by
      have := Nat.mul_le_mul_right SFS_BLKSIZE (start.trans bounded)
      unfold PastEnd maxBlocks
      omega
    rw [if_neg (by omega), meets_pure]
    refine ⟨?_, short, ?_⟩
    · unfold ioResult
      rw [if_pos few, done, io_buffer_nothing, Nat.add_zero]
    · rw [done, Nat.add_zero]
      exact written_nothing maps mem mapped
  · have short : endpos % SFS_BLKSIZE < SFS_BLKSIZE := Nat.mod_lt _ (by decide)
    rw [if_pos tail, meets_bind]
    have serves : Serves (fun ino => sfsBufOp write buf pos (endpos % SFS_BLKSIZE) ino 0) write
        buf 0 (endpos % SFS_BLKSIZE) pos := by
      apply buf_op_serves
      · decide
      · omega
    have here : IoBytes s k write buf (blkno * SFS_BLKSIZE + 0) pos bytes := by
      rw [Nat.add_zero]
      exact same
    unfold Meets
    rcases transfer_outcome maps mem start (by omega) (by omega) serves here with
      ⟨low, t, run, written⟩ | ⟨last, low, t, run, idle⟩ | ⟨high, last, run⟩
    · have next : (blkno + 1) * SFS_BLKSIZE ≤ limit s k * SFS_BLKSIZE :=
        Nat.mul_le_mul_right _ (by omega)
      have inside : (blkno + 1) * SFS_BLKSIZE ≤ maxBlocks * SFS_BLKSIZE :=
        Nat.mul_le_mul_right _ (by omega)
      rw [Nat.add_mul, Nat.one_mul] at next inside
      have done : served s k (blkno * SFS_BLKSIZE) endpos = endpos % SFS_BLKSIZE := by
        unfold served
        omega
      rw [run]
      dsimp only
      rw [if_neg (by decide)]
      refine ⟨?_, ?_, ?_⟩
      · unfold ioResult
        rw [if_pos (by omega), done, Nat.add_zero]
      · unfold PastEnd
        omega
      · rw [done]
        rw [Nat.add_zero] at written
        exact written
    · rw [run]
      dsimp only
      rw [if_pos (by decide)]
      exact io_full maps mem mapped last low (by omega) idle
    · rw [run]
      exact ⟨rfl, past_end high last (by omega)⟩

/- Whole blocks and tail, by induction on the whole blocks left; the free blocks may be used
   up at any of them. -/
theorem io_blocks_outcome (nblks blkno pos : Nat) (buf : DiskBlock) {s : Sfs}
    (maps : BlockMaps s F) (mem : k ∈ F) (start : blkno ≤ (s.inodes k).din.blocks)
    (count : endpos / SFS_BLKSIZE = blkno + nblks)
    (same : IoBytes s k write buf (blkno * SFS_BLKSIZE) pos bytes) :
    Meets (sfsIoBlocks k write endpos nblks blkno pos buf) s
      (fun r t => r = ioResult s k write buf (blkno * SFS_BLKSIZE) endpos pos ∧
        ¬ PastEnd s k endpos ∧ Written F s k (blkno * SFS_BLKSIZE)
          (blkno * SFS_BLKSIZE + served s k (blkno * SFS_BLKSIZE) endpos) bytes t)
      fun e => e = .indexOutOfRange ∧ PastEnd s k endpos := by
  induction nblks generalizing blkno pos buf s with
  | zero => exact io_tail_outcome maps mem start count same
  | succ nblks ih =>
    have map := maps.map k mem
    have mapped : blkno * SFS_BLKSIZE ≤ mappedSize s k := Nat.mul_le_mul_right _ start
    have reach : (blkno + 1) * SFS_BLKSIZE ≤ endpos := by
      apply (Nat.le_div_iff_mul_le (by decide)).mp
      omega
    have size : (blkno + 1) * SFS_BLKSIZE = blkno * SFS_BLKSIZE + SFS_BLKSIZE := by
      rw [Nat.add_mul, Nat.one_mul]
    have some : 0 < SFS_BLKSIZE := by decide
    have serves : Serves (fun ino => sfsBlockOp write buf pos ino) write buf 0 SFS_BLKSIZE pos :=
      block_op_serves
    have here : IoBytes s k write buf (blkno * SFS_BLKSIZE + 0) pos bytes := by
      rw [Nat.add_zero]
      exact same
    unfold sfsIoBlocks
    rw [meets_bind]
    unfold Meets
    rcases transfer_outcome maps mem start some (by omega) serves here with
      ⟨low, t, run, written⟩ | ⟨last, low, t, run, idle⟩ | ⟨high, last, run⟩
    · rw [Nat.add_zero] at run written
      rw [← size] at written
      have grown : blkno + 1 ≤ (t.inodes k).din.blocks := by
        rw [written.blocks]
        apply le_max_of_le_right
        unfold blocksFor SFS_BLKSIZE
        omega
      obtain ⟨same, kept⟩ := io_bytes_further same (n := SFS_BLKSIZE) written
      rw [← size] at same
      have far := grown_limit map written.grown
      have later := ih (blkno + 1) (pos + SFS_BLKSIZE) (ioBuffer s k write buf
        (blkno * SFS_BLKSIZE) SFS_BLKSIZE pos) written.maps grown (by omega) same
      obtain ⟨result, finish⟩ := io_result_further buf pos written map size reach
        (Nat.mul_le_mul_right _ (by omega)) kept
      have past : PastEnd t k endpos ↔ PastEnd s k endpos := by
        unfold PastEnd
        rw [far]
      rw [result, finish, past] at later
      rw [run]
      dsimp only
      rw [if_neg (by decide)]
      apply meets_mono later
      · rintro r u ⟨eq, short, more⟩
        refine ⟨eq, short, written_trans (by omega) ?_ written more⟩
        rw [← finish]
        omega
      · exact fun _ stopped => stopped
    · rw [run]
      dsimp only
      rw [if_pos (by decide)]
      exact io_full maps mem mapped last low (by omega) idle
    · rw [run]
      exact ⟨rfl, past_end high last (by omega)⟩

/-- Every outcome of the three phases. -/
theorem io_range_outcome {offset : Nat} (buf : DiskBlock) (maps : BlockMaps s F) (mem : k ∈ F)
    (some : offset < endpos)
    (same : IoBytes s k write buf offset 0 bytes) :
    Meets (sfsIoRange k buf offset endpos write) s
      (fun r t => r = ioResult s k write buf offset endpos 0 ∧
        offset / SFS_BLKSIZE ≤ (s.inodes k).din.blocks ∧ ¬ PastEnd s k endpos ∧
        (offset ≤ limit s k * SFS_BLKSIZE →
          Written F s k offset (offset + served s k offset endpos) bytes t) ∧
        (limit s k * SFS_BLKSIZE < offset → Idle s t))
      fun e => (e = .assertion ∧ (s.inodes k).din.blocks < offset / SFS_BLKSIZE) ∨
        e = .indexOutOfRange ∧ offset / SFS_BLKSIZE ≤ (s.inodes k).din.blocks ∧
          PastEnd s k endpos := by
  have map := maps.map k mem
  have bounded := map.bounded
  have within := blocks_le_limit map
  have split := Nat.div_add_mod' offset SFS_BLKSIZE
  have most : offset / SFS_BLKSIZE ≤ endpos / SFS_BLKSIZE := Nat.div_le_div_right some.le
  have short : offset % SFS_BLKSIZE < SFS_BLKSIZE := Nat.mod_lt _ (by decide)
  by_cases start : offset / SFS_BLKSIZE ≤ (s.inodes k).din.blocks
  · by_cases head : offset % SFS_BLKSIZE = 0
    · have aligned : offset / SFS_BLKSIZE * SFS_BLKSIZE = offset := by omega
      have inside : offset ≤ limit s k * SFS_BLKSIZE := by
        have := Nat.mul_le_mul_right SFS_BLKSIZE (start.trans within)
        omega
      rw [← aligned] at same
      have count : endpos / SFS_BLKSIZE = offset / SFS_BLKSIZE +
          (endpos / SFS_BLKSIZE - offset / SFS_BLKSIZE) := by omega
      have blocks := io_blocks_outcome _ _ 0 buf maps mem start count same
      rw [aligned] at blocks
      unfold sfsIoRange
      rw [if_neg (by omega)]
      apply meets_mono blocks
      · rintro r t ⟨result, fits, written⟩
        exact ⟨result, start, fits, fun _ => written, fun far => absurd far (by omega)⟩
      · rintro e ⟨index, past⟩
        exact Or.inr ⟨index, start, past⟩
    · -- The head ends with its block, or with the whole range.
      obtain ⟨size, size_eq⟩ : ∃ size, size = if endpos / SFS_BLKSIZE - offset / SFS_BLKSIZE ≠ 0
          then SFS_BLKSIZE - offset % SFS_BLKSIZE else endpos - offset := ⟨_, rfl⟩
      have fits : offset % SFS_BLKSIZE + size ≤ SFS_BLKSIZE := by
        unfold SFS_BLKSIZE at *
        split_ifs at size_eq <;> omega
      have positive : 0 < size := by
        split_ifs at size_eq <;> omega
      have serves : Serves (fun ino => sfsBufOp write buf 0 size ino (offset % SFS_BLKSIZE)) write
          buf (offset % SFS_BLKSIZE) size 0 := by
        apply buf_op_serves
        · exact short
        · exact fits
      have here := same
      rw [← split] at here
      unfold sfsIoRange
      rw [if_pos head]
      dsimp only
      rw [← size_eq, meets_bind]
      rcases transfer_outcome maps mem start positive fits serves here with
        ⟨low, t, run, written⟩ | ⟨last, low, t, run, idle⟩ | ⟨high, last, run⟩
      · rw [split] at run written
        have next : (offset / SFS_BLKSIZE + 1) * SFS_BLKSIZE ≤ limit s k * SFS_BLKSIZE :=
          Nat.mul_le_mul_right _ (by omega)
        have inside : (offset / SFS_BLKSIZE + 1) * SFS_BLKSIZE ≤ maxBlocks * SFS_BLKSIZE :=
          Nat.mul_le_mul_right _ (by omega)
        rw [Nat.add_mul, Nat.one_mul] at next inside
        unfold Meets
        rw [run]
        dsimp only
        rw [if_neg (by decide)]
        by_cases whole : endpos / SFS_BLKSIZE - offset / SFS_BLKSIZE = 0
        · rw [if_neg (by omega)] at size_eq
          have reach : endpos < offset / SFS_BLKSIZE * SFS_BLKSIZE + SFS_BLKSIZE := by
            unfold SFS_BLKSIZE at *
            omega
          have done : served s k offset endpos = size := by
            unfold served
            omega
          rw [if_pos whole]
          refine ⟨?_, start, ?_, ?_, fun far => absurd far (by omega)⟩
          · unfold ioResult
            rw [if_pos (by omega), done, Nat.zero_add]
          · unfold PastEnd
            omega
          · intro _
            rw [done]
            exact written
        · rw [if_pos whole] at size_eq
          have top : offset + size = (offset / SFS_BLKSIZE + 1) * SFS_BLKSIZE := by
            rw [Nat.add_mul, Nat.one_mul]
            omega
          have reach : (offset / SFS_BLKSIZE + 1) * SFS_BLKSIZE ≤ endpos := by
            apply (Nat.le_div_iff_mul_le (by decide)).mp
            omega
          have grown : offset / SFS_BLKSIZE + 1 ≤ (t.inodes k).din.blocks := by
            rw [written.blocks, top]
            apply le_max_of_le_right
            unfold blocksFor SFS_BLKSIZE
            omega
          have far := grown_limit map written.grown
          obtain ⟨after, kept⟩ := io_bytes_further same (n := size) written
          have further : offset + size ≤ endpos := by omega
          obtain ⟨result, finish⟩ := io_result_further buf 0 written map rfl further (by omega) kept
          rw [top] at after result finish
          rw [Nat.zero_add] at after result
          have count : endpos / SFS_BLKSIZE = offset / SFS_BLKSIZE + 1 +
              (endpos / SFS_BLKSIZE - offset / SFS_BLKSIZE - 1) := by omega
          have later := io_blocks_outcome _ _ size _ written.maps mem grown count after
          have past : PastEnd t k endpos ↔ PastEnd s k endpos := by
            unfold PastEnd
            rw [far]
          rw [result, finish, past] at later
          rw [if_neg whole]
          apply meets_mono later
          · rintro r u ⟨eq, enough, more⟩
            refine ⟨eq, start, enough, ?_, fun far => absurd far (by omega)⟩
            intro _
            rw [← top] at more
            exact written_trans (by omega) (by omega) written more
          · rintro e ⟨index, past⟩
            exact Or.inr ⟨index, start, past⟩
      · have full : limit s k * SFS_BLKSIZE = offset / SFS_BLKSIZE * SFS_BLKSIZE := by rw [last]
        have done : served s k offset endpos = 0 := by
          unfold served
          omega
        unfold Meets
        rw [run]
        dsimp only
        rw [if_pos (by decide)]
        refine ⟨?_, start, ?_, fun near => absurd near (by omega), fun _ => idle⟩
        · unfold ioResult
          rw [if_neg (by omega), done, io_buffer_nothing]
        · unfold PastEnd
          omega
      · unfold Meets
        rw [run]
        exact Or.inr ⟨rfl, start, past_end high last (by omega)⟩
  · have beyond : sfsBmapLoadNolock k (offset / SFS_BLKSIZE) s = .error .assertion :=
      load_beyond_stops (by omega)
    have stops : ∀ op, sfsTransfer k (offset / SFS_BLKSIZE) buf op s = .error .assertion :=
      fun op => run_bind_stop beyond
    have run : sfsIoRange k buf offset endpos write s = .error .assertion := by
      unfold sfsIoRange
      by_cases head : offset % SFS_BLKSIZE = 0
      · rw [if_neg (by omega)]
        cases count : endpos / SFS_BLKSIZE - offset / SFS_BLKSIZE with
        | zero =>
          have tail : endpos % SFS_BLKSIZE ≠ 0 := by
            unfold SFS_BLKSIZE at *
            omega
          unfold sfsIoBlocks
          rw [if_pos tail]
          exact run_bind_stop (stops _)
        | succ n => exact run_bind_stop (stops _)
      · rw [if_pos head]
        exact run_bind_stop (stops _)
    unfold Meets
    rw [run]
    exact Or.inl ⟨rfl, by omega⟩

end

end Ucore
