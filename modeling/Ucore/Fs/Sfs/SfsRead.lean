import Ucore.Fs.Sfs.SfsWrite

/- The three phases of `sfs_io_nolock` when it reads. -/
namespace Ucore
open Programs Words ByteFile

section
variable {old content : DiskBlock} {n m start : Nat}

theorem overlay_nothing : overlay old content 0 start = old := by
  funext j
  unfold overlay
  rw [if_neg (by omega)]

theorem overlay_overlay (old content : DiskBlock) (n m start : Nat) :
    overlay (overlay old content n start) (fun j => content (n + j)) m (start + n) =
      overlay old content (n + m) start := by
  funext j
  unfold overlay
  by_cases second : start + n ≤ j ∧ j < start + n + m
  · have shift : n + (j - (start + n)) = j - start := by omega
    rw [if_pos second, if_pos (by omega), ← shift]
  · rw [if_neg second]
    by_cases first : start ≤ j ∧ j < start + n
    · rw [if_pos first, if_pos (by omega)]
    · rw [if_neg first, if_neg (by omega)]

theorem overlay_congr {other : DiskBlock} (same : ∀ j < n, content j = other j) :
    overlay old content n start = overlay old other n start := by
  funext j
  unfold overlay
  by_cases inside : start ≤ j ∧ j < start + n
  · rw [if_pos inside, if_pos inside, same _ (by omega)]
  · rw [if_neg inside, if_neg inside]

end

section Transfer
variable {s : Sfs} {F : Set Nat} {k i : Nat} {buf : DiskBlock}

/-- The bytes of a file from `lo` on. -/
def fileFrom (s : Sfs) (k lo : Nat) : DiskBlock := fun j => fileData s k (lo + j)

theorem file_from_block (off : Nat) (below : i < (s.inodes k).din.blocks) {j : Nat}
    (inside : off + j < SFS_BLKSIZE) :
    s.disk (pointer s k (.data i)) (off + j) = fileFrom s k (i * SFS_BLKSIZE + off) j := by
  have block : (i * SFS_BLKSIZE + off + j) / SFS_BLKSIZE = i := by
    unfold SFS_BLKSIZE at *
    omega
  have rest : (i * SFS_BLKSIZE + off + j) % SFS_BLKSIZE = off + j := by
    unfold SFS_BLKSIZE at *
    omega
  unfold fileFrom
  rw [file_data_inside (mapped_block.mpr (by rw [block]; exact below))]
  unfold fileByte
  rw [block, rest]

theorem transfer_buf_read_run (maps : BlockMaps s F) (mem : k ∈ F)
    (below : i < (s.inodes k).din.blocks) {off len pos : Nat} (start : off < SFS_BLKSIZE)
    (fits : off + len ≤ SFS_BLKSIZE) :
    sfsTransfer k i buf (fun ino => sfsBufOp false buf pos len ino off) s =
      .ok ((0, overlay buf (fileFrom s k (i * SFS_BLKSIZE + off)) len pos), s) := by
  have inuse := (maps.map k mem).below i below
  have same : overlay buf (fun j => s.disk (pointer s k (.data i)) (off + j)) len pos =
      overlay buf (fileFrom s k (i * SFS_BLKSIZE + off)) len pos :=
    overlay_congr fun j low => file_from_block off below (by omega)
  unfold sfsTransfer
  rw [run_bind (load_below_run maps mem below)]
  dsimp only
  unfold sfsBufOp
  rw [if_neg (by decide), run_bind (rbuf_run maps.volume inuse.1 inuse.2.1 start fits), ← same]
  rfl

theorem transfer_block_read_run (maps : BlockMaps s F) (mem : k ∈ F)
    (below : i < (s.inodes k).din.blocks) {pos : Nat} :
    sfsTransfer k i buf (fun ino => sfsBlockOp false buf pos ino) s =
      .ok ((0, overlay buf (fileFrom s k (i * SFS_BLKSIZE)) SFS_BLKSIZE pos), s) := by
  have inuse := (maps.map k mem).below i below
  have same : overlay buf (s.disk (pointer s k (.data i))) SFS_BLKSIZE pos =
      overlay buf (fileFrom s k (i * SFS_BLKSIZE)) SFS_BLKSIZE pos := by
    apply overlay_congr
    intro j low
    have here := file_from_block 0 below (by omega : 0 + j < SFS_BLKSIZE)
    rw [Nat.zero_add, Nat.add_zero] at here
    exact here
  unfold sfsTransfer
  rw [run_bind (load_below_run maps mem below)]
  dsimp only
  unfold sfsBlockOp sfsRblock
  rw [if_neg (by decide), run_bind (read_block_run maps.volume inuse.1 inuse.2.1), ← same]
  rfl

end Transfer

section Phases
variable {s : Sfs} {F : Set Nat} {k endpos : Nat}

theorem file_from_further {lo n : Nat} :
    (fun j => fileFrom s k lo (n + j)) = fileFrom s k (lo + n) := by
  funext j
  unfold fileFrom
  rw [Nat.add_assoc]

/- Whole blocks and tail, by induction on the whole blocks left. -/
theorem io_blocks_read_run (nblks blkno alen : Nat) (buf : DiskBlock) (maps : BlockMaps s F)
    (mem : k ∈ F) (count : endpos / SFS_BLKSIZE = blkno + nblks) (mapped : endpos ≤ mappedSize s k) :
    sfsIoBlocks k false endpos nblks blkno alen buf s =
      .ok ((0, alen + (endpos - blkno * SFS_BLKSIZE), overlay buf
        (fileFrom s k (blkno * SFS_BLKSIZE)) (endpos - blkno * SFS_BLKSIZE) alen), s) := by
  induction nblks generalizing blkno alen buf with
  | zero =>
    have split := Nat.div_add_mod' endpos SFS_BLKSIZE
    rw [count, Nat.add_zero] at split
    unfold sfsIoBlocks
    by_cases tail : endpos % SFS_BLKSIZE = 0
    · rw [if_neg (by omega), show endpos - blkno * SFS_BLKSIZE = 0 by omega, overlay_nothing]
      rfl
    · have short : endpos % SFS_BLKSIZE < SFS_BLKSIZE := Nat.mod_lt _ (by decide)
      have below : blkno < (s.inodes k).din.blocks := by
        unfold mappedSize SFS_BLKSIZE at *
        omega
      rw [if_pos tail, run_bind (transfer_buf_read_run maps mem below (by decide) (by omega))]
      dsimp only
      rw [if_neg (by decide), Nat.add_zero,
        show endpos - blkno * SFS_BLKSIZE = endpos % SFS_BLKSIZE by omega]
      rfl
  | succ nblks ih =>
    have reach : (blkno + 1) * SFS_BLKSIZE ≤ endpos := by
      apply (Nat.le_div_iff_mul_le (by decide)).mp
      omega
    have next : blkno * SFS_BLKSIZE + SFS_BLKSIZE = (blkno + 1) * SFS_BLKSIZE := by
      rw [Nat.add_mul]
      omega
    have below : blkno < (s.inodes k).din.blocks := by
      unfold mappedSize SFS_BLKSIZE at *
      omega
    have further : fileFrom s k ((blkno + 1) * SFS_BLKSIZE) =
        fun j => fileFrom s k (blkno * SFS_BLKSIZE) (SFS_BLKSIZE + j) := by
      rw [file_from_further, next]
    have total : SFS_BLKSIZE + (endpos - (blkno + 1) * SFS_BLKSIZE) =
        endpos - blkno * SFS_BLKSIZE := by omega
    have rest := ih (blkno + 1) (alen + SFS_BLKSIZE)
      (overlay buf (fileFrom s k (blkno * SFS_BLKSIZE)) SFS_BLKSIZE alen) (by omega)
    rw [further, overlay_overlay, Nat.add_assoc alen, total] at rest
    unfold sfsIoBlocks
    rw [run_bind (transfer_block_read_run maps mem below)]
    dsimp only
    rw [if_neg (by decide), rest]

/-- All three phases; the volume is as before. -/
theorem io_range_read_run {offset : Nat} {buf : DiskBlock} (maps : BlockMaps s F) (mem : k ∈ F)
    (some : offset < endpos) (mapped : endpos ≤ mappedSize s k) :
    sfsIoRange k buf offset endpos false s =
      .ok ((0, endpos - offset, overlay buf (fileFrom s k offset) (endpos - offset) 0), s) := by
  have split := Nat.div_add_mod' offset SFS_BLKSIZE
  have most : offset / SFS_BLKSIZE ≤ endpos / SFS_BLKSIZE := Nat.div_le_div_right some.le
  unfold sfsIoRange
  by_cases head : offset % SFS_BLKSIZE = 0
  · have aligned : offset / SFS_BLKSIZE * SFS_BLKSIZE = offset := by omega
    rw [if_neg (by omega), io_blocks_read_run _ _ _ _ maps mem (by omega) mapped, aligned, Nat.zero_add]
  · have short : offset % SFS_BLKSIZE < SFS_BLKSIZE := Nat.mod_lt _ (by decide)
    have below : offset / SFS_BLKSIZE < (s.inodes k).din.blocks := by
      unfold mappedSize SFS_BLKSIZE at *
      omega
    rw [if_pos head]
    dsimp only
    by_cases whole : endpos / SFS_BLKSIZE - offset / SFS_BLKSIZE = 0
    · have fits : offset % SFS_BLKSIZE + (endpos - offset) ≤ SFS_BLKSIZE := by
        unfold SFS_BLKSIZE at *
        omega
      rw [if_neg (by omega), run_bind (transfer_buf_read_run maps mem below short fits), split]
      dsimp only
      rw [if_neg (by decide), if_pos whole]
      rfl
    · have next : (offset / SFS_BLKSIZE + 1) * SFS_BLKSIZE =
          offset + (SFS_BLKSIZE - offset % SFS_BLKSIZE) := by
        unfold SFS_BLKSIZE at *
        omega
      have reach : (offset / SFS_BLKSIZE + 1) * SFS_BLKSIZE ≤ endpos := by
        apply (Nat.le_div_iff_mul_le (by decide)).mp
        omega
      have further : fileFrom s k ((offset / SFS_BLKSIZE + 1) * SFS_BLKSIZE) =
          fun j => fileFrom s k offset (SFS_BLKSIZE - offset % SFS_BLKSIZE + j) := by
        rw [file_from_further, next]
      have total : SFS_BLKSIZE - offset % SFS_BLKSIZE +
          (endpos - (offset / SFS_BLKSIZE + 1) * SFS_BLKSIZE) = endpos - offset := by omega
      have joined := overlay_overlay buf (fileFrom s k offset) (SFS_BLKSIZE - offset % SFS_BLKSIZE)
        (endpos - (offset / SFS_BLKSIZE + 1) * SFS_BLKSIZE) 0
      rw [Nat.zero_add, total] at joined
      rw [if_pos whole, run_bind (transfer_buf_read_run maps mem below short (by omega)), split]
      dsimp only
      rw [if_neg (by decide), if_neg whole, io_blocks_read_run _ _ _ _ maps mem (by omega) mapped, further,
        joined, total]

end Phases

end Ucore
