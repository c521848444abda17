import Ucore.Fs.Sfs.BmapLoad
import Ucore.Lib.ByteFile

/- The three phases of `sfs_io_nolock` when it writes. -/
namespace Ucore
open Programs Words ByteFile

/-- The mapped blocks of a file one after the other, and zeros after them. -/
def fileData (s : Sfs) (k p : Nat) : UInt8 := if p < mappedSize s k then fileByte s k p else 0

/-- `[lo, hi)` of file `k` has become `bytes`, with the blocks that this takes. -/
structure Written (F : Set Nat) (s : Sfs) (k lo hi : Nat) (bytes : Nat → UInt8) (t : Sfs) :
    Prop where
  maps : BlockMaps t F
  blocks : (t.inodes k).din.blocks = max (s.inodes k).din.blocks (blocksFor hi)
  size : (t.inodes k).din.size = (s.inodes k).din.size
  others : ∀ g, g ≠ k → t.inodes g = s.inodes g
  data : fileData t k = splice (fileData s k) bytes lo hi
  elsewhere : ∀ g ∈ F, g ≠ k → fileData t g = fileData s g
  room : ∀ n, blocksFor hi ≤ n → need s k n ≤ s.unusedBlocks → need t k n ≤ t.unusedBlocks
  grown : Grown s k t

section
variable {s t u : Sfs} {F : Set Nat} {k lo mid hi : Nat} {bytes : Nat → UInt8}

theorem blocks_for_le {n m : Nat} : blocksFor n ≤ m ↔ n ≤ m * SFS_BLKSIZE := by
  unfold blocksFor SFS_BLKSIZE
  omega

theorem file_data_inside {p : Nat} (inside : p < mappedSize s k) :
    fileData s k p = fileByte s k p := if_pos inside

theorem file_data_outside {p : Nat} (outside : mappedSize s k ≤ p) : fileData s k p = 0 :=
  if_neg (by omega)

theorem written_nothing (maps : BlockMaps s F) (mem : k ∈ F) (mapped : lo ≤ mappedSize s k) :
    Written F s k lo lo bytes s := by
  have enough := blocks_for_le.mpr mapped
  refine ⟨maps, by omega, rfl, fun _ _ => rfl, splice_nothing.symm, fun _ _ _ => rfl, ?_,
    grown_refl (maps.map k mem)⟩
  intro n _ room
  exact room

theorem written_trans (low : lo ≤ mid) (high : mid ≤ hi) (first : Written F s k lo mid bytes t)
    (second : Written F t k mid hi bytes u) : Written F s k lo hi bytes u := by
  have grows := blocks_for_mono high
  constructor
  · exact second.maps
  · rw [second.blocks, first.blocks]
    omega
  · rw [second.size, first.size]
  · intro g ne
    rw [second.others g ne, first.others g ne]
  · rw [second.data, first.data, splice_splice low high]
  · intro g mem ne
    rw [second.elsewhere g mem ne, first.elsewhere g mem ne]
  · intro n most room
    exact second.room n most (first.room n (by omega) room)
  · exact grown_trans first.grown second.grown

/- Loading a block adds zeros. -/
theorem loaded_data {i b : Nat} (loaded : Loaded F s k i b t) : fileData t k = fileData s k := by
  have grown : mappedSize s k ≤ mappedSize t k := by
    unfold mappedSize
    apply Nat.mul_le_mul_right
    rw [loaded.blocks]
    exact Nat.le_max_left ..
  funext p
  by_cases inside : p < mappedSize t k
  · rw [file_data_inside inside, loaded.bytes p inside]
    rfl
  · rw [file_data_outside (by omega), file_data_outside (by omega)]

theorem loaded_elsewhere {i b g : Nat} (loaded : Loaded F s k i b t) (mem : g ∈ F) (ne : g ≠ k) :
    fileData t g = fileData s g := by
  have same : mappedSize t g = mappedSize s g := by
    unfold mappedSize
    rw [loaded.others g ne]
  funext p
  unfold fileData
  rw [same]
  by_cases inside : p < mappedSize s g
  · rw [if_pos inside, if_pos inside, loaded.elsewhere g mem ne p inside]
  · rw [if_neg inside, if_neg inside]

def Sfs.setBlock (s : Sfs) (b : Nat) (data : DiskBlock) : Sfs :=
  { s with disk := Function.update s.disk b data }

theorem set_block_volume (volume : Volume s) (b : Nat) (data : DiskBlock) :
    Volume (s.setBlock b data) :=
  ⟨volume.device, volume.addressable, volume.words, volume.covered, volume.free, volume.counted⟩

theorem set_block_self (b : Nat) (data : DiskBlock) : (s.setBlock b data).disk b = data := by
  unfold Sfs.setBlock
  simp

theorem set_block_other {b c : Nat} (data : DiskBlock) (ne : c ≠ b) :
    (s.setBlock b data).disk c = s.disk c := by
  unfold Sfs.setBlock
  simp [ne]

end

section Fill
variable {s : Sfs} {F : Set Nat} {k i : Nat}

/- No block map is read from a block of data. -/
theorem set_block_pointer (maps : BlockMaps s F) (mem : k ∈ F) (below : i < (s.inodes k).din.blocks)
    (data : DiskBlock) {g : Nat} (mg : g ∈ F) {a : Slot} (valid : a.Valid) :
    pointer (s.setBlock (pointer s k (.data i)) data) g a = pointer s g a := by
  have inode : (s.setBlock (pointer s k (.data i)) data).inodes g = s.inodes g := rfl
  apply pointer_congr inode _ valid
  intro _ j _
  rw [set_block_other data (data_ne_entries maps mem mg below).symm]

theorem set_block_maps (maps : BlockMaps s F) (mem : k ∈ F) (below : i < (s.inodes k).din.blocks)
    (data : DiskBlock) : BlockMaps (s.setBlock (pointer s k (.data i)) data) F := by
  constructor
  · exact set_block_volume maps.volume _ data
  · intro g mg
    have map := maps.map g mg
    have bounded := map.bounded
    have same : ∀ j < SFS_NDIRECT + SFS_BLK_NENTRY,
        pointer (s.setBlock (pointer s k (.data i)) data) g (.data j) = pointer s g (.data j) :=
      fun j low => set_block_pointer maps mem below data mg (a := .data j) low
    refine ⟨map.bounded, ?_, ?_, map.entries⟩
    · intro j low
      rw [same j (Nat.lt_of_lt_of_le low bounded)]
      exact map.below j low
    · intro j above inside
      rw [same j inside]
      exact map.above j above inside
  · intro f mf g mg a c va vc nonzero shared
    rw [set_block_pointer maps mem below data mf va] at nonzero shared
    rw [set_block_pointer maps mem below data mg vc] at shared
    exact maps.unshared f mf g mg a c va vc nonzero shared

theorem mapped_block {p : Nat} : p < mappedSize s k ↔ p / SFS_BLKSIZE < (s.inodes k).din.blocks :=
  (Nat.div_lt_iff_lt_mul (by decide)).symm

/- Overwriting block `i` of a file changes the bytes of that block only. -/
theorem set_block_byte (maps : BlockMaps s F) (mem : k ∈ F) (below : i < (s.inodes k).din.blocks)
    (data : DiskBlock) {g p : Nat} (mg : g ∈ F) (inside : p < mappedSize s g) :
    fileByte (s.setBlock (pointer s k (.data i)) data) g p =
      if g = k ∧ p / SFS_BLKSIZE = i then data (p % SFS_BLKSIZE) else fileByte s g p := by
  have here := mapped_block.mp inside
  have bounded := (maps.map g mg).bounded
  have boundedk := (maps.map k mem).bounded
  have valid : Slot.Valid (.data (p / SFS_BLKSIZE)) := Nat.lt_of_lt_of_le here bounded
  have validi : Slot.Valid (.data i) := Nat.lt_of_lt_of_le below boundedk
  unfold fileByte
  rw [set_block_pointer maps mem below data mg valid]
  by_cases same : g = k ∧ p / SFS_BLKSIZE = i
  · rw [if_pos same, same.1, same.2, set_block_self]
  · rw [if_neg same, set_block_other]
    intro shared
    have nonzero := ((maps.map g mg).below _ here).1
    obtain ⟨file, slot⟩ := maps.unshared g mg k mem _ _ valid validi nonzero shared
    exact same ⟨file, by simpa using slot⟩

/-- A block of a file of which `[off, off + len)` has been overwritten. -/
theorem fill_written (maps : BlockMaps s F) (mem : k ∈ F) (below : i < (s.inodes k).din.blocks)
    {off len : Nat} (fits : off + len ≤ SFS_BLKSIZE) (bytes : Nat → UInt8) {data : DiskBlock}
    (filled : ∀ j < SFS_BLKSIZE, data j = if off ≤ j ∧ j < off + len
      then bytes (i * SFS_BLKSIZE + j) else s.disk (pointer s k (.data i)) j) :
    Written F s k (i * SFS_BLKSIZE + off) (i * SFS_BLKSIZE + off + len) bytes
      (s.setBlock (pointer s k (.data i)) data) := by
  have most : blocksFor (i * SFS_BLKSIZE + off + len) ≤ (s.inodes k).din.blocks := by
    apply blocks_for_le.mpr
    have : (i + 1) * SFS_BLKSIZE ≤ (s.inodes k).din.blocks * SFS_BLKSIZE :=
      Nat.mul_le_mul_right _ below
    rw [Nat.add_mul] at this
    omega
  constructor
  · exact set_block_maps maps mem below data
  · change (s.inodes k).din.blocks = _
    omega
  · rfl
  · intro g _
    rfl
  · funext p
    by_cases inside : p < mappedSize s k
    · have outside : fileData (s.setBlock (pointer s k (.data i)) data) k p = _ := if_pos inside
      rw [outside, set_block_byte maps mem below data mem inside]
      by_cases here : p / SFS_BLKSIZE = i
      · have low : p % SFS_BLKSIZE < SFS_BLKSIZE := Nat.mod_lt _ (by decide)
        have split := Nat.div_add_mod' p SFS_BLKSIZE
        rw [here] at split
        rw [if_pos ⟨rfl, here⟩, filled _ low, split]
        unfold splice
        rw [file_data_inside inside]
        unfold fileByte
        rw [here]
        congr 1
        simp only [eq_iff_iff]
        omega
      · rw [if_neg fun same => here same.2, splice_outside, file_data_inside inside]
        unfold SFS_BLKSIZE at *
        omega
    · have outside : fileData (s.setBlock (pointer s k (.data i)) data) k p = 0 := if_neg inside
      rw [outside, splice_outside, file_data_outside (by omega)]
      have mapped := blocks_for_le.mp most
      unfold mappedSize at inside
      omega
  · intro g mg ne
    funext p
    by_cases inside : p < mappedSize s g
    · have outside : fileData (s.setBlock (pointer s k (.data i)) data) g p = _ := if_pos inside
      rw [outside, set_block_byte maps mem below data mg inside, if_neg fun same => ne same.1,
        file_data_inside inside]
    · have outside : fileData (s.setBlock (pointer s k (.data i)) data) g p = 0 := if_neg inside
      rw [outside, file_data_outside (by omega)]
  · intro n _ room
    exact room
  · have grown := grown_refl (maps.map k mem)
    refine ⟨grown.more, grown.kind, ?_, grown.account, grown.indirect, grown.quiet⟩
    intro c inuse apart
    refine ⟨inuse, ?_, ?_⟩
    · rintro g rfl a valid
      rw [set_block_pointer maps mem below data mem valid]
      exact apart g rfl a valid
    · have bounded := (maps.map k mem).bounded
      apply set_block_other
      exact (apart k rfl (.data i) (Nat.lt_of_lt_of_le below bounded)).symm

end Fill

section Transfer
variable {s t : Sfs} {F : Set Nat} {k i b : Nat} {buf : DiskBlock} {bytes : Nat → UInt8}

theorem loaded_written (loaded : Loaded F s k i b t) {off len : Nat} (some : 0 < len)
    (fits : off + len ≤ SFS_BLKSIZE) {u : Sfs}
    (written : Written F t k (i * SFS_BLKSIZE + off) (i * SFS_BLKSIZE + off + len) bytes u) :
    Written F s k (i * SFS_BLKSIZE + off) (i * SFS_BLKSIZE + off + len) bytes u := by
  have last : blocksFor (i * SFS_BLKSIZE + off + len) = i + 1 := by
    unfold blocksFor SFS_BLKSIZE at *
    omega
  constructor
  · exact written.maps
  · rw [written.blocks, loaded.blocks, last]
    omega
  · rw [written.size, loaded.size]
  · intro g ne
    rw [written.others g ne, loaded.others g ne]
  · rw [written.data, loaded_data loaded]
  · intro g mem ne
    rw [written.elsewhere g mem ne, loaded_elsewhere loaded mem ne]
  · intro n most room
    exact written.room n most (loaded.room n (by omega) room)
  · exact grown_trans loaded.grown written.grown

/-- `op` overwrites `[off, off + len)` of the block it is given. -/
def Overwrites (op : Nat → SfsM (Int × DiskBlock)) (buf : DiskBlock) (off len : Nat)
    (content : Nat → UInt8) : Prop :=
  ∀ (s : Sfs) (b : Nat), Volume s → InUse s b → ∃ data, op b s = .ok ((0, buf), s.setBlock b data) ∧
    ∀ j < SFS_BLKSIZE, data j = if off ≤ j ∧ j < off + len then content j else s.disk b j

theorem buf_op_overwrites {off len pos : Nat} (start : off < SFS_BLKSIZE)
    (fits : off + len ≤ SFS_BLKSIZE) {content : Nat → UInt8}
    (same : ∀ j < len, content (off + j) = buf (pos + j)) :
    Overwrites (fun ino => sfsBufOp true buf pos len ino off) buf off len content := by
  intro s b volume inuse
  refine ⟨overlay (s.disk b) (fun i => buf (pos + i)) len off, ?_, ?_⟩
  · change sfsBufOp true buf pos len b off s = _
    unfold sfsBufOp
    rw [if_pos rfl, run_bind (wbuf_run volume inuse.1 inuse.2.1 _ start fits)]
    rfl
  · intro j _
    unfold overlay
    by_cases inside : off ≤ j ∧ j < off + len
    · have here := same (j - off) (by omega)
      rw [Nat.add_sub_cancel' inside.1] at here
      rw [if_pos inside, if_pos inside, here]
    · rw [if_neg inside, if_neg inside]

theorem block_op_overwrites {pos : Nat} {content : Nat → UInt8}
    (same : ∀ j < SFS_BLKSIZE, content j = buf (pos + j)) :
    Overwrites (fun ino => sfsBlockOp true buf pos ino) buf 0 SFS_BLKSIZE content := by
  intro s b volume inuse
  refine ⟨fun i => buf (pos + i), ?_, ?_⟩
  · change sfsBlockOp true buf pos b s = _
    unfold sfsBlockOp sfsWblock
    rw [if_pos rfl, run_bind (write_block_run volume inuse.1 inuse.2.1 _)]
    rfl
  · intro j low
    rw [if_pos ⟨Nat.zero_le j, by omega⟩, same j low]

theorem transfer_write_run (bytes : Nat → UInt8) (maps : BlockMaps s F) (mem : k ∈ F)
    (most : i ≤ (s.inodes k).din.blocks) (low : i < SFS_NDIRECT + SFS_BLK_NENTRY)
    (room : need s k (i + 1) ≤ s.unusedBlocks) {off len : Nat} (some : 0 < len)
    (fits : off + len ≤ SFS_BLKSIZE) {op : Nat → SfsM (Int × DiskBlock)}
    (writes : Overwrites op buf off len fun j => bytes (i * SFS_BLKSIZE + j)) :
    ∃ t, sfsTransfer k i buf op s = .ok ((0, buf), t) ∧
      Written F s k (i * SFS_BLKSIZE + off) (i * SFS_BLKSIZE + off + len) bytes t := by
  obtain ⟨b, t, run, loaded, _⟩ := load_run maps mem most low room
  have below : i < (t.inodes k).din.blocks := by
    rw [loaded.blocks]
    omega
  have inuse := (loaded.maps.map k mem).below i below
  rw [loaded.found] at inuse
  obtain ⟨data, written, filled⟩ := writes t b loaded.maps.volume inuse
  rw [← loaded.found] at filled written
  refine ⟨_, ?_, loaded_written loaded some fits
    (fill_written loaded.maps mem below fits bytes filled)⟩
  unfold sfsTransfer
  rw [run_bind run]
  dsimp only
  rw [← loaded.found]
  exact written

end Transfer

section Phases
variable {F : Set Nat} {k endpos : Nat}

theorem need_mono {s : Sfs} {n m : Nat} (le : n ≤ m) : need s k n ≤ need s k m := by
  unfold need
  split_ifs <;> omega

/- Whole blocks and tail: the induction is on the whole blocks left, and each leaves room
   for the rest. -/
theorem io_blocks_write_run (buf : DiskBlock) (bytes : Nat → UInt8) (nblks blkno alen : Nat)
    {s : Sfs} (maps : BlockMaps s F) (mem : k ∈ F) (start : blkno ≤ (s.inodes k).din.blocks)
    (count : endpos / SFS_BLKSIZE = blkno + nblks)
    (low : blocksFor endpos ≤ SFS_NDIRECT + SFS_BLK_NENTRY)
    (room : need s k (blocksFor endpos) ≤ s.unusedBlocks)
    (same : ∀ j, bytes (blkno * SFS_BLKSIZE + j) = buf (alen + j)) :
    ∃ t, sfsIoBlocks k true endpos nblks blkno alen buf s =
        .ok ((0, alen + (endpos - blkno * SFS_BLKSIZE), buf), t) ∧
      Written F s k (blkno * SFS_BLKSIZE) endpos bytes t := by
  induction nblks generalizing blkno alen s with
  | zero =>
    have split := Nat.div_add_mod' endpos SFS_BLKSIZE
    rw [count, Nat.add_zero] at split
    by_cases tail : endpos % SFS_BLKSIZE = 0
    · have done : endpos = blkno * SFS_BLKSIZE := by omega
      refine ⟨s, ?_, ?_⟩
      · unfold sfsIoBlocks
        rw [if_neg (by omega), done, Nat.sub_self]
        rfl
      · rw [done]
        exact written_nothing maps mem (Nat.mul_le_mul_right _ start)
    · have last : blocksFor endpos = blkno + 1 := by
        unfold blocksFor SFS_BLKSIZE at *
        omega
      have short : endpos % SFS_BLKSIZE < SFS_BLKSIZE := Nat.mod_lt _ (by decide)
      have writes : Overwrites (fun ino => sfsBufOp true buf alen (endpos % SFS_BLKSIZE) ino 0) buf 0
          (endpos % SFS_BLKSIZE) fun j => bytes (blkno * SFS_BLKSIZE + j) := by
        apply buf_op_overwrites (by decide) (by omega)
        intro j _
        rw [Nat.zero_add, same j]
      obtain ⟨t, run, written⟩ := transfer_write_run bytes maps mem start (by omega)
        (by rw [← last]; exact room) (by omega) (by omega) writes
      refine ⟨t, ?_, ?_⟩
      · unfold sfsIoBlocks
        rw [if_pos tail, run_bind run]
        dsimp only
        rw [if_neg (by decide), show endpos - blkno * SFS_BLKSIZE = endpos % SFS_BLKSIZE by omega]
        rfl
      · rw [Nat.add_zero, split] at written
        exact written
  | succ nblks ih =>
    have reach : (blkno + 1) * SFS_BLKSIZE ≤ endpos := by
      apply (Nat.le_div_iff_mul_le (by decide)).mp
      omega
    have further : blkno + 1 ≤ blocksFor endpos := by
      unfold blocksFor SFS_BLKSIZE at *
      omega
    have writes : Overwrites (fun ino => sfsBlockOp true buf alen ino) buf 0 SFS_BLKSIZE
        fun j => bytes (blkno * SFS_BLKSIZE + j) := block_op_overwrites fun j _ => same j
    obtain ⟨t, run, written⟩ := transfer_write_run bytes maps mem start (by omega)
      ((need_mono further).trans room) (by decide) (by omega) writes
    have next : blkno * SFS_BLKSIZE + 0 + SFS_BLKSIZE = (blkno + 1) * SFS_BLKSIZE := by
      rw [Nat.add_mul]
      omega
    rw [next, Nat.add_zero] at written
    have grown : blkno + 1 ≤ (t.inodes k).din.blocks := by
      rw [written.blocks]
      apply le_max_of_le_right
      unfold blocksFor SFS_BLKSIZE
      omega
    have most : blocksFor ((blkno + 1) * SFS_BLKSIZE) ≤ blocksFor endpos := blocks_for_mono reach
    obtain ⟨u, rest, finished⟩ := ih (blkno + 1) (alen + SFS_BLKSIZE) written.maps grown (by omega) (written.room _ most room) (by
        intro j
        rw [Nat.add_assoc alen, ← same, Nat.add_mul, Nat.one_mul, Nat.add_assoc])
    refine ⟨u, ?_, written_trans (by omega) reach written finished⟩
    unfold sfsIoBlocks
    rw [run_bind run]
    dsimp only
    rw [if_neg (by decide), rest]
    congr 4
    omega

/-- All three phases. -/
theorem io_range_write_run (buf : DiskBlock) {offset : Nat} {s : Sfs} (maps : BlockMaps s F) (mem : k ∈ F)
    (start : offset ≤ mappedSize s k) (some : offset < endpos)
    (low : endpos ≤ (SFS_NDIRECT + SFS_BLK_NENTRY) * SFS_BLKSIZE)
    (room : need s k (blocksFor endpos) ≤ s.unusedBlocks) :
    ∃ t, sfsIoRange k buf offset endpos true s = .ok ((0, endpos - offset, buf), t) ∧
      Written F s k offset endpos (placed buf offset) t := by
  have low := blocks_for_le.mpr low
  have split := Nat.div_add_mod' offset SFS_BLKSIZE
  have most : offset / SFS_BLKSIZE ≤ endpos / SFS_BLKSIZE := Nat.div_le_div_right some.le
  have inside : offset / SFS_BLKSIZE ≤ (s.inodes k).din.blocks := by
    unfold mappedSize at start
    exact Nat.div_le_of_le_mul (by rw [Nat.mul_comm]; exact start)
  by_cases head : offset % SFS_BLKSIZE = 0
  · have aligned : offset / SFS_BLKSIZE * SFS_BLKSIZE = offset := by omega
    obtain ⟨t, run, written⟩ := io_blocks_write_run buf (placed buf offset)
      (endpos / SFS_BLKSIZE - offset / SFS_BLKSIZE) (offset / SFS_BLKSIZE) 0 maps mem inside (by omega) low room (by
        intro j
        unfold placed
        rw [aligned, Nat.add_sub_cancel_left, Nat.zero_add])
    rw [aligned] at written run
    rw [Nat.zero_add] at run
    refine ⟨t, ?_, written⟩
    unfold sfsIoRange
    rw [if_neg (by omega), run]
  · -- The head ends with its block, or with the whole range.
    obtain ⟨size, size_eq⟩ : ∃ size, size = if endpos / SFS_BLKSIZE - offset / SFS_BLKSIZE ≠ 0
        then SFS_BLKSIZE - offset % SFS_BLKSIZE else endpos - offset := ⟨_, rfl⟩
    have short : offset % SFS_BLKSIZE < SFS_BLKSIZE := Nat.mod_lt _ (by decide)
    have fits : offset % SFS_BLKSIZE + size ≤ SFS_BLKSIZE := by
      unfold SFS_BLKSIZE at *
      split_ifs at size_eq <;> omega
    have further : offset / SFS_BLKSIZE + 1 ≤ blocksFor endpos := by
      unfold blocksFor SFS_BLKSIZE at *
      omega
    have writes : Overwrites (fun ino => sfsBufOp true buf 0 size ino (offset % SFS_BLKSIZE)) buf
        (offset % SFS_BLKSIZE) size fun j => placed buf offset (offset / SFS_BLKSIZE * SFS_BLKSIZE + j) := by
      apply buf_op_overwrites short fits
      intro j _
      unfold placed
      rw [← Nat.add_assoc, split, Nat.add_sub_cancel_left, Nat.zero_add]
    obtain ⟨t, run, written⟩ := transfer_write_run (placed buf offset) maps mem inside (by omega)
      ((need_mono further).trans room) (by split_ifs at size_eq <;> omega) fits writes
    rw [split] at written
    by_cases whole : endpos / SFS_BLKSIZE - offset / SFS_BLKSIZE = 0
    · rw [if_neg (by omega)] at size_eq
      refine ⟨t, ?_, ?_⟩
      · unfold sfsIoRange
        rw [if_pos head]
        dsimp only
        rw [if_neg (by omega), ← size_eq, run_bind run]
        dsimp only
        rw [if_neg (by decide), if_pos whole]
        rfl
      · rw [show offset + size = endpos by omega] at written
        exact written
    · rw [if_pos whole] at size_eq
      have next : offset + size = (offset / SFS_BLKSIZE + 1) * SFS_BLKSIZE := by
        unfold SFS_BLKSIZE at *
        omega
      have reach : (offset / SFS_BLKSIZE + 1) * SFS_BLKSIZE ≤ endpos := by
        apply (Nat.le_div_iff_mul_le (by decide)).mp
        omega
      rw [next] at written
      have grown : offset / SFS_BLKSIZE + 1 ≤ (t.inodes k).din.blocks := by
        rw [written.blocks]
        apply le_max_of_le_right
        unfold blocksFor SFS_BLKSIZE
        omega
      obtain ⟨u, rest, finished⟩ := io_blocks_write_run buf (placed buf offset)
        (endpos / SFS_BLKSIZE - offset / SFS_BLKSIZE - 1) (offset / SFS_BLKSIZE + 1) size written.maps mem grown (by omega) low
        (written.room _ (blocks_for_mono reach) room) (by
          intro j
          unfold placed
          rw [← next, Nat.add_assoc, Nat.add_sub_cancel_left])
      refine ⟨u, ?_, written_trans (by omega) reach written finished⟩
      unfold sfsIoRange
      rw [if_pos head]
      dsimp only
      rw [if_pos whole, ← size_eq, run_bind run]
      dsimp only
      rw [if_neg (by decide), if_neg whole, rest]
      congr 4
      omega

end Phases

end Ucore
