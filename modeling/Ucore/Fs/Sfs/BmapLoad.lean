import Ucore.Fs.Sfs.BmapGrow

/- `sfs_bmap_load_nolock` inside a file and at its end, and the bytes of the files. -/
namespace Ucore
open Programs Words

/-- Byte `p` of a file, by its block map. -/
def fileByte (s : Sfs) (k p : Nat) : UInt8 :=
  s.disk (pointer s k (.data (p / SFS_BLKSIZE))) (p % SFS_BLKSIZE)

def mappedSize (s : Sfs) (k : Nat) : Nat := (s.inodes k).din.blocks * SFS_BLKSIZE

/-- Block `i` of the file has been found or mapped. -/
structure Loaded (F : Set Nat) (s : Sfs) (k i b : Nat) (t : Sfs) : Prop where
  maps : BlockMaps t F
  blocks : (t.inodes k).din.blocks = max (s.inodes k).din.blocks (i + 1)
  size : (t.inodes k).din.size = (s.inodes k).din.size
  others : ∀ g, g ≠ k → t.inodes g = s.inodes g
  found : pointer t k (.data i) = b
  bytes : ∀ p < mappedSize t k, fileByte t k p = if p < mappedSize s k then fileByte s k p else 0
  elsewhere : ∀ g ∈ F, g ≠ k → ∀ p < mappedSize s g, fileByte t g p = fileByte s g p
  room : ∀ n, i < n → need s k n ≤ s.unusedBlocks → need t k n ≤ t.unusedBlocks
  grown : Grown s k t

section Load
variable {s t : Sfs} {F : Set Nat} {k i b : Nat}

theorem get_existing_block_run (maps : BlockMaps s F) (mem : k ∈ F)
    (below : i < (s.inodes k).din.blocks) :
    sfsBmapGetNolock k i false s = .ok (.ok (pointer s k (.data i)), s) := by
  have map := maps.map k mem
  have inuse := map.below i below
  have bounded := map.bounded
  by_cases direct : i < SFS_NDIRECT
  · have here : pointer s k (.data i) = (s.inodes k).din.direct i := by simp [pointer, direct]
    rw [here] at inuse ⊢
    unfold sfsBmapGetNolock
    rw [run_bind inode_run]
    dsimp only
    rw [if_pos direct, if_neg (by simp), run_bind run_pure]
    dsimp only
    rw [if_pos inuse.1, run_bind (assert_inuse_run maps.volume inuse)]
    rfl
  · have inside : i - SFS_NDIRECT < SFS_BLK_NENTRY := by omega
    have entries : (s.inodes k).din.indirect ≠ 0 := by
      intro none_yet
      exact inuse.1 (by simp [pointer, direct, none_yet])
    have here : pointer s k (.data i) =
        entry s (s.inodes k).din.indirect (i - SFS_NDIRECT) := by
      simp [pointer, direct, entries]
    have block := map.entries entries
    have read : sfsRbuf 4 (s.inodes k).din.indirect ((i - SFS_NDIRECT) * 4) s =
        .ok (.ok fun j => s.disk (s.inodes k).din.indirect ((i - SFS_NDIRECT) * 4 + j), s) := by
      unfold SFS_BLK_NENTRY at inside
      exact rbuf_run maps.volume block.1 block.2.1 (by unfold SFS_BLKSIZE; omega)
        (by unfold SFS_BLKSIZE; omega)
    have value : bytesU32 (fun j => s.disk (s.inodes k).din.indirect
        ((i - SFS_NDIRECT) * 4 + j)) = pointer s k (.data i) := here.symm
    have sub : sfsBmapGetSubNolock (s.inodes k).din.indirect (i - SFS_NDIRECT) false s =
        .ok (.ok ((s.inodes k).din.indirect, pointer s k (.data i)), s) := by
      unfold sfsBmapGetSubNolock
      rw [run_check_bind inside]
      dsimp only
      rw [if_pos entries, run_bind read]
      dsimp only
      rw [run_bind run_pure]
      dsimp only
      rw [value, if_pos (by simp)]
      rfl
    unfold sfsBmapGetNolock
    rw [run_bind inode_run]
    dsimp only
    rw [if_neg direct, if_pos inside, run_bind sub]
    dsimp only
    rw [if_neg (by simp), run_bind run_pure]
    dsimp only
    rw [if_pos inuse.1, run_bind (assert_inuse_run maps.volume inuse)]
    rfl

theorem load_below_run (maps : BlockMaps s F) (mem : k ∈ F)
    (below : i < (s.inodes k).din.blocks) :
    sfsBmapLoadNolock k i s = .ok (.ok (pointer s k (.data i)), s) := by
  have inuse := (maps.map k mem).below i below
  have ne : ¬ i = (s.inodes k).din.blocks := by omega
  unfold sfsBmapLoadNolock
  rw [run_bind inode_run]
  dsimp only
  rw [run_check_bind (by omega), decide_eq_false ne,
    run_bind (get_existing_block_run maps mem below)]
  dsimp only
  rw [run_bind (assert_inuse_run maps.volume inuse)]
  rfl

theorem load_end_run (maps : BlockMaps s F) (mem : k ∈ F) (last : i = (s.inodes k).din.blocks)
    (low : i < SFS_NDIRECT + SFS_BLK_NENTRY) (room : need s k (i + 1) ≤ s.unusedBlocks) :
    ∃ b t, sfsBmapLoadNolock k i s = .ok (.ok b, counted t k) ∧ Attached F s k i b t := by
  obtain ⟨b, t, run, attached⟩ := get_grow_run maps mem last low room
  refine ⟨b, t, ?_, attached⟩
  unfold sfsBmapLoadNolock
  rw [run_bind inode_run]
  dsimp only
  rw [run_check_bind (by omega), decide_eq_true last, run_bind run]
  dsimp only
  rw [run_bind (assert_inuse_run attached.volume attached.fresh), if_pos rfl, run_bind set_din_run]
  rfl

/- No block of data is the entry block of its file. -/
theorem data_ne_entries (maps : BlockMaps s F) {g : Nat} (mg : g ∈ F) (mem : k ∈ F) {j : Nat}
    (below : j < (s.inodes g).din.blocks) :
    pointer s g (.data j) ≠ (s.inodes k).din.indirect := by
  have map := maps.map g mg
  have bounded := map.bounded
  have valid : Slot.Valid (.data j) := by
    unfold Slot.Valid
    omega
  intro same
  have := maps.unshared g mg k mem (.data j) .entries valid trivial (map.below j below).1 same
  simp at this

theorem attached_byte (maps : BlockMaps s F) (mem : k ∈ F) (attached : Attached F s k i b t)
    {g p : Nat} (mg : g ∈ F) (inside : p < mappedSize s g) (old : ¬ (g = k ∧ p / SFS_BLKSIZE = i)) :
    fileByte (counted t k) g p = fileByte s g p := by
  have map := maps.map g mg
  have bounded := map.bounded
  have below : p / SFS_BLKSIZE < (s.inodes g).din.blocks := by
    unfold mappedSize at inside
    exact (Nat.div_lt_iff_lt_mul (by decide)).mpr inside
  have valid : Slot.Valid (.data (p / SFS_BLKSIZE)) := by
    unfold Slot.Valid
    omega
  have same : pointer (counted t k) g (.data (p / SFS_BLKSIZE)) =
      pointer s g (.data (p / SFS_BLKSIZE)) := by
    rw [counted_pointer]
    by_cases here : g = k
    · subst g
      exact attached.kept _ valid fun at_end => old ⟨rfl, at_end⟩
    · exact attached.pointers g mg here _ valid
  unfold fileByte
  rw [same]
  change t.disk _ _ = _
  rw [attached.content _ (map.below _ below) (data_ne_entries maps mg mem below)]

theorem load_run (maps : BlockMaps s F) (mem : k ∈ F) (most : i ≤ (s.inodes k).din.blocks)
    (low : i < SFS_NDIRECT + SFS_BLK_NENTRY) (room : need s k (i + 1) ≤ s.unusedBlocks) :
    ∃ b t, sfsBmapLoadNolock k i s = .ok (.ok b, t) ∧ Loaded F s k i b t ∧
      (i < (s.inodes k).din.blocks → t = s) := by
  by_cases below : i < (s.inodes k).din.blocks
  · refine ⟨_, s, load_below_run maps mem below, ?_, fun _ => rfl⟩
    refine ⟨maps, by omega, rfl, fun _ _ => rfl, rfl, ?_, fun _ _ _ _ _ => rfl, ?_,
      grown_refl (maps.map k mem)⟩
    · intro p inside
      rw [if_pos inside]
    · intro n more enough
      exact enough
  · have last : i = (s.inodes k).din.blocks := by omega
    obtain ⟨b, t, run, attached⟩ := load_end_run maps mem last low room
    have grown := attached_maps maps attached last low
    have blocks : ((counted t k).inodes k).din.blocks = i + 1 := by
      have count : u32 ((s.inodes k).din.blocks + 1) = i + 1 := by
        apply u32_exact (by omega)
        unfold SFS_NDIRECT SFS_BLK_NENTRY at low
        unfold wordSize
        omega
      simp [counted, attached.blocks, count]
    refine ⟨b, counted t k, run, ?_, fun inside => absurd inside below⟩
    refine ⟨grown, by omega, ?_, ?_, ?_, ?_, ?_, ?_, attached_grown attached mem last low⟩
    · simp [counted, attached.size]
    · intro g ne
      unfold counted
      rw [set_din_other ne, attached.others g ne]
    · rw [counted_pointer, attached.new]
    · intro p inside
      by_cases old : p < mappedSize s k
      · rw [if_pos old]
        apply attached_byte maps mem attached mem old
        rintro ⟨_, at_end⟩
        have : p / SFS_BLKSIZE < (s.inodes k).din.blocks := by
          unfold mappedSize at old
          exact (Nat.div_lt_iff_lt_mul (by decide)).mpr old
        omega
      · have here : p / SFS_BLKSIZE = i := by
          unfold mappedSize SFS_BLKSIZE at *
          rw [blocks] at inside
          omega
        rw [if_neg old]
        unfold fileByte
        rw [here, counted_pointer, attached.new]
        exact attached.cleared _
    · intro g mg ne p inside
      exact attached_byte maps mem attached mg inside fun both => ne both.1
    · intro n more enough
      have room' := attached.room n more enough
      have same : ((counted t k).inodes k).din.indirect = (t.inodes k).din.indirect := by
        simp [counted]
      have unused : (counted t k).unusedBlocks = t.unusedBlocks := rfl
      have count := attached.blocks
      unfold need at *
      rw [same, blocks, unused]
      omega

end Load

end Ucore
