import Ucore.Fs.Sfs.BmapLoad

/- How far the free blocks reach, and `sfs_bmap_load_nolock` when they are used up. -/
namespace Ucore
open Programs Words

/-- How many blocks the file can have before the volume is full. -/
def limit (s : Sfs) (k : Nat) : Nat :=
  if (s.inodes k).din.indirect = 0 ∧ SFS_NDIRECT < (s.inodes k).din.blocks + s.unusedBlocks
    then (s.inodes k).din.blocks + s.unusedBlocks - 1
    else (s.inodes k).din.blocks + s.unusedBlocks

/-- Blocks may have been taken and given back. -/
structure Idle (s t : Sfs) : Prop where
  volume : Volume t
  inodes : t.inodes = s.inodes
  inuse : ∀ c, InUse t c ↔ InUse s c
  content : ∀ c, InUse s c → t.disk c = s.disk c
  unused : t.unusedBlocks = s.unusedBlocks

section
variable {s t : Sfs} {F : Set Nat} {k i n : Nat}

theorem blocks_le_limit (map : FileMap s k) : (s.inodes k).din.blocks ≤ limit s k := by
  have few := few_without_entries map
  unfold limit
  split_ifs with short
  · have := few short.1
    omega
  · omega

theorem room_iff (map : FileMap s k) (most : (s.inodes k).din.blocks ≤ n) :
    need s k n ≤ s.unusedBlocks ↔ n ≤ limit s k := by
  have few := few_without_entries map
  unfold need limit
  by_cases none_yet : (s.inodes k).din.indirect = 0
  · have := few none_yet
    simp only [none_yet, and_true, true_and]
    split_ifs <;> omega
  · simp only [none_yet, and_false, false_and, ↓reduceIte]
    omega

theorem grown_limit (map : FileMap s k) (grown : Grown s k t) : limit t k = limit s k := by
  have few := few_without_entries map
  have account := grown.account
  have indirect := grown.indirect
  have more := grown.more
  unfold need at account
  unfold limit
  by_cases none_yet : (s.inodes k).din.indirect = 0
  · have := few none_yet
    simp only [none_yet, and_true, true_and] at *
    by_cases direct : (t.inodes k).din.blocks ≤ SFS_NDIRECT
    · simp only [indirect.mpr direct, true_and]
      rw [if_neg (by omega)] at account
      split_ifs <;> omega
    · rw [if_neg fun both => direct (indirect.mp both.1)]
      rw [if_pos (by omega)] at account
      split_ifs <;> omega
  · have some := fun zero => none_yet (indirect.mp zero).1
    rw [if_neg fun both => none_yet both.2] at account
    rw [if_neg fun both => some both.1, if_neg fun both => none_yet both.1]
    omega

theorem idle_refl (volume : Volume s) : Idle s s :=
  ⟨volume, rfl, fun _ => Iff.rfl, fun _ _ => rfl, rfl⟩

theorem idle_pointer (maps : BlockMaps s F) (idle : Idle s t) {g : Nat} (mem : g ∈ F) {a : Slot}
    (valid : a.Valid) : pointer t g a = pointer s g a := by
  apply pointer_congr (by rw [idle.inodes]) _ valid
  intro nonzero j _
  rw [idle.content _ ((maps.map g mem).entries nonzero)]

theorem idle_maps (maps : BlockMaps s F) (idle : Idle s t) : BlockMaps t F := by
  refine ⟨idle.volume, ?_, ?_⟩
  · intro g mem
    have map := maps.map g mem
    have bounded := map.bounded
    have same : ∀ j < SFS_NDIRECT + SFS_BLK_NENTRY,
        pointer t g (.data j) = pointer s g (.data j) :=
      fun j low => idle_pointer maps idle mem (a := .data j) low
    constructor
    · rw [idle.inodes]
      exact map.bounded
    · intro j low
      rw [idle.inodes] at low
      rw [same j (by omega), idle.inuse]
      exact map.below j low
    · intro j high low
      rw [idle.inodes] at high
      rw [same j low]
      exact map.above j high low
    · intro nonzero
      rw [idle.inodes] at nonzero ⊢
      rw [idle.inuse]
      exact map.entries nonzero
  · intro f mf g mg a c va vc nonzero same
    rw [idle_pointer maps idle mf va] at nonzero same
    rw [idle_pointer maps idle mg vc] at same
    exact maps.unshared f mf g mg a c va vc nonzero same

theorem idle_grown (maps : BlockMaps s F) (mem : k ∈ F) (idle : Idle s t) : Grown s k t := by
  have grown := grown_refl (maps.map k mem)
  constructor
  · rw [idle.inodes]
  · rw [idle.inodes]
    exact ⟨rfl, rfl⟩
  · intro c inuse apart
    refine ⟨(idle.inuse c).mpr inuse, ?_, idle.content c inuse⟩
    rintro g rfl a valid
    rw [idle_pointer maps idle mem valid]
    exact apart g rfl a valid
  · rw [idle.inodes, idle.unused]
    exact grown.account
  · rw [idle.inodes]
    exact grown.indirect
  · rw [idle.inodes]
    exact Or.inr ⟨rfl, Or.inl rfl⟩

/- The entry block that was taken for the new entry is given back. -/
theorem taken_released {e : Nat} {u : Sfs} (taken : Taken s e t) (released : Released t e u) :
    Idle s u := by
  have bits : ∀ j, u.freemap.bit j = s.freemap.bit j := by
    intro j
    rw [released.bits, taken.bits]
    split_ifs with same
    · rw [same, taken.free]
    · rfl
  constructor
  · exact released.volume
  · rw [released.inodes, taken.inodes]
  · intro c
    unfold InUse
    rw [bits c, released.blocks, taken.blocks]
  · intro c inuse
    rw [released.disk, taken_content taken inuse]
  · rw [released.unused, taken.unused]

theorem sub_existing_full (volume : Volume s) {ent x : Nat} (inuse : InUse s ent)
    (inside : x < SFS_BLK_NENTRY) (hole : entry s ent x = 0) (full : s.unusedBlocks = 0) :
    sfsBmapGetSubNolock ent x true s = .ok (.error (-E_NO_MEM), s) := by
  have read : sfsRbuf 4 ent (x * 4) s = .ok (.ok fun i => s.disk ent (x * 4 + i), s) := by
    unfold SFS_BLK_NENTRY at inside
    exact rbuf_run volume inuse.1 inuse.2.1 (by unfold SFS_BLKSIZE; omega)
      (by unfold SFS_BLKSIZE; omega)
  have empty : bytesU32 (fun i => s.disk ent (x * 4 + i)) = 0 := hole
  unfold sfsBmapGetSubNolock
  rw [run_check_bind inside]
  dsimp only
  rw [if_pos inuse.1, run_bind read]
  dsimp only
  rw [run_bind run_pure]
  dsimp only
  rw [empty, if_neg (by simp)]
  unfold sfsEntryBlock
  rw [if_pos inuse.1, run_bind run_pure]
  dsimp only
  rw [run_bind (block_alloc_full volume full)]
  unfold sfsGiveBack
  dsimp only
  rw [if_neg (by simp)]
  rfl

theorem sub_new_full (volume : Volume s) {x : Nat} (inside : x < SFS_BLK_NENTRY)
    (full : s.unusedBlocks ≤ 1) :
    ∃ t, sfsBmapGetSubNolock 0 x true s = .ok (.error (-E_NO_MEM), t) ∧ Idle s t := by
  unfold sfsBmapGetSubNolock
  rw [run_check_bind inside]
  dsimp only
  rw [if_neg (by simp), run_bind run_pure]
  dsimp only
  rw [if_neg (by simp)]
  unfold sfsEntryBlock
  rw [if_neg (by simp)]
  by_cases empty : s.unusedBlocks = 0
  · refine ⟨s, ?_, idle_refl volume⟩
    rw [run_bind (block_alloc_full volume empty)]
    rfl
  · obtain ⟨e, t, alloc, taken⟩ := block_alloc_run volume (by omega)
    have unused := taken.unused
    obtain ⟨u, free, released⟩ := block_free_run taken.volume (taken_self taken)
    refine ⟨u, ?_, taken_released taken released⟩
    rw [run_bind alloc]
    dsimp only
    rw [run_bind (block_alloc_full taken.volume (by omega))]
    unfold sfsGiveBack
    dsimp only
    rw [if_pos taken.nonzero, run_bind free]
    rfl

theorem get_full_run (maps : BlockMaps s F) (mem : k ∈ F) (last : i = (s.inodes k).din.blocks)
    (low : i < SFS_NDIRECT + SFS_BLK_NENTRY) (full : limit s k ≤ i) :
    ∃ t, sfsBmapGetNolock k i true s = .ok (.error (-E_NO_MEM), t) ∧ Idle s t := by
  have map := maps.map k mem
  have few := few_without_entries map
  have hole := map.above i (by omega) low
  unfold limit at full
  unfold sfsBmapGetNolock
  rw [run_bind inode_run]
  dsimp only
  by_cases direct : i < SFS_NDIRECT
  · have empty : s.unusedBlocks = 0 := by split_ifs at full <;> omega
    have hole : (s.inodes k).din.direct i = 0 := by simpa [pointer, direct] using hole
    refine ⟨s, ?_, idle_refl maps.volume⟩
    rw [if_pos direct, if_pos ⟨hole, rfl⟩, run_bind (block_alloc_full maps.volume empty)]
    rfl
  · have inside : i - SFS_NDIRECT < SFS_BLK_NENTRY := by omega
    rw [if_neg direct, if_pos inside]
    by_cases none_yet : (s.inodes k).din.indirect = 0
    · have := few none_yet
      obtain ⟨t, run, idle⟩ := sub_new_full maps.volume inside (by split_ifs at full <;> omega)
      refine ⟨t, ?_, idle⟩
      rw [none_yet, run_bind run]
      rfl
    · have empty : s.unusedBlocks = 0 := by
        rw [if_neg fun both => none_yet both.1] at full
        omega
      have hole : entry s (s.inodes k).din.indirect (i - SFS_NDIRECT) = 0 := by
        simpa [pointer, direct, none_yet] using hole
      refine ⟨s, ?_, idle_refl maps.volume⟩
      rw [run_bind (sub_existing_full maps.volume (map.entries none_yet) inside hole empty)]
      rfl

theorem load_full_run (maps : BlockMaps s F) (mem : k ∈ F) (last : i = (s.inodes k).din.blocks)
    (low : i < SFS_NDIRECT + SFS_BLK_NENTRY) (full : limit s k ≤ i) :
    ∃ t, sfsBmapLoadNolock k i s = .ok (.error (-E_NO_MEM), t) ∧ Idle s t := by
  obtain ⟨t, run, idle⟩ := get_full_run maps mem last low full
  refine ⟨t, ?_, idle⟩
  unfold sfsBmapLoadNolock
  rw [run_bind inode_run]
  dsimp only
  rw [run_check_bind (by omega), decide_eq_true last, run_bind run]
  rfl

/- Behind the last block that an inode can point to. -/
theorem load_past_stops (last : i = (s.inodes k).din.blocks)
    (high : SFS_NDIRECT + SFS_BLK_NENTRY ≤ i) :
    sfsBmapLoadNolock k i s = .error .indexOutOfRange := by
  have direct : ¬ i < SFS_NDIRECT := by omega
  have entries : ¬ i - SFS_NDIRECT < SFS_BLK_NENTRY := by omega
  have stops : sfsBmapGetNolock k i true s = .error .indexOutOfRange := by
    unfold sfsBmapGetNolock
    rw [run_bind inode_run]
    dsimp only
    rw [if_neg direct, if_neg entries]
    rfl
  unfold sfsBmapLoadNolock
  rw [run_bind inode_run]
  dsimp only
  rw [run_check_bind (by omega), decide_eq_true last, run_bind_stop stops]

theorem load_beyond_stops (beyond : (s.inodes k).din.blocks < i) :
    sfsBmapLoadNolock k i s = .error .assertion := by
  unfold sfsBmapLoadNolock
  rw [run_bind inode_run]
  dsimp only
  exact run_check_stop (by omega)

/-- Every outcome of `sfs_bmap_load_nolock` inside a file or at its end. -/
theorem load_outcome (maps : BlockMaps s F) (mem : k ∈ F) (most : i ≤ (s.inodes k).din.blocks) :
    (i < min (limit s k) (SFS_NDIRECT + SFS_BLK_NENTRY) ∧
      ∃ b t, sfsBmapLoadNolock k i s = .ok (.ok b, t) ∧ Loaded F s k i b t) ∨
    (i = limit s k ∧ limit s k < SFS_NDIRECT + SFS_BLK_NENTRY ∧
      ∃ t, sfsBmapLoadNolock k i s = .ok (.error (-E_NO_MEM), t) ∧ Idle s t) ∨
    (SFS_NDIRECT + SFS_BLK_NENTRY ≤ limit s k ∧ i = SFS_NDIRECT + SFS_BLK_NENTRY ∧
      sfsBmapLoadNolock k i s = .error .indexOutOfRange) := by
  have map := maps.map k mem
  have bounded := map.bounded
  have within := blocks_le_limit map
  by_cases past : SFS_NDIRECT + SFS_BLK_NENTRY ≤ i
  · exact Or.inr (Or.inr ⟨by omega, by omega, load_past_stops (by omega) past⟩)
  · by_cases full : limit s k ≤ i
    · exact Or.inr (Or.inl ⟨by omega, by omega, load_full_run maps mem (by omega) (by omega) full⟩)
    · left
      have room : need s k (i + 1) ≤ s.unusedBlocks := by
        by_cases last : i = (s.inodes k).din.blocks
        · exact (room_iff map (by omega)).mpr (by omega)
        · have account := (grown_refl map).account
          unfold need at *
          split_ifs at * <;> omega
      obtain ⟨b, t, run, loaded, _⟩ := load_run maps mem most (by omega) room
      exact ⟨by omega, b, t, run, loaded⟩

end

end Ucore
