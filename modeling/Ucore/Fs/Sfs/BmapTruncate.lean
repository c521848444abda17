import Ucore.Fs.Sfs.BmapFull
import Ucore.Fs.Sfs.SfsWrite

/- `sfs_bmap_truncate_nolock`: the last block of a file is given back. -/
namespace Ucore
open Programs Words

/-- Block `i` of file `k` has been given back; the count of blocks is still the old one. -/
structure Detached (F : Set Nat) (s : Sfs) (k i : Nat) (t : Sfs) : Prop where
  volume : Volume t
  inuse : ∀ c, InUse t c ↔ InUse s c ∧ c ≠ pointer s k (.data i)
  others : ∀ g, g ≠ k → t.inodes g = s.inodes g
  kind : (t.inodes k).din.type = (s.inodes k).din.type ∧
    (t.inodes k).din.nlinks = (s.inodes k).din.nlinks
  blocks : (t.inodes k).din.blocks = (s.inodes k).din.blocks
  size : (t.inodes k).din.size = (s.inodes k).din.size
  indirect : (t.inodes k).din.indirect = (s.inodes k).din.indirect
  pointers : ∀ g ∈ F, g ≠ k → ∀ a : Slot, a.Valid → pointer t g a = pointer s g a
  gone : pointer t k (.data i) = 0
  kept : ∀ j < SFS_NDIRECT + SFS_BLK_NENTRY, j ≠ i →
    pointer t k (.data j) = pointer s k (.data j)
  content : ∀ c, c ≠ (s.inodes k).din.indirect → t.disk c = s.disk c
  unused : t.unusedBlocks = s.unusedBlocks + 1

/-- File `k` has been cut to `n` blocks. -/
structure Shrunk (F : Set Nat) (s : Sfs) (k n : Nat) (t : Sfs) : Prop where
  maps : BlockMaps t F
  fewer : n ≤ (s.inodes k).din.blocks
  blocks : (t.inodes k).din.blocks = n
  size : (t.inodes k).din.size = (s.inodes k).din.size
  kind : (t.inodes k).din.type = (s.inodes k).din.type ∧
    (t.inodes k).din.nlinks = (s.inodes k).din.nlinks
  indirect : (t.inodes k).din.indirect = (s.inodes k).din.indirect
  others : ∀ g, g ≠ k → t.inodes g = s.inodes g
  data : ∀ p, fileData t k p = if p < n * SFS_BLKSIZE then fileData s k p else 0
  elsewhere : ∀ g ∈ F, g ≠ k → fileData t g = fileData s g
  apart : ∀ c, InUse s c → Unpointed s {k} c →
    InUse t c ∧ Unpointed t {k} c ∧ t.disk c = s.disk c
  unused : t.unusedBlocks + n = s.unusedBlocks + (s.inodes k).din.blocks
  quiet : (t.inodes k).dirty = true ∨ t.inodes k = s.inodes k

section
variable {s t u : Sfs} {F : Set Nat} {k i b : Nat}

theorem released_inuse (released : Released s b t) (c : Nat) :
    InUse t c ↔ InUse s c ∧ c ≠ b := by
  unfold InUse
  rw [released.blocks, released.bits c]
  split_ifs with same
  · simp [same]
  · simp [same]

/- A new count, size or flag leaves the map. -/
theorem set_din_pointer {f : SfsDiskInode → SfsDiskInode} {dirty : Bool}
    (same : ∀ din, (f din).direct = din.direct ∧ (f din).indirect = din.indirect) (g : Nat)
    (a : Slot) : pointer (s.setDin k f dirty) g a = pointer s g a := by
  have direct : ((s.setDin k f dirty).inodes g).din.direct = (s.inodes g).din.direct := by
    by_cases here : g = k
    · subst g
      rw [set_din_self, (same _).1]
    · rw [set_din_other here]
  have indirect : ((s.setDin k f dirty).inodes g).din.indirect = (s.inodes g).din.indirect := by
    by_cases here : g = k
    · subst g
      rw [set_din_self, (same _).2]
    · rw [set_din_other here]
  cases a with
  | data i =>
    simp only [pointer, direct, indirect]
    rfl
  | entries => simp only [pointer, indirect]

theorem free_direct_run (maps : BlockMaps s F) (mem : k ∈ F) (direct : i < SFS_NDIRECT)
    (below : i < (s.inodes k).din.blocks) :
    ∃ t, sfsBmapFreeNolock k i s = .ok (0, t) ∧ Detached F s k i t ∧
      (t.inodes k).dirty = true := by
  have map := maps.map k mem
  have here : pointer s k (.data i) = (s.inodes k).din.direct i := by simp [pointer, direct]
  have inuse := map.below i below
  rw [here] at inuse
  obtain ⟨t, free, released⟩ := block_free_run maps.volume inuse
  let u := t.setDin k (fun din => { din with direct := Function.update din.direct i 0 }) true
  have din : (u.inodes k).din =
      { (s.inodes k).din with direct := Function.update (s.inodes k).din.direct i 0 } := by
    simp [u, released.inodes]
  have disk : u.disk = s.disk := released.disk
  refine ⟨u, ?_, ?_, by simp [u, Sfs.setDin]⟩
  · unfold sfsBmapFreeNolock
    rw [run_bind inode_run]
    dsimp only
    rw [if_pos direct, if_pos inuse.1, run_bind free, run_bind set_din_run]
    rfl
  · constructor
    · exact set_din_volume released.volume
    · intro c
      rw [here]
      exact released_inuse released c
    · intro g ne
      rw [set_din_other ne, released.inodes]
    · rw [din]
      exact ⟨rfl, rfl⟩
    · rw [din]
    · rw [din]
    · rw [din]
    · intro g _ ne a valid
      exact pointer_congr (by rw [set_din_other ne, released.inodes]) (fun _ _ _ => by rw [disk]) valid
    · simp [pointer, direct, din]
    · intro j _ ne
      simp only [pointer, din, entry, disk]
      simp [Function.update_of_ne ne]
    · intro c _
      rw [disk]
    · exact released.unused

theorem free_entry_run (maps : BlockMaps s F) (mem : k ∈ F) (indirect : ¬ i < SFS_NDIRECT)
    (below : i < (s.inodes k).din.blocks) :
    ∃ t, sfsBmapFreeNolock k i s = .ok (0, t) ∧ Detached F s k i t := by
  have map := maps.map k mem
  have bounded := map.bounded
  have inside : i - SFS_NDIRECT < SFS_BLK_NENTRY := by omega
  have entries : (s.inodes k).din.indirect ≠ 0 := by
    intro none_yet
    have := few_without_entries map none_yet
    omega
  have here : pointer s k (.data i) = entry s (s.inodes k).din.indirect (i - SFS_NDIRECT) := by
    simp [pointer, indirect, entries]
  have inuse := map.below i below
  have inuseE := map.entries entries
  have apart := data_ne_entries maps mem mem below
  let w := s.writeEntry (s.inodes k).din.indirect (i - SFS_NDIRECT) 0
  have volumeW : Volume w := write_entry_volume _ _ _ maps.volume
  obtain ⟨t, free, released⟩ := block_free_run volumeW (write_entry_inuse.mpr inuse)
  have disk : t.disk = w.disk := released.disk
  have inodes : t.inodes = s.inodes := released.inodes
  have written : ∀ j, entry t (s.inodes k).din.indirect j =
      if j = i - SFS_NDIRECT then 0 else entry s (s.inodes k).din.indirect j := by
    intro j
    have := entry_written s (s.inodes k).din.indirect (x := i - SFS_NDIRECT) (b := 0) (by decide) j
    simp only [entry, disk] at this ⊢
    exact this
  have read : sfsRbuf 4 (s.inodes k).din.indirect ((i - SFS_NDIRECT) * 4) s =
      .ok (.ok fun j => s.disk (s.inodes k).din.indirect ((i - SFS_NDIRECT) * 4 + j), s) := by
    unfold SFS_BLK_NENTRY at inside
    exact rbuf_run maps.volume inuseE.1 inuseE.2.1 (by unfold SFS_BLKSIZE; omega)
      (by unfold SFS_BLKSIZE; omega)
  have bytes : bytesU32 (fun j => s.disk (s.inodes k).din.indirect ((i - SFS_NDIRECT) * 4 + j)) =
      pointer s k (.data i) := here.symm
  refine ⟨t, ?_, ?_⟩
  · unfold sfsBmapFreeNolock
    rw [run_bind inode_run]
    dsimp only
    rw [if_neg indirect, if_pos inside, if_pos entries]
    unfold sfsBmapFreeSubNolock
    rw [run_bind (assert_inuse_run maps.volume inuseE), run_check_bind inside, run_bind read]
    dsimp only
    rw [bytes, if_pos inuse.1, run_bind (entry_buf_run maps.volume inuseE inside),
      if_neg (by decide), run_bind free]
    rfl
  · constructor
    · exact released.volume
    · intro c
      rw [released_inuse released c, write_entry_inuse]
    · intro g _
      rw [inodes]
    · rw [inodes]
      exact ⟨rfl, rfl⟩
    · rw [inodes]
    · rw [inodes]
    · rw [inodes]
    · intro g mg ne a valid
      apply pointer_congr (by rw [inodes]) _ valid
      intro nonzero j _
      have other : (s.inodes g).din.indirect ≠ (s.inodes k).din.indirect := by
        intro same
        exact ne (maps.unshared g mg k mem .entries .entries trivial trivial nonzero same).1
      rw [disk, write_entry_other s _ _ other]
    · simp [pointer, inodes, indirect, entries, written]
    · intro j lowJ neJ
      simp only [pointer, inodes]
      by_cases directJ : j < SFS_NDIRECT
      · simp [directJ]
      · have : j - SFS_NDIRECT ≠ i - SFS_NDIRECT := by omega
        simp [directJ, entries, written, this]
    · intro c ne
      rw [disk, write_entry_other s _ _ ne]
    · exact released.unused

/-- The state after `din->blocks --`. -/
def shortened (t : Sfs) (k i : Nat) : Sfs := t.setDin k (fun din => { din with blocks := i }) true

theorem shortened_pointer (t : Sfs) (k i g : Nat) (a : Slot) :
    pointer (shortened t k i) g a = pointer t g a := by
  unfold shortened
  exact set_din_pointer (by intro din; exact ⟨rfl, rfl⟩) g a

theorem detached_pointer (detached : Detached F s k i t) {g : Nat} (mg : g ∈ F) {a : Slot} (valid : a.Valid) :
    pointer t g a = if g = k ∧ a = .data i then 0 else pointer s g a := by
  by_cases same : g = k
  · subst g
    cases a with
    | data j =>
      by_cases here : j = i
      · rw [if_pos ⟨rfl, by rw [here]⟩, here, detached.gone]
      · rw [if_neg (by simp [here]), detached.kept j valid here]
    | entries =>
      rw [if_neg (by simp)]
      exact detached.indirect
  · rw [if_neg (by simp [same]), detached.pointers g mg same a valid]

theorem detached_inuse (maps : BlockMaps s F) (mem : k ∈ F) (detached : Detached F s k i t)
    (below : i < (s.inodes k).din.blocks) {g : Nat} (mg : g ∈ F) {a : Slot} (valid : a.Valid)
    (other : ¬ (g = k ∧ a = .data i)) (inuse : InUse s (pointer s g a)) :
    InUse t (pointer s g a) := by
  have bounded := (maps.map k mem).bounded
  refine (detached.inuse _).mpr ⟨inuse, ?_⟩
  intro same
  exact other (maps.unshared g mg k mem a (.data i) valid (Nat.lt_of_lt_of_le below bounded)
    inuse.1 same)

theorem detached_maps (maps : BlockMaps s F) (mem : k ∈ F) (detached : Detached F s k i t)
    (last : i + 1 = (s.inodes k).din.blocks) : BlockMaps (shortened t k i) F := by
  have below : i < (s.inodes k).din.blocks := by omega
  have shape : ∀ g ∈ F, ∀ a : Slot, a.Valid → pointer (shortened t k i) g a =
      if g = k ∧ a = .data i then 0 else pointer s g a := by
    intro g mg a valid
    rw [shortened_pointer, detached_pointer detached mg valid]
  refine ⟨set_din_volume detached.volume, ?_, ?_⟩
  · intro g mg
    have map := maps.map g mg
    have bounded := map.bounded
    have indirect : ((shortened t k i).inodes g).din.indirect = (s.inodes g).din.indirect := by
      have := shape g mg .entries trivial
      simpa [pointer] using this
    have blocks : ((shortened t k i).inodes g).din.blocks =
        if g = k then i else (s.inodes g).din.blocks := by
      unfold shortened
      split_ifs with same
      · subst g
        simp
      · rw [set_din_other same, detached.others g same]
    have keep : ∀ j, (s.inodes g).din.blocks > j → ¬ (g = k ∧ j = i) →
        InUse (shortened t k i) (pointer s g (.data j)) := by
      intro j low ne
      exact detached_inuse maps mem detached below mg (a := .data j) (Nat.lt_of_lt_of_le low bounded) (by
        intro both
        exact ne ⟨both.1, by simpa using both.2⟩) (map.below j low)
    constructor
    · rw [blocks]
      split_ifs with same
      · subst g
        omega
      · exact bounded
    · intro j low
      rw [blocks] at low
      have ne : ¬ (g = k ∧ j = i) := by
        rintro ⟨same, here⟩
        rw [if_pos same] at low
        omega
      have lowS : j < (s.inodes g).din.blocks := by
        split_ifs at low with same
        · subst g
          omega
        · exact low
      rw [shape g mg (.data j) (Nat.lt_of_lt_of_le lowS bounded), if_neg (by simpa using ne)]
      exact keep j lowS ne
    · intro j high low
      rw [blocks] at high
      rw [shape g mg (.data j) low]
      split_ifs with here
      · rfl
      · apply map.above j _ low
        split_ifs at high with same
        · subst g
          have : j ≠ i := by simpa using here
          omega
        · exact high
    · rw [indirect]
      intro nonzero
      exact detached_inuse maps mem detached below mg (a := .entries) trivial (by simp)
        (map.entries nonzero)
  · intro f mf g mg a c va vc nonzero same
    rw [shape f mf a va] at nonzero same
    rw [shape g mg c vc] at same
    by_cases first : f = k ∧ a = .data i
    · exact absurd (if_pos first) nonzero
    · rw [if_neg first] at nonzero same
      by_cases second : g = k ∧ c = .data i
      · rw [if_pos second] at same
        exact absurd same nonzero
      · rw [if_neg second] at same
        exact maps.unshared f mf g mg a c va vc nonzero same

theorem detached_byte (maps : BlockMaps s F) (mem : k ∈ F) (detached : Detached F s k i t)
    {g p : Nat} (mg : g ∈ F) (inside : p < mappedSize s g)
    (other : ¬ (g = k ∧ p / SFS_BLKSIZE = i)) :
    fileByte (shortened t k i) g p = fileByte s g p := by
  have map := maps.map g mg
  have bounded := map.bounded
  have below := mapped_block.mp inside
  have valid : Slot.Valid (.data (p / SFS_BLKSIZE)) := Nat.lt_of_lt_of_le below bounded
  unfold fileByte
  rw [shortened_pointer, detached_pointer detached mg valid, if_neg (by simpa using other)]
  exact congrFun (detached.content _ (data_ne_entries maps mg mem below)) _

theorem detached_shrunk (maps : BlockMaps s F) (mem : k ∈ F) (detached : Detached F s k i t)
    (last : i + 1 = (s.inodes k).din.blocks) : Shrunk F s k i (shortened t k i) := by
  have bounded := (maps.map k mem).bounded
  have din : ((shortened t k i).inodes k).din = { (t.inodes k).din with blocks := i } := by
    simp [shortened]
  have others : ∀ g, g ≠ k → (shortened t k i).inodes g = s.inodes g := by
    intro g ne
    unfold shortened
    rw [set_din_other ne, detached.others g ne]
  constructor
  · exact detached_maps maps mem detached last
  · omega
  · rw [din]
  · rw [din]
    exact detached.size
  · rw [din]
    exact detached.kind
  · rw [din]
    exact detached.indirect
  · exact others
  · intro p
    have mapped : mappedSize (shortened t k i) k = i * SFS_BLKSIZE := by
      unfold mappedSize
      rw [din]
    unfold fileData
    rw [mapped]
    split_ifs with inside old
    · refine detached_byte maps mem detached mem old fun both => ?_
      have := both.2
      unfold SFS_BLKSIZE at *
      omega
    · unfold mappedSize at old
      rw [← last, Nat.add_mul] at old
      omega
    · rfl
  · intro g mg ne
    have mapped : mappedSize (shortened t k i) g = mappedSize s g := by
      unfold mappedSize
      rw [others g ne]
    funext p
    unfold fileData
    rw [mapped]
    split_ifs with inside
    · exact detached_byte maps mem detached mg inside fun both => ne both.1
    · rfl
  · intro c inuse apart
    have ne : c ≠ pointer s k (.data i) := by
      have valid : Slot.Valid (.data i) := by
        unfold Slot.Valid
        omega
      exact (apart k rfl (.data i) valid).symm
    refine ⟨(detached.inuse c).mpr ⟨inuse, ne⟩, ?_, ?_⟩
    · rintro g rfl a valid
      rw [shortened_pointer, detached_pointer detached mem valid]
      split_ifs
      · exact inuse.1.symm
      · exact apart g rfl a valid
    · exact detached.content c (apart k rfl .entries trivial).symm
  · have unused := detached.unused
    change t.unusedBlocks + i = _
    omega
  · left
    simp [shortened, Sfs.setDin]

theorem shrunk_refl (maps : BlockMaps s F) : Shrunk F s k (s.inodes k).din.blocks s := by
  refine ⟨maps, le_rfl, rfl, rfl, ⟨rfl, rfl⟩, rfl, fun _ _ => rfl, ?_, fun _ _ _ => rfl,
    fun c inuse apart => ⟨inuse, apart, rfl⟩, rfl, Or.inr rfl⟩
  intro p
  split_ifs with inside
  · rfl
  · exact file_data_outside (by unfold mappedSize; omega)

theorem shrunk_trans {n m : Nat} (first : Shrunk F s k n t) (second : Shrunk F t k m u) :
    Shrunk F s k m u := by
  have fewer := second.fewer
  have blocks := first.blocks
  constructor
  · exact second.maps
  · exact fewer.trans (blocks.le.trans first.fewer)
  · exact second.blocks
  · exact second.size.trans first.size
  · exact ⟨second.kind.1.trans first.kind.1, second.kind.2.trans first.kind.2⟩
  · exact second.indirect.trans first.indirect
  · intro g ne
    exact (second.others g ne).trans (first.others g ne)
  · intro p
    rw [second.data, first.data]
    have reach : m * SFS_BLKSIZE ≤ n * SFS_BLKSIZE := Nat.mul_le_mul_right _ (by omega)
    split_ifs with low high
    · rfl
    · omega
    · rfl
  · intro g mg ne
    exact (second.elsewhere g mg ne).trans (first.elsewhere g mg ne)
  · intro c inuse apart
    obtain ⟨inuseT, apartT, sameT⟩ := first.apart c inuse apart
    obtain ⟨inuseU, apartU, sameU⟩ := second.apart c inuseT apartT
    exact ⟨inuseU, apartU, sameU.trans sameT⟩
  · have := first.unused
    have := second.unused
    omega
  · rcases second.quiet with dirty | same
    · exact Or.inl dirty
    · rw [same]
      exact first.quiet

theorem truncate_run (maps : BlockMaps s F) (mem : k ∈ F)
    (last : i + 1 = (s.inodes k).din.blocks) :
    ∃ t, sfsBmapTruncateNolock k s = .ok (0, t) ∧ Shrunk F s k i t := by
  have free : ∃ t, sfsBmapFreeNolock k i s = .ok (0, t) ∧ Detached F s k i t := by
    by_cases direct : i < SFS_NDIRECT
    · obtain ⟨t, run, detached, _⟩ := free_direct_run maps mem direct (by omega)
      exact ⟨t, run, detached⟩
    · exact free_entry_run maps mem direct (by omega)
  obtain ⟨t, run, detached⟩ := free
  refine ⟨shortened t k i, ?_, detached_shrunk maps mem detached last⟩
  unfold sfsBmapTruncateNolock
  rw [run_bind inode_run, ← last, Nat.add_sub_cancel, run_check_bind (by omega), run_bind run, if_neg (by decide),
    run_bind set_din_run]
  unfold shortened
  have count := detached.blocks
  have same : t.setDin k (fun din => { din with blocks := din.blocks - 1 }) true =
      t.setDin k (fun din => { din with blocks := i }) true := by
    unfold Sfs.setDin
    simp only [count, ← last, Nat.add_sub_cancel]
  rw [same]
  rfl

/- The shrinking loop of `sfs_truncfile`. -/
theorem reduce_run (count : Nat) {s : Sfs} (maps : BlockMaps s F) (mem : k ∈ F)
    (most : count ≤ (s.inodes k).din.blocks) :
    ∃ t, sfsReduce k count s = .ok (0, t) ∧
      Shrunk F s k ((s.inodes k).din.blocks - count) t := by
  induction count generalizing s with
  | zero => exact ⟨s, rfl, shrunk_refl maps⟩
  | succ count ih =>
    obtain ⟨t, run, shrunk⟩ := truncate_run maps mem
      (by omega : (s.inodes k).din.blocks - 1 + 1 = (s.inodes k).din.blocks)
    have blocks := shrunk.blocks
    obtain ⟨u, rest, further⟩ := ih shrunk.maps (by omega)
    refine ⟨u, ?_, ?_⟩
    · unfold sfsReduce
      rw [run_bind run, if_neg (by decide), rest]
    · have total : (s.inodes k).din.blocks - (count + 1) = (t.inodes k).din.blocks - count := by omega
      rw [total]
      exact shrunk_trans shrunk further

end

end Ucore
