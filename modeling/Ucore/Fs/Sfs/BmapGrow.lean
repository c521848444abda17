import Ucore.Fs.Sfs.BlockMaps

/- `sfs_bmap_load_nolock` one block past the end of a file. -/
namespace Ucore
open Programs Words

/-- The blocks that it takes to map the first `n` blocks of a file. -/
def need (s : Sfs) (k n : Nat) : Nat :=
  n - (s.inodes k).din.blocks +
    if SFS_NDIRECT < n ∧ (s.inodes k).din.indirect = 0 then 1 else 0

def Unpointed (s : Sfs) (F : Set Nat) (b : Nat) : Prop :=
  ∀ g ∈ F, ∀ a : Slot, a.Valid → pointer s g a ≠ b

/-- Block `b` has become block `i` of file `k`; the count of blocks is still the old one. -/
structure Attached (F : Set Nat) (s : Sfs) (k i b : Nat) (t : Sfs) : Prop where
  volume : Volume t
  inuse : ∀ c, InUse s c → InUse t c
  fresh : InUse t b
  unpointed : Unpointed s F b
  wasFree : ¬ InUse s b
  cleared : ∀ j, t.disk b j = 0
  others : ∀ g, g ≠ k → t.inodes g = s.inodes g
  kind : (t.inodes k).din.type = (s.inodes k).din.type ∧
    (t.inodes k).din.nlinks = (s.inodes k).din.nlinks
  blocks : (t.inodes k).din.blocks = (s.inodes k).din.blocks
  size : (t.inodes k).din.size = (s.inodes k).din.size
  pointers : ∀ g ∈ F, g ≠ k → ∀ a : Slot, a.Valid → pointer t g a = pointer s g a
  new : pointer t k (.data i) = b
  kept : ∀ j < SFS_NDIRECT + SFS_BLK_NENTRY, j ≠ i →
    pointer t k (.data j) = pointer s k (.data j)
  entries : pointer t k .entries = pointer s k .entries ∨
    pointer s k .entries = 0 ∧ InUse t (pointer t k .entries) ∧ pointer t k .entries ≠ b ∧
      Unpointed s F (pointer t k .entries) ∧ ¬ InUse s (pointer t k .entries)
  content : ∀ c, InUse s c → c ≠ (s.inodes k).din.indirect → t.disk c = s.disk c
  room : ∀ n, i < n → need s k n ≤ s.unusedBlocks → need t k n ≤ t.unusedBlocks + 1
  account : t.unusedBlocks + need s k (i + 1) = s.unusedBlocks
  indirect : (t.inodes k).din.indirect = 0 ↔ (s.inodes k).din.indirect = 0 ∧ i < SFS_NDIRECT
  quiet : (t.inodes k).dirty = true ∨
    t.inodes k = s.inodes k ∧ SFS_NDIRECT ≤ i ∧ (s.inodes k).din.indirect ≠ 0

section Taking
variable {s t : Sfs} {F : Set Nat} {k b : Nat}

theorem taken_inuse (taken : Taken s b t) {c : Nat} (inuse : InUse s c) : InUse t c ∧ c ≠ b := by
  have ne : c ≠ b := by
    intro same
    have free := taken.free
    rw [← same, inuse.2.2] at free
    cases free
  exact ⟨⟨inuse.1, by rw [taken.blocks]; exact inuse.2.1, by rw [taken.bits, if_neg ne, inuse.2.2]⟩, ne⟩

theorem taken_self (taken : Taken s b t) : InUse t b :=
  ⟨taken.nonzero, by rw [taken.blocks]; exact taken.inside, by rw [taken.bits, if_pos rfl]⟩

theorem taken_was_free (taken : Taken s b t) : ¬ InUse s b := by
  intro inuse
  exact (taken_inuse taken inuse).2 rfl

theorem taken_content (taken : Taken s b t) {c : Nat} (inuse : InUse s c) : t.disk c = s.disk c := by
  rw [taken.disk, Function.update_of_ne (taken_inuse taken inuse).2]

theorem taken_unpointed (maps : BlockMaps s F) (taken : Taken s b t) : Unpointed s F b := by
  intro g mem a valid same
  have nonzero : pointer s g a ≠ 0 := by
    rw [same]
    exact taken.nonzero
  exact (taken_inuse taken (pointer_inuse maps mem valid nonzero)).2 same

theorem taken_pointer (maps : BlockMaps s F) (taken : Taken s b t) {g : Nat} (mem : g ∈ F)
    {a : Slot} (valid : a.Valid) : pointer t g a = pointer s g a := by
  apply pointer_congr (by rw [taken.inodes]) _ valid
  intro nonzero j _
  rw [taken_content taken ((maps.map g mem).entries nonzero)]

theorem taken_maps (maps : BlockMaps s F) (taken : Taken s b t) : BlockMaps t F := by
  refine ⟨taken.volume, ?_, ?_⟩
  · intro g mem
    have map := maps.map g mem
    have same : ∀ i < SFS_NDIRECT + SFS_BLK_NENTRY,
        pointer t g (.data i) = pointer s g (.data i) :=
      fun i low => taken_pointer maps taken mem (a := .data i) low
    have bounded := map.bounded
    refine ⟨?_, ?_, ?_, ?_⟩
    · rw [taken.inodes]; exact map.bounded
    · intro i low
      rw [taken.inodes] at low
      rw [same i (by omega)]
      exact (taken_inuse taken (map.below i low)).1
    · intro i high low
      rw [taken.inodes] at high
      rw [same i low]
      exact map.above i high low
    · intro nonzero
      rw [taken.inodes] at nonzero ⊢
      exact (taken_inuse taken (map.entries nonzero)).1
  · intro f mf g mg a b va vb nonzero same
    rw [taken_pointer maps taken mf va] at nonzero same
    rw [taken_pointer maps taken mg vb] at same
    exact maps.unshared f mf g mg a b va vb nonzero same

end Taking

section Entries
variable {s : Sfs} {k : Nat}

def Sfs.writeEntry (s : Sfs) (ent x b : Nat) : Sfs :=
  { s with disk := Function.update s.disk ent (overlay (s.disk ent) (u32Bytes b) 4 (x * 4)) }

/- Writing one entry of an entry block leaves the other entries. -/
theorem entry_written (s : Sfs) (ent : Nat) {x b : Nat} (fits : b < wordSize) (y : Nat) :
    entry (s.writeEntry ent x b) ent y = if y = x then b else entry s ent y := by
  unfold entry Sfs.writeEntry
  simp only [Function.update_self]
  by_cases same : y = x
  · subst y
    rw [if_pos rfl]
    have written : bytesU32 (fun j => overlay (s.disk ent) (u32Bytes b) 4 (x * 4) (x * 4 + j)) =
        bytesU32 (u32Bytes b) := by
      apply bytes_u32_congr
      intro j low
      unfold overlay
      rw [if_pos (by omega), show x * 4 + j - x * 4 = j by omega]
    rw [written, bytes_u32_bytes fits]
  · rw [if_neg same]
    apply bytes_u32_congr
    intro j low
    unfold overlay
    rw [if_neg (by omega)]

theorem write_entry_other (s : Sfs) {ent c : Nat} (x b : Nat) (ne : c ≠ ent) :
    (s.writeEntry ent x b).disk c = s.disk c := by
  unfold Sfs.writeEntry
  simp [ne]

theorem write_entry_volume (ent x b : Nat) (volume : Volume s) : Volume (s.writeEntry ent x b) :=
  ⟨volume.device, volume.addressable, volume.words, volume.covered, volume.free, volume.counted⟩

theorem write_entry_inuse {ent x b c : Nat} : InUse (s.writeEntry ent x b) c ↔ InUse s c := Iff.rfl

theorem inuse_fits {b : Nat} (volume : Volume s) (inuse : InUse s b) : b < wordSize := by
  have device := volume.device
  have addressable := volume.addressable
  have inside := inuse.2.1
  unfold wordSize
  omega

theorem entry_buf_run (volume : Volume s) {ent x b : Nat} (inuse : InUse s ent)
    (inside : x < SFS_BLK_NENTRY) :
    sfsWbuf (u32Bytes b) 4 ent (x * 4) s = .ok (0, s.writeEntry ent x b) := by
  unfold SFS_BLK_NENTRY at inside
  exact wbuf_run volume inuse.1 inuse.2.1 _ (by unfold SFS_BLKSIZE; omega)
    (by unfold SFS_BLKSIZE; omega)

theorem sub_existing_run (volume : Volume s) {ent x : Nat} (inuse : InUse s ent)
    (inside : x < SFS_BLK_NENTRY) (hole : entry s ent x = 0) (room : 0 < s.unusedBlocks) :
    ∃ b t, Taken s b t ∧
      sfsBmapGetSubNolock ent x true s = .ok (.ok (ent, b), t.writeEntry ent x b) := by
  obtain ⟨b, t, alloc, taken⟩ := block_alloc_run volume room
  have read : sfsRbuf 4 ent (x * 4) s = .ok (.ok fun i => s.disk ent (x * 4 + i), s) := by
    unfold SFS_BLK_NENTRY at inside
    exact rbuf_run volume inuse.1 inuse.2.1 (by unfold SFS_BLKSIZE; omega)
      (by unfold SFS_BLKSIZE; omega)
  have empty : bytesU32 (fun i => s.disk ent (x * 4 + i)) = 0 := hole
  have wrote := @entry_buf_run t taken.volume ent x b (taken_inuse taken inuse).1 inside
  refine ⟨b, t, taken, ?_⟩
  unfold sfsBmapGetSubNolock
  rw [run_check_bind inside]
  dsimp only
  rw [if_pos inuse.1, run_bind read]
  dsimp only
  rw [run_bind run_pure]
  dsimp only
  rw [empty, if_neg (by simp)]
  unfold sfsEntryBlock
  rw [if_pos inuse.1, run_bind run_pure]
  dsimp only
  rw [run_bind alloc]
  dsimp only
  rw [run_bind wrote]
  rfl

theorem sub_new_run (volume : Volume s) {x : Nat} (inside : x < SFS_BLK_NENTRY)
    (room : 1 < s.unusedBlocks) :
    ∃ e t b u, Taken s e t ∧ Taken t b u ∧
      sfsBmapGetSubNolock 0 x true s = .ok (.ok (e, b), u.writeEntry e x b) := by
  obtain ⟨e, t, allocE, takenE⟩ := block_alloc_run volume (by omega)
  have unused := takenE.unused
  obtain ⟨b, u, allocB, takenB⟩ := block_alloc_run takenE.volume (by omega)
  have wrote := @entry_buf_run u takenB.volume e x b (taken_inuse takenB (taken_self takenE)).1 inside
  refine ⟨e, t, b, u, takenE, takenB, ?_⟩
  unfold sfsBmapGetSubNolock
  rw [run_check_bind inside]
  dsimp only
  rw [if_neg (by simp), run_bind run_pure]
  dsimp only
  rw [if_neg (by simp)]
  unfold sfsEntryBlock
  rw [if_neg (by simp), run_bind allocE]
  dsimp only
  rw [run_bind allocB]
  dsimp only
  rw [run_bind wrote]
  rfl

end Entries

section Inodes
variable {s : Sfs} {k : Nat} {f : SfsDiskInode → SfsDiskInode} {dirty : Bool}

@[simp] theorem set_din_self : ((s.setDin k f dirty).inodes k).din = f (s.inodes k).din := by
  simp [Sfs.setDin]

theorem set_din_other {g : Nat} (ne : g ≠ k) : (s.setDin k f dirty).inodes g = s.inodes g := by
  simp [Sfs.setDin, ne]

@[simp] theorem set_din_disk : (s.setDin k f dirty).disk = s.disk := rfl

theorem set_din_volume (volume : Volume s) : Volume (s.setDin k f dirty) :=
  ⟨volume.device, volume.addressable, volume.words, volume.covered, volume.free, volume.counted⟩

theorem set_din_inuse {b : Nat} : InUse (s.setDin k f dirty) b ↔ InUse s b := Iff.rfl

end Inodes

section Get
variable {s : Sfs} {F : Set Nat} {k i : Nat}

theorem get_direct_run (maps : BlockMaps s F) (mem : k ∈ F) (direct : i < SFS_NDIRECT)
    (last : i = (s.inodes k).din.blocks) (room : need s k (i + 1) ≤ s.unusedBlocks) :
    ∃ b t, sfsBmapGetNolock k i true s = .ok (.ok b, t) ∧ Attached F s k i b t := by
  have map := maps.map k mem
  have low : i < SFS_NDIRECT + SFS_BLK_NENTRY := by omega
  have hole : (s.inodes k).din.direct i = 0 := by
    have := map.above i (by omega) low
    simpa [pointer, direct] using this
  obtain ⟨b, t, alloc, taken⟩ := block_alloc_run maps.volume (by unfold need at room; omega)
  let u := t.setDin k (fun din => { din with direct := Function.update din.direct i b }) true
  have volume : Volume u := set_din_volume taken.volume
  have fresh : InUse u b := set_din_inuse.mpr (taken_self taken)
  have din : (u.inodes k).din =
      { (s.inodes k).din with direct := Function.update (s.inodes k).din.direct i b } := by
    simp [u, taken.inodes]
  refine ⟨b, u, ?_, ?_⟩
  · unfold sfsBmapGetNolock
    rw [run_bind inode_run]
    dsimp only
    rw [if_pos direct, if_pos ⟨hole, rfl⟩, run_bind alloc]
    dsimp only
    rw [run_bind set_din_run, run_bind run_pure]
    dsimp only
    rw [if_pos taken.nonzero, run_bind (assert_inuse_run volume fresh)]
    rfl
  · have entriesKept : ∀ g ∈ F, ∀ j, (s.inodes g).din.indirect ≠ 0 →
        entry u (s.inodes g).din.indirect j = entry s (s.inodes g).din.indirect j := by
      intro g mg j nonzero
      have same := taken_content taken ((maps.map g mg).entries nonzero)
      simp only [entry, u, set_din_disk, same]
    refine {
      volume, fresh
      inuse := fun c inuse => set_din_inuse.mpr (taken_inuse taken inuse).1
      unpointed := taken_unpointed maps taken
      wasFree := taken_was_free taken
      cleared := by intro j; simp [u, taken.disk]
      others := by intro g ne; rw [set_din_other ne, taken.inodes]
      kind := by rw [din]; exact ⟨rfl, rfl⟩
      blocks := by rw [din]
      size := by rw [din]
      pointers := ?_
      new := by simp [pointer, direct, din]
      kept := ?_
      entries := Or.inl (by simp [pointer, din])
      content := fun c inuse _ => taken_content taken inuse
      room := ?_
      account := ?_
      indirect := by rw [din]; simp [direct]
      quiet := Or.inl (by simp [u, Sfs.setDin]) }
    · intro g mg ne a valid
      have inode : u.inodes g = t.inodes g := set_din_other ne
      rw [pointer_congr (s := t) inode (fun _ _ _ => rfl) valid, taken_pointer maps taken mg valid]
    · intro j lowJ ne
      simp only [pointer, din]
      by_cases directJ : j < SFS_NDIRECT
      · simp [directJ, ne]
      · by_cases none_yet : (s.inodes k).din.indirect = 0
        · simp [directJ, none_yet]
        · simp only [directJ, none_yet, ↓reduceIte]
          exact entriesKept k mem _ none_yet
    · intro n more enough
      have unused := taken.unused
      unfold need at *
      rw [din]
      change _ ≤ t.unusedBlocks + 1
      simp only at *
      omega
    · have unused := taken.unused
      change t.unusedBlocks + _ = _
      unfold need
      rw [if_neg (by omega)]
      omega

theorem get_existing_run (maps : BlockMaps s F) (mem : k ∈ F) (indirect : ¬ i < SFS_NDIRECT)
    (last : i = (s.inodes k).din.blocks) (low : i < SFS_NDIRECT + SFS_BLK_NENTRY)
    (entries : (s.inodes k).din.indirect ≠ 0) (room : need s k (i + 1) ≤ s.unusedBlocks) :
    ∃ b t, sfsBmapGetNolock k i true s = .ok (.ok b, t) ∧ Attached F s k i b t := by
  have map := maps.map k mem
  have inside : i - SFS_NDIRECT < SFS_BLK_NENTRY := by omega
  have inuse := map.entries entries
  have hole : entry s (s.inodes k).din.indirect (i - SFS_NDIRECT) = 0 := by
    have := map.above i (by omega) low
    simpa [pointer, indirect, entries] using this
  obtain ⟨b, t, taken, run⟩ := sub_existing_run maps.volume inuse inside hole
    (by unfold need at room; omega)
  let u := t.writeEntry (s.inodes k).din.indirect (i - SFS_NDIRECT) b
  have volume : Volume u := write_entry_volume _ _ _ taken.volume
  have fresh : InUse u b := write_entry_inuse.mpr (taken_self taken)
  have fits := inuse_fits volume fresh
  have ne := (taken_inuse taken inuse).2
  have inodes : u.inodes = s.inodes := taken.inodes
  have written : ∀ j, entry u (s.inodes k).din.indirect j =
      if j = i - SFS_NDIRECT then b else entry s (s.inodes k).din.indirect j := by
    intro j
    rw [entry_written t _ fits]
    have same := taken_content taken inuse
    simp only [entry, same]
  refine ⟨b, u, ?_, ?_⟩
  · unfold sfsBmapGetNolock
    rw [run_bind inode_run]
    dsimp only
    rw [if_neg indirect, if_pos inside, run_bind run]
    dsimp only
    rw [if_neg (by simp), run_bind run_pure]
    dsimp only
    rw [if_pos taken.nonzero, run_bind (assert_inuse_run volume fresh)]
    rfl
  · refine {
      volume, fresh
      inuse := fun c inuse => write_entry_inuse.mpr (taken_inuse taken inuse).1
      unpointed := taken_unpointed maps taken
      wasFree := taken_was_free taken
      cleared := ?_
      others := by intro g _; rw [inodes]
      kind := by rw [inodes]; exact ⟨rfl, rfl⟩
      blocks := by rw [inodes]
      size := by rw [inodes]
      pointers := ?_
      new := ?_
      kept := ?_
      entries := Or.inl (by simp [pointer, inodes])
      content := ?_
      room := ?_
      account := ?_
      indirect := by rw [inodes]; simp [entries]
      quiet := Or.inr ⟨by rw [inodes], by omega, entries⟩ }
    · intro j
      rw [write_entry_other t _ b ne.symm, taken.disk]
      simp
    · intro g mg neK a valid
      rw [← taken_pointer maps taken mg valid]
      apply pointer_congr (by rw [inodes, taken.inodes]) _ valid
      intro nonzero j _
      rw [taken.inodes] at nonzero ⊢
      -- the entry block of another file is not the one that was written
      have apart : (s.inodes g).din.indirect ≠ (s.inodes k).din.indirect := by
        intro same
        exact neK (maps.unshared g mg k mem .entries .entries trivial trivial nonzero same).1
      rw [write_entry_other t _ b apart]
    · simp [pointer, inodes, indirect, entries, written]
    · intro j lowJ neJ
      simp only [pointer, inodes]
      by_cases directJ : j < SFS_NDIRECT
      · simp [directJ]
      · have : j - SFS_NDIRECT ≠ i - SFS_NDIRECT := by omega
        simp [directJ, entries, written, this]
    · intro c inuseC neC
      rw [write_entry_other t _ b neC, taken_content taken inuseC]
    · intro n more enough
      have unused := taken.unused
      unfold need at *
      rw [inodes]
      change _ ≤ t.unusedBlocks + 1
      omega
    · have unused := taken.unused
      change t.unusedBlocks + _ = _
      unfold need
      rw [if_neg fun both => entries both.2]
      omega

theorem get_new_run (maps : BlockMaps s F) (indirect : ¬ i < SFS_NDIRECT)
    (last : i = (s.inodes k).din.blocks) (low : i < SFS_NDIRECT + SFS_BLK_NENTRY)
    (none_yet : (s.inodes k).din.indirect = 0) (room : need s k (i + 1) ≤ s.unusedBlocks) :
    ∃ b t, sfsBmapGetNolock k i true s = .ok (.ok b, t) ∧ Attached F s k i b t := by
  have inside : i - SFS_NDIRECT < SFS_BLK_NENTRY := by omega
  have two : 1 < s.unusedBlocks := by
    unfold need at room
    rw [if_pos ⟨by omega, none_yet⟩] at room
    omega
  obtain ⟨e, t, b, v, takenE, takenB, run⟩ := sub_new_run maps.volume inside two
  have mapsT := taken_maps maps takenE
  have inuseE := taken_self takenE
  have ne : e ≠ b := (taken_inuse takenB inuseE).2
  let w := v.writeEntry e (i - SFS_NDIRECT) b
  let u := w.setDin k (fun din => { din with indirect := e }) true
  have volume : Volume u := set_din_volume (write_entry_volume _ _ _ takenB.volume)
  have fresh : InUse u b := set_din_inuse.mpr (write_entry_inuse.mpr (taken_self takenB))
  have inuseU : InUse u e :=
    set_din_inuse.mpr (write_entry_inuse.mpr (taken_inuse takenB inuseE).1)
  have fits := inuse_fits volume fresh
  have unpointedE : Unpointed s F e := taken_unpointed maps takenE
  have unpointedB : Unpointed s F b := by
    intro g mg a valid
    rw [← taken_pointer maps takenE mg valid]
    exact taken_unpointed mapsT takenB g mg a valid
  have wasFreeB : ¬ InUse s b := by
    intro inuse
    exact taken_was_free takenB (taken_inuse takenE inuse).1
  have inodes : w.inodes = s.inodes := takenB.inodes.trans takenE.inodes
  have din : (u.inodes k).din = { (s.inodes k).din with indirect := e } := by
    simp [u, inodes]
  have written : ∀ j, entry u e j = if j = i - SFS_NDIRECT then b else 0 := by
    intro j
    change entry w e j = _
    rw [entry_written v e fits]
    congr 1
    have cleared : v.disk e = fun _ => 0 := by
      rw [taken_content takenB inuseE, takenE.disk]
      simp
    simp only [entry, cleared]
    exact bytes_u32_zero fun _ => rfl
  have content : ∀ c, InUse s c → u.disk c = s.disk c := by
    intro c inuse
    have first := taken_inuse takenE inuse
    change w.disk c = _
    rw [write_entry_other v _ b first.2, taken_content takenB first.1, taken_content takenE inuse]
  refine ⟨b, u, ?_, ?_⟩
  · unfold sfsBmapGetNolock
    rw [run_bind inode_run]
    dsimp only
    rw [if_neg indirect, if_pos inside, none_yet, run_bind run]
    dsimp only
    rw [if_pos takenE.nonzero, run_check_bind rfl, run_bind set_din_run]
    rw [run_bind run_pure]
    dsimp only
    rw [if_pos takenB.nonzero, run_bind (assert_inuse_run volume fresh)]
    rfl
  · refine {
      volume, fresh
      inuse := ?_
      unpointed := unpointedB
      wasFree := wasFreeB
      cleared := ?_
      others := by intro g neK; rw [set_din_other neK, inodes]
      kind := by rw [din]; exact ⟨rfl, rfl⟩
      blocks := by rw [din]
      size := by rw [din]
      pointers := ?_
      new := ?_
      kept := ?_
      entries := ?_
      content := fun c inuse _ => content c inuse
      room := ?_
      account := ?_
      indirect := by rw [din]; simp [takenE.nonzero, indirect]
      quiet := Or.inl (by simp [u, Sfs.setDin]) }
    · intro c inuse
      exact set_din_inuse.mpr (write_entry_inuse.mpr
        (taken_inuse takenB (taken_inuse takenE inuse).1).1)
    · intro j
      change w.disk b j = 0
      rw [write_entry_other v _ b ne.symm, takenB.disk]
      simp
    · intro g mg neK a valid
      apply pointer_congr (by rw [set_din_other neK, inodes]) _ valid
      intro nonzero j _
      rw [content _ ((maps.map g mg).entries nonzero)]
    · simp [pointer, din, indirect, takenE.nonzero, written]
    · intro j lowJ neJ
      simp only [pointer, din]
      by_cases directJ : j < SFS_NDIRECT
      · simp [directJ]
      · have : j - SFS_NDIRECT ≠ i - SFS_NDIRECT := by omega
        simp [directJ, none_yet, takenE.nonzero, written, this]
    · refine Or.inr ⟨none_yet, ?_, ?_, ?_, ?_⟩
      · simpa [pointer, din] using inuseU
      · simpa [pointer, din] using ne
      · simpa [pointer, din] using unpointedE
      · simpa [pointer, din] using taken_was_free takenE
    · intro n more enough
      have unusedE := takenE.unused
      have unusedB := takenB.unused
      have nonzero := takenE.nonzero
      unfold need at *
      rw [din]
      rw [if_pos ⟨by omega, none_yet⟩] at enough
      change _ ≤ v.unusedBlocks + 1
      simp only [nonzero, and_false, ↓reduceIte]
      omega
    · have unusedE := takenE.unused
      have unusedB := takenB.unused
      change v.unusedBlocks + _ = _
      unfold need
      rw [if_pos ⟨by omega, none_yet⟩]
      omega

theorem get_grow_run (maps : BlockMaps s F) (mem : k ∈ F) (last : i = (s.inodes k).din.blocks)
    (low : i < SFS_NDIRECT + SFS_BLK_NENTRY) (room : need s k (i + 1) ≤ s.unusedBlocks) :
    ∃ b t, sfsBmapGetNolock k i true s = .ok (.ok b, t) ∧ Attached F s k i b t := by
  by_cases direct : i < SFS_NDIRECT
  · exact get_direct_run maps mem direct last room
  · by_cases none_yet : (s.inodes k).din.indirect = 0
    · exact get_new_run maps direct last low none_yet room
    · exact get_existing_run maps mem direct last low none_yet room

end Get

section Attach
variable {s t : Sfs} {F : Set Nat} {k i b : Nat}

/-- The state after `din->blocks ++`. -/
def counted (t : Sfs) (k : Nat) : Sfs :=
  t.setDin k (fun din => { din with blocks := u32 (din.blocks + 1) }) false

theorem counted_pointer (t : Sfs) (k g : Nat) (a : Slot) :
    pointer (counted t k) g a = pointer t g a := by
  have direct : ((counted t k).inodes g).din.direct = (t.inodes g).din.direct := by
    by_cases same : g = k
    · subst g; simp [counted]
    · unfold counted; rw [set_din_other same]
  have indirect : ((counted t k).inodes g).din.indirect = (t.inodes g).din.indirect := by
    by_cases same : g = k
    · subst g; simp [counted]
    · unfold counted; rw [set_din_other same]
  cases a with
  | data i => simp only [pointer, direct, indirect]; rfl
  | entries => simp only [pointer, indirect]

/- A pointer of the grown map is an old one, the new block or the new entry block. -/
theorem attached_pointer (attached : Attached F s k i b t) {g : Nat} (mem : g ∈ F) {a : Slot}
    (valid : a.Valid) :
    pointer t g a = pointer s g a ∧ ¬ (g = k ∧ a = .data i) ∨
    (g = k ∧ a = .data i) ∧ pointer t g a = b ∨
    (g = k ∧ a = .entries) ∧ pointer t g a ≠ b ∧ InUse t (pointer t g a) ∧
      Unpointed s F (pointer t g a) := by
  by_cases same : g = k
  · subst g
    cases a with
    | data j =>
      by_cases here : j = i
      · subst j
        exact Or.inr (Or.inl ⟨⟨rfl, rfl⟩, attached.new⟩)
      · exact Or.inl ⟨attached.kept j valid here, by simp [here]⟩
    | entries =>
      rcases attached.entries with old | ⟨_, inuse, ne, unpointed, _⟩
      · exact Or.inl ⟨old, by simp⟩
      · exact Or.inr (Or.inr ⟨⟨rfl, rfl⟩, ne, inuse, unpointed⟩)
  · exact Or.inl ⟨attached.pointers g mem same a valid, by simp [same]⟩

theorem attached_unshared (maps : BlockMaps s F) (attached : Attached F s k i b t) {f g : Nat}
    (mf : f ∈ F) (mg : g ∈ F) {a c : Slot} (va : a.Valid) (vc : c.Valid)
    (nonzero : pointer t f a ≠ 0) (same : pointer t f a = pointer t g c) : f = g ∧ a = c := by
  rcases attached_pointer attached mf va with ⟨old, _⟩ | ⟨⟨rfl, rfl⟩, new⟩ | ⟨⟨rfl, rfl⟩, ne, _, un⟩
  · rw [old] at nonzero same
    rcases attached_pointer attached mg vc with ⟨old', _⟩ | ⟨_, new'⟩ | ⟨_, _, _, un'⟩
    · rw [old'] at same
      exact maps.unshared f mf g mg a c va vc nonzero same
    · rw [new'] at same
      exact absurd same (attached.unpointed f mf a va)
    · exact absurd same (un' f mf a va)
  · rcases attached_pointer attached mg vc with ⟨old', _⟩ | ⟨⟨rfl, rfl⟩, _⟩ | ⟨_, ne', _, _⟩
    · rw [new, old'] at same
      exact absurd same.symm (attached.unpointed g mg c vc)
    · exact ⟨rfl, rfl⟩
    · exact absurd (same.symm.trans new) ne'
  · rcases attached_pointer attached mg vc with ⟨old', _⟩ | ⟨_, new'⟩ | ⟨⟨rfl, rfl⟩, _, _, _⟩
    · rw [old'] at same
      exact absurd same.symm (un g mg c vc)
    · exact absurd (same.trans new') ne
    · exact ⟨rfl, rfl⟩

theorem attached_maps (maps : BlockMaps s F) (attached : Attached F s k i b t)
    (last : i = (s.inodes k).din.blocks) (low : i < SFS_NDIRECT + SFS_BLK_NENTRY) :
    BlockMaps (counted t k) F := by
  have count : u32 ((s.inodes k).din.blocks + 1) = i + 1 := by
    apply u32_exact (by omega)
    unfold SFS_NDIRECT SFS_BLK_NENTRY at low
    unfold wordSize
    omega
  refine ⟨set_din_volume attached.volume, ?_, ?_⟩
  · intro g mg
    have map := maps.map g mg
    have bounded := map.bounded
    by_cases same : g = k
    · subst g
      have din : ((counted t k).inodes k).din = { (t.inodes k).din with blocks := i + 1 } := by
        simp [counted, attached.blocks, count]
      refine ⟨?_, ?_, ?_, ?_⟩
      · rw [din]; exact low
      · intro j below
        rw [din] at below
        rw [counted_pointer]
        by_cases here : j = i
        · subst j
          rw [attached.new]
          exact attached.fresh
        · have below : j < i := by simp only at below; omega
          rw [attached.kept j (by omega) here]
          exact attached.inuse _ (map.below j (by omega))
      · intro j above inside
        rw [din] at above
        simp only at above
        rw [counted_pointer, attached.kept j inside (by omega)]
        exact map.above j (by omega) inside
      · rw [din]
        intro nonzero
        rcases attached.entries with old | ⟨_, inuse, _, _, _⟩
        · simp only [pointer] at old
          simp only [old] at nonzero ⊢
          exact attached.inuse _ (map.entries nonzero)
        · exact inuse
    · have inode : (counted t k).inodes g = s.inodes g := by
        unfold counted
        rw [set_din_other same, attached.others g same]
      have pointers : ∀ j < SFS_NDIRECT + SFS_BLK_NENTRY,
          pointer (counted t k) g (.data j) = pointer s g (.data j) := by
        intro j inside
        rw [counted_pointer, attached.pointers g mg same (.data j) inside]
      refine ⟨?_, ?_, ?_, ?_⟩
      · rw [inode]; exact map.bounded
      · intro j below
        rw [inode] at below
        rw [pointers j (by omega)]
        exact attached.inuse _ (map.below j below)
      · intro j above inside
        rw [inode] at above
        rw [pointers j inside]
        exact map.above j above inside
      · rw [inode]
        intro nonzero
        exact attached.inuse _ (map.entries nonzero)
  · intro f mf g mg a c va vc nonzero same
    rw [counted_pointer] at nonzero same
    rw [counted_pointer] at same
    exact attached_unshared maps attached mf mg va vc nonzero same

end Attach

/-- What longer maps of a file take and leave. -/
structure Grown (s : Sfs) (k : Nat) (t : Sfs) : Prop where
  more : (s.inodes k).din.blocks ≤ (t.inodes k).din.blocks
  kind : (t.inodes k).din.type = (s.inodes k).din.type ∧
    (t.inodes k).din.nlinks = (s.inodes k).din.nlinks
  apart : ∀ c, InUse s c → Unpointed s {k} c →
    InUse t c ∧ Unpointed t {k} c ∧ t.disk c = s.disk c
  account : t.unusedBlocks + need s k (t.inodes k).din.blocks = s.unusedBlocks
  indirect : (t.inodes k).din.indirect = 0 ↔
    (s.inodes k).din.indirect = 0 ∧ (t.inodes k).din.blocks ≤ SFS_NDIRECT
  quiet : (t.inodes k).dirty = true ∨
    t.inodes k = { s.inodes k with
      din := { (s.inodes k).din with blocks := (t.inodes k).din.blocks } } ∧
    ((t.inodes k).din.blocks = (s.inodes k).din.blocks ∨
      SFS_NDIRECT ≤ (s.inodes k).din.blocks ∧ (s.inodes k).din.indirect ≠ 0)

section Grow
variable {s t u : Sfs} {F : Set Nat} {k i b : Nat}

/- A map of more than the direct blocks has an entry block. -/
theorem few_without_entries (map : FileMap s k) (none_yet : (s.inodes k).din.indirect = 0) :
    (s.inodes k).din.blocks ≤ SFS_NDIRECT := by
  by_contra more
  have nonzero := (map.below SFS_NDIRECT (by omega)).1
  exact nonzero (by simp [pointer, none_yet])

theorem grown_refl (map : FileMap s k) : Grown s k s := by
  refine ⟨le_rfl, ⟨rfl, rfl⟩, fun c inuse apart => ⟨inuse, apart, rfl⟩, ?_, ?_, Or.inr ⟨rfl, Or.inl rfl⟩⟩
  · unfold need
    rw [if_neg]
    · omega
    · intro ⟨more, none_yet⟩
      have := few_without_entries map none_yet
      omega
  · constructor
    · intro none_yet
      exact ⟨none_yet, few_without_entries map none_yet⟩
    · exact fun both => both.1

theorem grown_trans (first : Grown s k t) (second : Grown t k u) : Grown s k u := by
  have more := first.more
  have further := second.more
  constructor
  · omega
  · exact ⟨second.kind.1.trans first.kind.1, second.kind.2.trans first.kind.2⟩
  · intro c inuse apart
    obtain ⟨inuseT, apartT, sameT⟩ := first.apart c inuse apart
    obtain ⟨inuseU, apartU, sameU⟩ := second.apart c inuseT apartT
    exact ⟨inuseU, apartU, sameU.trans sameT⟩
  · have accountT := first.account
    have accountU := second.account
    have indirect := first.indirect
    unfold need at *
    by_cases none_yet : (s.inodes k).din.indirect = 0
    · simp only [none_yet, and_true, true_and] at *
      by_cases few : (t.inodes k).din.blocks ≤ SFS_NDIRECT
      · rw [if_neg (by omega)] at accountT
        simp only [indirect.mpr few, and_true] at accountU
        split_ifs at * <;> omega
      · rw [if_pos (by omega)] at accountT
        rw [if_neg (fun both => few (indirect.mp both.2))] at accountU
        rw [if_pos (by omega)]
        omega
    · have some := fun zero => none_yet (indirect.mp zero).1
      rw [if_neg fun both => none_yet both.2] at accountT
      rw [if_neg fun both => some both.2] at accountU
      rw [if_neg fun both => none_yet both.2]
      omega
  · rw [second.indirect, first.indirect]
    constructor
    · exact fun all => ⟨all.1.1, all.2⟩
    · exact fun both => ⟨⟨both.1, further.trans both.2⟩, both.2⟩
  · rcases second.quiet with dirty | ⟨sameU, how⟩
    · exact Or.inl dirty
    · rcases first.quiet with dirty | ⟨sameT, what⟩
      · left
        rw [sameU]
        exact dirty
      · right
        have indirect : (t.inodes k).din.indirect = (s.inodes k).din.indirect := by rw [sameT]
        constructor
        · rw [sameU, sameT]
        · rw [indirect] at how
          rcases what with what | what
          · rwa [what] at how
          · exact Or.inr what

theorem attached_grown (attached : Attached F s k i b t) (mem : k ∈ F)
    (last : i = (s.inodes k).din.blocks) (low : i < SFS_NDIRECT + SFS_BLK_NENTRY) :
    Grown s k (counted t k) := by
  have count : u32 ((s.inodes k).din.blocks + 1) = i + 1 := by
    apply u32_exact (by omega)
    unfold SFS_NDIRECT SFS_BLK_NENTRY at low
    unfold wordSize
    omega
  have inode : (counted t k).inodes k =
      { t.inodes k with din := { (t.inodes k).din with blocks := i + 1 } } := by
    unfold counted Sfs.setDin
    simp [attached.blocks, count]
  constructor
  · rw [inode]
    simp only
    omega
  · rw [inode]
    exact attached.kind
  · intro c inuse apart
    have ne : c ≠ (s.inodes k).din.indirect := (apart k rfl .entries trivial).symm
    refine ⟨attached.inuse c inuse, ?_, attached.content c inuse ne⟩
    rintro g rfl a valid
    rw [counted_pointer]
    rcases attached_pointer attached mem valid with ⟨old, _⟩ | ⟨_, new⟩ | ⟨⟨_, here⟩, _⟩
    · rw [old]
      exact apart g rfl a valid
    · rw [new]
      intro same
      exact attached.wasFree (same ▸ inuse)
    · subst here
      rcases attached.entries with old | ⟨_, _, _, _, wasFree⟩
      · rw [old]
        exact apart g rfl _ valid
      · intro same
        exact wasFree (same ▸ inuse)
  · rw [inode]
    exact attached.account
  · rw [inode]
    change (t.inodes k).din.indirect = 0 ↔ _
    rw [attached.indirect]
    simp only [Nat.succ_le_iff]
  · rcases attached.quiet with dirty | ⟨same, many, entries⟩
    · left
      rw [inode]
      exact dirty
    · right
      constructor
      · rw [inode, same]
      · exact Or.inr ⟨last ▸ many, entries⟩

end Grow

end Ucore
