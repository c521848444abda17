import Ucore.Fs.Sfs.SfsDirent

/- What no SFS program changes: the size of the volume, and the type, the links and the twelve
   entries of `direct` of an inode in memory. The programs change a volume by an inode, by a block
   and by the accounts, and keep every relation that allows these three. -/
namespace Ucore
open Programs Words

structure SameKind (d e : SfsDiskInode) : Prop where
  type : e.type = d.type
  nlinks : e.nlinks = d.nlinks
  tail : ∀ i, SFS_NDIRECT ≤ i → e.direct i = d.direct i

structure SameKinds (s t : Sfs) : Prop where
  blocks : t.blocks = s.blocks
  dBlocks : t.dBlocks = s.dBlocks
  kind : ∀ k, SameKind (s.inodes k).din (t.inodes k).din

instance : IsPreorder Sfs SameKinds where
  refl _ := ⟨rfl, rfl, fun _ => ⟨rfl, rfl, fun _ _ => rfl⟩⟩
  trans _ _ _ first second :=
    ⟨second.blocks.trans first.blocks, second.dBlocks.trans first.dBlocks, fun k =>
      ⟨(second.kind k).type.trans (first.kind k).type,
        (second.kind k).nlinks.trans (first.kind k).nlinks,
        fun i high => ((second.kind k).tail i high).trans ((first.kind k).tail i high)⟩⟩

/-- A relation that allows the changes of an inode of the same kind, of a block that
`sfs_rwblock_nolock` lets pass, and of the free blocks together with `super_dirty`. -/
class SfsRelation (R : Sfs → Sfs → Prop) : Prop extends IsPreorder Sfs R where
  inode : ∀ s k (sin : SfsInode), SameKind (s.inodes k).din sin.din →
    R s { s with inodes := Function.update s.inodes k sin }
  block : ∀ s b c data, b ≠ 0 → b < s.blocks → disk0Block s (u32 (b * SFS_BLKSIZE : Nat)) = .ok c →
    R s { s with disk := Function.update s.disk c data }
  account : ∀ s freemap unusedBlocks, freemap.nbits = s.freemap.nbits →
    R s { s with freemap, unusedBlocks, superDirty := true }

instance : SfsRelation SameKinds where
  inode s k sin kind := by
    refine ⟨rfl, rfl, fun g => ?_⟩
    by_cases same : g = k
    · subst g
      simp only [Function.update_self]
      exact kind
    · simp only [Function.update_of_ne same]
      exact ⟨rfl, rfl, fun _ _ => rfl⟩
  block _ _ _ _ _ _ _ := ⟨rfl, rfl, fun _ => ⟨rfl, rfl, fun _ _ => rfl⟩⟩
  account _ _ _ _ := ⟨rfl, rfl, fun _ => ⟨rfl, rfl, fun _ _ => rfl⟩⟩

theorem bitmap_alloc_nbits {b b' : Bitmap} {i : Nat} (took : bitmapAlloc b = some (.ok (i, b'))) :
    b'.nbits = b.nbits := by
  unfold bitmapAlloc at took
  split at took
  · cases took
  · split at took
    · cases took
    · cases took
      rfl

theorem bitmap_free_nbits {b b' : Bitmap} {i : Nat} (freed : bitmapFree b i = some b') : b'.nbits = b.nbits := by
  unfold bitmapFree at freed
  split_ifs at freed
  cases freed
  rfl

section
variable {R : Sfs → Sfs → Prop} [SfsRelation R]

omit [SfsRelation R] in
theorem related_of_run {s t : Sfs} {α : Type} {m : SfsM α} (keeps : Keeps R m) {a : α}
    (ok : m s = .ok (a, t)) : R s t := by
  have kept := keeps s
  unfold Meets at kept
  rw [ok] at kept
  exact kept

theorem same_kinds_of_run {s t : Sfs} {α : Type} {m : SfsM α} (keeps : Keeps SameKinds m) {a : α}
    (ok : m s = .ok (a, t)) : SameKinds s t := related_of_run keeps ok

theorem keeps_inode {k : Nat} : Keeps R (sfsInode k) := by
  unfold sfsInode
  exact keeps_bind keeps_get fun _ => keeps_pure

theorem keeps_set_din {k : Nat} {f : SfsDiskInode → SfsDiskInode} {dirty : Bool}
    (kind : ∀ din, SameKind din (f din)) :
    Keeps R (sfsSetDin k f dirty) := by
  apply keeps_modify
  intro s
  exact SfsRelation.inode s k _ (kind _)

theorem keeps_read_block {b : Nat} : Keeps R (sfsReadBlock b) := by
  unfold sfsReadBlock
  apply keeps_bind keeps_get
  intro s
  apply keeps_bind keeps_check
  intro _
  cases disk0Block s (u32 (b * SFS_BLKSIZE : Nat)) with
  | error ret => exact keeps_pure
  | ok c => exact keeps_pure

theorem keeps_write_block {b : Nat} {data : DiskBlock} : Keeps R (sfsWriteBlock b data) := by
  unfold sfsWriteBlock
  apply keeps_get_bind
  intro s
  rw [meets_bind, meets_check]
  split_ifs with inside
  · cases reached : disk0Block s (u32 (b * SFS_BLKSIZE : Nat)) with
    | error ret => exact refl_of R s
    | ok c => exact SfsRelation.block s b c data inside.1 inside.2 reached

theorem keeps_rbuf {len b offset : Nat} : Keeps R (sfsRbuf len b offset) := by
  unfold sfsRbuf
  apply keeps_bind keeps_check
  intro _
  apply keeps_bind keeps_read_block
  intro r
  cases r with
  | error ret => exact keeps_pure
  | ok data => exact keeps_pure

theorem keeps_wbuf {buf : DiskBlock} {len b offset : Nat} :
    Keeps R (sfsWbuf buf len b offset) := by
  unfold sfsWbuf
  apply keeps_bind keeps_check
  intro _
  apply keeps_bind keeps_read_block
  intro r
  cases r with
  | error ret => exact keeps_pure
  | ok data => exact keeps_write_block

theorem keeps_block_inuse {b : Nat} : Keeps R (sfsBlockInuse b) := by
  unfold sfsBlockInuse
  apply keeps_bind keeps_get
  intro s
  apply keeps_bind keeps_check
  intro _
  cases bitmapTest s.freemap b with
  | none => exact keeps_stop
  | some free => exact keeps_pure

theorem keeps_assert_inuse {b : Nat} : Keeps R (sfsAssertInuse b) := by
  unfold sfsAssertInuse
  exact keeps_bind keeps_block_inuse fun _ => keeps_check

theorem keeps_set {s : Sfs} {t : Sfs} {α : Type} {f : PUnit → SfsM α} (same : R s t)
    (rest : ∀ a, Keeps R (f a)) :
    Meets (set t >>= f) s (fun _ u => R s u) fun _ => True :=
  meets_mono (rest ⟨⟩ t) (fun _ _ more => trans_of R same more) fun _ _ => trivial

theorem keeps_block_alloc : Keeps R sfsBlockAlloc := by
  unfold sfsBlockAlloc
  apply keeps_get_bind
  intro s
  cases took : bitmapAlloc s.freemap with
  | none => exact trivial
  | some r =>
    cases r with
    | error ret => exact refl_of R s
    | ok r =>
      obtain ⟨ino, freemap⟩ := r
      dsimp only
      rw [meets_bind, meets_check]
      split_ifs
      refine keeps_set ?_ fun _ => ?_
      · exact SfsRelation.account s freemap _ (bitmap_alloc_nbits took)
      · apply keeps_bind keeps_assert_inuse
        intro _
        apply keeps_bind keeps_write_block
        intro ret
        split_ifs
        · exact keeps_pure
        · exact keeps_pure

theorem keeps_block_free {b : Nat} : Keeps R (sfsBlockFree b) := by
  unfold sfsBlockFree
  apply keeps_bind keeps_assert_inuse
  intro _
  apply keeps_get_bind
  intro s
  cases freed : bitmapFree s.freemap b with
  | none => exact trivial
  | some freemap => exact SfsRelation.account s freemap _ (bitmap_free_nbits freed)

theorem keeps_give_back {ent entp : Nat} {ret : Int} :
    Keeps R (sfsGiveBack ent entp ret) := by
  unfold sfsGiveBack
  split_ifs
  · exact keeps_bind keeps_block_free fun _ => keeps_pure
  · exact keeps_pure

theorem keeps_entry_block {entp : Nat} : Keeps R (sfsEntryBlock entp) := by
  unfold sfsEntryBlock
  split_ifs
  · exact keeps_pure
  · exact keeps_block_alloc

theorem keeps_bmap_get_sub {entp index : Nat} {create : Bool} :
    Keeps R (sfsBmapGetSubNolock entp index create) := by
  unfold sfsBmapGetSubNolock
  apply keeps_bind keeps_check
  intro _
  extract_lets offset rest
  have grow : ∀ old, Keeps R (rest old) := by
    intro old
    cases old with
    | error ret => exact keeps_pure
    | ok ino =>
      unfold rest
      dsimp only
      split_ifs
      · exact keeps_pure
      · apply keeps_bind keeps_entry_block
        intro r
        cases r with
        | error ret => exact keeps_pure
        | ok ent =>
          apply keeps_bind keeps_block_alloc
          intro r
          cases r with
          | error ret => exact keeps_give_back
          | ok ino =>
            apply keeps_bind keeps_wbuf
            intro ret
            split_ifs
            · exact keeps_bind keeps_block_free fun _ => keeps_give_back
            · exact keeps_pure
  split_ifs
  · apply keeps_bind keeps_rbuf
    intro r
    cases r with
    | error ret => exact keeps_bind keeps_pure grow
    | ok bytes => exact keeps_bind keeps_pure grow
  · exact keeps_bind keeps_pure grow

theorem keeps_bmap_get {k index : Nat} {create : Bool} :
    Keeps R (sfsBmapGetNolock k index create) := by
  unfold sfsBmapGetNolock
  apply keeps_bind keeps_inode
  intro sin
  extract_lets din rest
  have checked : ∀ got, Keeps R (rest got) := by
    intro got
    cases got with
    | error ret => exact keeps_pure
    | ok ino =>
      unfold rest
      dsimp only
      split_ifs
      · exact keeps_bind keeps_assert_inuse fun _ => keeps_pure
      · exact keeps_pure
  split_ifs with direct
  · apply keeps_bind keeps_block_alloc
    intro r
    cases r with
    | error ret => exact keeps_bind keeps_pure checked
    | ok ino =>
      refine keeps_bind (keeps_set_din ?_) fun _ => keeps_bind keeps_pure checked
      exact fun din => ⟨rfl, rfl, fun i high => Function.update_of_ne (by omega) _ _⟩
  · exact keeps_bind keeps_pure checked
  · apply keeps_bind keeps_bmap_get_sub
    intro r
    cases r with
    | error ret => exact keeps_bind keeps_pure checked
    | ok r =>
      dsimp only
      split_ifs
      · apply keeps_bind keeps_check
        intro _
        refine keeps_bind (keeps_set_din ?_) fun _ => keeps_bind keeps_pure checked
        exact fun _ => ⟨rfl, rfl, fun _ _ => rfl⟩
      · exact keeps_bind keeps_pure checked
  · exact keeps_bind keeps_stop checked

theorem keeps_bmap_load {k index : Nat} : Keeps R (sfsBmapLoadNolock k index) := by
  unfold sfsBmapLoadNolock
  apply keeps_bind keeps_inode
  intro sin
  apply keeps_bind keeps_check
  intro _
  apply keeps_bind keeps_bmap_get
  intro r
  cases r with
  | error ret => exact keeps_pure
  | ok ino =>
    apply keeps_bind keeps_assert_inuse
    intro _
    dsimp only
    split_ifs
    · exact keeps_bind (keeps_set_din fun _ => ⟨rfl, rfl, fun _ _ => rfl⟩) fun _ => keeps_pure
    · exact keeps_pure

theorem keeps_bmap_free_sub {ent index : Nat} : Keeps R (sfsBmapFreeSubNolock ent index) := by
  unfold sfsBmapFreeSubNolock
  apply keeps_bind keeps_assert_inuse
  intro _
  apply keeps_bind keeps_check
  intro _
  apply keeps_bind keeps_rbuf
  intro r
  cases r with
  | error ret => exact keeps_pure
  | ok bytes =>
    dsimp only
    split_ifs
    · apply keeps_bind keeps_wbuf
      intro ret
      split_ifs
      · exact keeps_pure
      · exact keeps_bind keeps_block_free fun _ => keeps_pure
    · exact keeps_pure

theorem keeps_bmap_free {k index : Nat} : Keeps R (sfsBmapFreeNolock k index) := by
  unfold sfsBmapFreeNolock
  apply keeps_bind keeps_inode
  intro sin
  dsimp only
  split_ifs with direct
  · apply keeps_bind keeps_block_free
    intro _
    refine keeps_bind (keeps_set_din ?_) fun _ => keeps_pure
    exact fun din => ⟨rfl, rfl, fun i high => Function.update_of_ne (by omega) _ _⟩
  · exact keeps_pure
  · exact keeps_bmap_free_sub
  · exact keeps_pure
  · exact keeps_pure

theorem keeps_bmap_truncate {k : Nat} : Keeps R (sfsBmapTruncateNolock k) := by
  unfold sfsBmapTruncateNolock
  apply keeps_bind keeps_inode
  intro sin
  apply keeps_bind keeps_check
  intro _
  apply keeps_bind keeps_bmap_free
  intro ret
  split_ifs
  · exact keeps_pure
  · exact keeps_bind (keeps_set_din fun _ => ⟨rfl, rfl, fun _ _ => rfl⟩) fun _ => keeps_pure

theorem keeps_buf_op {write : Bool} {buf : DiskBlock} {pos size ino blkoff : Nat} :
    Keeps R (sfsBufOp write buf pos size ino blkoff) := by
  unfold sfsBufOp
  split_ifs
  · exact keeps_bind keeps_wbuf fun _ => keeps_pure
  · apply keeps_bind keeps_rbuf
    intro r
    cases r with
    | error ret => exact keeps_pure
    | ok bytes => exact keeps_pure

theorem keeps_block_op {write : Bool} {buf : DiskBlock} {pos ino : Nat} :
    Keeps R (sfsBlockOp write buf pos ino) := by
  unfold sfsBlockOp sfsWblock sfsRblock
  split_ifs
  · exact keeps_bind keeps_write_block fun _ => keeps_pure
  · apply keeps_bind keeps_read_block
    intro r
    cases r with
    | error ret => exact keeps_pure
    | ok bytes => exact keeps_pure

theorem keeps_transfer {k blkno : Nat} {buf : DiskBlock} {op : Nat → SfsM (Int × DiskBlock)}
    (keeps : ∀ ino, Keeps R (op ino)) : Keeps R (sfsTransfer k blkno buf op) := by
  unfold sfsTransfer
  apply keeps_bind keeps_bmap_load
  intro r
  cases r with
  | error ret => exact keeps_pure
  | ok ino => exact keeps ino

theorem keeps_io_blocks {k : Nat} {write : Bool} {endpos nblks blkno alen : Nat} {buf : DiskBlock} :
    Keeps R (sfsIoBlocks k write endpos nblks blkno alen buf) := by
  induction nblks generalizing blkno alen buf with
  | zero =>
    unfold sfsIoBlocks
    split_ifs
    · apply keeps_bind (keeps_transfer fun _ => keeps_buf_op)
      intro r
      dsimp only
      split_ifs
      · exact keeps_pure
      · exact keeps_pure
    · exact keeps_pure
  | succ nblks ih =>
    unfold sfsIoBlocks
    apply keeps_bind (keeps_transfer fun _ => keeps_block_op)
    intro r
    dsimp only
    split_ifs
    · exact keeps_pure
    · exact ih

theorem keeps_io_range {k : Nat} {buf : DiskBlock} {offset endpos : Nat} {write : Bool} :
    Keeps R (sfsIoRange k buf offset endpos write) := by
  have transferred : ∀ size (r : Int × DiskBlock), Keeps R
      (if r.1 ≠ 0 then pure (r.1, 0, r.2)
      else if endpos / SFS_BLKSIZE - offset / SFS_BLKSIZE = 0 then pure (0, size, r.2)
      else sfsIoBlocks k write endpos (endpos / SFS_BLKSIZE - offset / SFS_BLKSIZE - 1)
        (offset / SFS_BLKSIZE + 1) size r.2) := by
    intro size r
    split_ifs
    · exact keeps_pure
    · exact keeps_pure
    · exact keeps_io_blocks
  unfold sfsIoRange
  dsimp only
  by_cases head : offset % SFS_BLKSIZE ≠ 0
  · rw [if_pos head]
    exact keeps_bind (keeps_transfer fun _ => keeps_buf_op) (transferred _)
  · rw [if_neg head]
    exact keeps_io_blocks

theorem keeps_io {k : Nat} {buf : DiskBlock} {offset : Int} {len : Nat} {write : Bool} :
    Keeps R (sfsIoNolock k buf offset len write) := by
  unfold sfsIoNolock
  apply keeps_bind keeps_inode
  intro sin
  apply keeps_bind keeps_check
  intro _
  extract_lets endpos
  split_ifs
  · exact keeps_pure
  · exact keeps_pure
  · exact keeps_pure
  all_goals
    apply keeps_bind keeps_io_range
    intro r
    apply keeps_bind keeps_inode
    intro sin
    split_ifs
    · exact keeps_bind (keeps_set_din fun _ => ⟨rfl, rfl, fun _ _ => rfl⟩) fun _ => keeps_pure
    · exact keeps_pure

theorem keeps_enlarge {k count nblks : Nat} : Keeps R (sfsEnlarge k count nblks) := by
  induction count generalizing nblks with
  | zero => exact keeps_pure
  | succ count ih =>
    unfold sfsEnlarge
    apply keeps_bind keeps_bmap_load
    intro r
    cases r with
    | error ret => exact keeps_pure
    | ok ino => exact ih

theorem keeps_reduce {k count : Nat} : Keeps R (sfsReduce k count) := by
  induction count with
  | zero => exact keeps_pure
  | succ count ih =>
    unfold sfsReduce
    apply keeps_bind keeps_bmap_truncate
    intro ret
    split_ifs
    · exact keeps_pure
    · exact ih

theorem keeps_truncfile {k : Nat} {len : Int} : Keeps R (sfsTruncfile k len) := by
  unfold sfsTruncfile
  split_ifs
  · exact keeps_pure
  · apply keeps_bind keeps_inode
    intro sin
    extract_lets din tblks resized
    have sized : ∀ ret, Keeps R (resized ret) := by
      intro ret
      unfold resized
      split_ifs
      · exact keeps_pure
      · apply keeps_bind keeps_inode
        intro sin
        apply keeps_bind keeps_check
        intro _
        exact keeps_bind (keeps_set_din fun _ => ⟨rfl, rfl, fun _ _ => rfl⟩) fun _ => keeps_pure
    split_ifs
    · exact keeps_bind keeps_check fun _ => keeps_pure
    · exact keeps_bind keeps_enlarge sized
    · exact keeps_bind keeps_reduce sized

end

end Ucore
