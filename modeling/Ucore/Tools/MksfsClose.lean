import Ucore.Tools.MksfsRuns

/- `close_sfs`: what is in each block of the finished image. -/
namespace Ucore.Mksfs
open Words Transitions
variable {s t u w : SfsFs} {f b i j n count len : Nat} {ci : CacheInode} {role : Nat → Role} {data : DiskBlock}

/- The first `len` bytes, and zeros behind them. -/
def cut (len : Nat) (data : DiskBlock) : DiskBlock := fun i => if i < len then data i else 0

/-- A step that writes the blocks in `P`, each with its `content`. -/
structure Written (content : Nat → DiskBlock) (P : Nat → Prop) (s t : SfsFs) : Prop where
  same : t = { s with image := t.image }
  inside : ∀ b, P b → t.image b = content b
  outside : ∀ b, ¬ P b → t.image b = s.image b

variable {content : Nat → DiskBlock} {P Q R : Nat → Prop}

theorem Written.trans (first : Written content P s t) (second : Written content Q t u)
    (both : ∀ b, R b ↔ P b ∨ Q b) : Written content R s u := by
  refine ⟨?_, fun b here => ?_, fun b out => ?_⟩
  · rw [second.same, first.same]
  · by_cases later : Q b
    · exact second.inside b later
    · rw [second.outside b later]
      exact first.inside b (((both b).mp here).resolve_right later)
  · obtain ⟨not_first, not_second⟩ := not_or.mp fun either => out ((both b).mpr either)
    rw [second.outside b not_second, first.outside b not_first]

theorem write_block_run (content : Nat → DiskBlock) (data : DiskBlock) (fits : len ≤ SFS_BLKSIZE) (inside : b < s.ninos)
    (same : content b = cut len data) :
    ∃ t, writeBlock data len b s = some t ∧ Written content (· = b) s t := by
  refine ⟨_, if_pos ⟨fits, inside⟩, rfl, fun x here => ?_, fun x other => Function.update_of_ne other ..⟩
  subst here
  rw [same]
  exact Function.update_self ..

/- One write for each member of a list. -/
theorem fold_written {write : SfsFs → Nat → Option SfsFs} {bs : List Nat}
    (one : ∀ w, w = { s with image := w.image } → ∀ b ∈ bs, ∃ t, write w b = some t ∧ Written content (· = b) w t) :
    ∀ w, w = { s with image := w.image } → ∃ t, bs.foldlM write w = some t ∧ Written content (· ∈ bs) w t := by
  induction bs with
  | nil => exact fun w _ => ⟨w, rfl, ⟨rfl, fun b mem => (nomatch mem), fun _ _ => rfl⟩⟩
  | cons b bs ih =>
    intro w same
    obtain ⟨t, step, written⟩ := one w same b List.mem_cons_self
    have later : t = { s with image := t.image } := by rw [written.same, same]
    obtain ⟨u, rest, written'⟩ := ih (fun w same b mem => one w same b (List.mem_cons_of_mem _ mem)) t later
    refine ⟨u, ?_, written.trans written' fun x => List.mem_cons⟩
    rw [List.foldlM_cons, step]
    exact rest

/- The content of an inode or of a block of pointers. -/
def flushed (s : SfsFs) (b : Nat) : DiskBlock :=
  match s.inode b with
  | some ci => cut sizeofInode (inodeBytes ci.inode)
  | none => cut SFS_BLKSIZE (wordsBytes (s.cache b))

theorem cached_no_inode (sound : MkSound role s) (mem : b ∈ s.blocks i) : s.inode b = none := by
  obtain ⟨_, _, f, k, here⟩ := sound.cached i b mem
  cases known : s.inode b with
  | none => rfl
  | some ci => cases here.symm.trans (sound.known b ci known).2.1

theorem known_inside (sound : MkSound role s) (known : s.inode f = some ci) : f < s.ninos :=
  Nat.lt_of_lt_of_le (known_small sound known) sound.room

theorem flush_block_run (sound : MkSound role s) (same : w = { s with image := w.image }) (mem : b ∈ s.blocks i) :
    ∃ t, flushCacheBlock b w = some t ∧ Written (flushed s) (· = b) w t := by
  have inside := (sound.cached i b mem).2.1.2
  apply write_block_run _ _ (Nat.le_refl _)
  · rw [same]
    exact Nat.lt_of_lt_of_le inside sound.room
  · unfold flushed
    rw [cached_no_inode sound mem, same]

theorem flush_inode_run (sound : MkSound role s) (same : w = { s with image := w.image }) (small : i < HASH_LIST_SIZE)
    (mem : f ∈ s.inodes i) : ∃ t, flushCacheInode f w = some t ∧ Written (flushed s) (· = f) w t := by
  obtain ⟨ci, known⟩ := Option.isSome_iff_exists.mp ((sound.listed f).mpr ⟨i, small, mem⟩)
  have known' : w.inode f = some ci := by rw [same, ← known]
  unfold flushCacheInode
  rw [known']
  have inside := known_inside sound known
  apply write_block_run _ _ (by decide)
  · rw [same]
    exact inside
  · unfold flushed
    rw [known]

theorem flush_lists_run (i count : Nat) (sound : MkSound role s) (small : i + count ≤ HASH_LIST_SIZE) (same : w = { s with image := w.image }) :
    ∃ t, flushLists count i w = some t ∧
      Written (flushed s) (fun b => ∃ j, i ≤ j ∧ j < i + count ∧ (b ∈ s.blocks j ∨ b ∈ s.inodes j)) w t := by
  induction count generalizing i w with
  | zero =>
    refine ⟨w, rfl, rfl, fun b ⟨j, low, high, _⟩ => ?_, fun _ _ => rfl⟩
    omega
  | succ count ih =>
    obtain ⟨u, blocks, written⟩ := fold_written (fun w same b mem => flush_block_run (i := i) sound same mem) w same
    have after : u = { s with image := u.image } := by rw [written.same, same]
    obtain ⟨v, inodes, written'⟩ := fold_written (fun w same f mem => flush_inode_run (i := i) sound same (by omega) mem) u after
    have later : v = { s with image := v.image } := by rw [written'.same, after]
    obtain ⟨t, rest, written''⟩ := ih (i + 1) (by omega) later
    have here := written.trans written' (R := fun b => b ∈ s.blocks i ∨ b ∈ s.inodes i) fun _ => Iff.rfl
    refine ⟨t, ?_, here.trans written'' fun b => ?_⟩
    · unfold flushLists
      rw [show w.blocks = s.blocks by rw [same], blocks]
      change (List.foldlM (fun s f => flushCacheInode f s) u (u.inodes i)).bind _ = some t
      rw [show u.inodes = s.inodes by rw [after], inodes]
      exact rest
    · constructor
      · rintro ⟨j, low, high, mem⟩
        by_cases first : j = i
        · exact .inl (first ▸ mem)
        · exact .inr ⟨j, by omega, by omega, mem⟩
      · rintro (mem | ⟨j, low, high, mem⟩)
        · exact ⟨i, Nat.le_refl i, by omega, mem⟩
        · exact ⟨j, by omega, by omega, mem⟩

theorem write_freemap_run (content : Nat → DiskBlock) (b count : Nat) (inside : SFS_BLKN_FREEMAP + (b + count) ≤ s.ninos)
    (block : ∀ i, content (SFS_BLKN_FREEMAP + i) = cut SFS_BLKSIZE (freemapBlock s.ninos s.nextIno (i * SFS_BLKBITS))) :
    ∃ t, writeFreemap count b s = some t ∧
      Written content (fun x => ∃ i, b ≤ i ∧ i < b + count ∧ x = SFS_BLKN_FREEMAP + i) s t := by
  induction count generalizing b s with
  | zero =>
    refine ⟨s, rfl, rfl, fun x ⟨i, low, high, _⟩ => ?_, fun _ _ => rfl⟩
    omega
  | succ count ih =>
    obtain ⟨u, write, written⟩ := write_block_run (s := s) content _ (Nat.le_refl SFS_BLKSIZE)
      (show SFS_BLKN_FREEMAP + b < s.ninos by omega) (block b)
    have same := written.same
    obtain ⟨t, rest, written'⟩ := ih (s := u) (b + 1) (by rw [same]; dsimp only; omega)
      (fun i => by rw [same]; exact block i)
    refine ⟨t, ?_, written.trans written' fun x => ?_⟩
    · unfold writeFreemap
      rw [write]
      exact rest
    · constructor
      · rintro ⟨i, low, high, rfl⟩
        by_cases first : i = b
        · exact .inl (by rw [first])
        · exact .inr ⟨i, by omega, by omega, rfl⟩
      · rintro (rfl | ⟨i, low, high, rfl⟩)
        · exact ⟨b, Nat.le_refl b, by omega, rfl⟩
        · exact ⟨i, by omega, by omega, rfl⟩

/-- The finished image. -/
structure Closed (s t : SfsFs) : Prop where
  super : t.image SFS_BLKN_SUPER = cut sizeofSuper (superBytes s)
  freemap : ∀ i < (s.ninos + SFS_BLKBITS - 1) / SFS_BLKBITS,
    t.image (SFS_BLKN_FREEMAP + i) = cut SFS_BLKSIZE (freemapBlock s.ninos s.nextIno (i * SFS_BLKBITS))
  inode : ∀ f ci, s.inode f = some ci → t.image f = cut sizeofInode (inodeBytes ci.inode)
  index : ∀ b ∈ s.blocks 0, t.image b = cut SFS_BLKSIZE (wordsBytes (s.cache b))
  data : ∀ b, Allocated s b → s.inode b = none → b ∉ s.blocks 0 → t.image b = s.image b

theorem close_run (sound : MkSound role s) : ∃ t, closeSfs s = some t ∧ Closed s t := by
  have first := sound.first
  have room := sound.room
  unfold firstIno at first
  obtain ⟨nblks, is⟩ : ∃ nblks, nblks = (s.ninos + SFS_BLKBITS - 1) / SFS_BLKBITS := ⟨_, rfl⟩
  rw [← is] at first
  obtain ⟨u, freemap, written⟩ := write_freemap_run (s := s)
    (fun x => cut SFS_BLKSIZE (freemapBlock s.ninos s.nextIno ((x - SFS_BLKN_FREEMAP) * SFS_BLKBITS))) 0 nblks (by omega)
    (fun i => by rw [Nat.add_sub_cancel_left])
  have same_u := written.same
  obtain ⟨v, super, written'⟩ := write_block_run (s := u) (b := SFS_BLKN_SUPER)
    (fun _ => cut sizeofSuper (superBytes s)) (superBytes u) (show sizeofSuper ≤ SFS_BLKSIZE by decide)
    (by rw [same_u]; unfold SFS_BLKN_SUPER; unfold SFS_BLKN_FREEMAP at first; dsimp only; omega)
    (by rw [same_u]; rfl)
  have same_v : v = { s with image := v.image } := by rw [written'.same, same_u]
  obtain ⟨t, lists, written''⟩ := flush_lists_run 0 HASH_LIST_SIZE sound (by omega) same_v
  have only : ∀ b, (∃ j, 0 ≤ j ∧ j < 0 + HASH_LIST_SIZE ∧ (b ∈ s.blocks j ∨ b ∈ s.inodes j)) →
      b = SFS_BLKN_ROOT ∨ Allocated s b := by
    rintro b ⟨j, _, small, mem | mem⟩
    · exact .inr (sound.cached j b mem).2.1
    · obtain ⟨ci, known⟩ := Option.isSome_iff_exists.mp ((sound.listed b).mpr ⟨j, by omega, mem⟩)
      exact (sound.known b ci known).1
  have apart : ∀ b, Allocated s b → SFS_BLKN_FREEMAP + nblks ≤ b := fun b allocated => by
    rw [is]
    exact allocated.1
  have in_list : ∀ f ci, s.inode f = some ci →
      ∃ j, 0 ≤ j ∧ j < 0 + HASH_LIST_SIZE ∧ (f ∈ s.blocks j ∨ f ∈ s.inodes j) := by
    intro f ci known
    obtain ⟨j, small, mem⟩ := (sound.listed f).mp (by rw [known]; rfl)
    exact ⟨j, Nat.zero_le j, by omega, .inr mem⟩
  refine ⟨t, ?_, ⟨?_, fun i inside => ?_, fun f ci known => ?_, fun b mem => ?_, fun b allocated not_inode not_index => ?_⟩⟩
  · unfold closeSfs
    rw [← is]
    exact Option.bind_eq_some_iff.mpr ⟨u, freemap, Option.bind_eq_some_iff.mpr ⟨v, super, lists⟩⟩
  · rw [written''.outside, written'.inside _ rfl]
    intro listed
    rcases only _ listed with root | allocated
    · cases root
    · exact allocated.nonzero rfl
  · rw [← is] at inside
    rw [written''.outside, written'.outside, written.inside _ ⟨i, Nat.zero_le i, by omega, rfl⟩]
    · rw [Nat.add_sub_cancel_left]
    · unfold SFS_BLKN_FREEMAP SFS_BLKN_SUPER
      omega
    · intro listed
      rcases only _ listed with root | allocated
      · unfold SFS_BLKN_FREEMAP SFS_BLKN_ROOT at root
        omega
      · have := apart _ allocated
        omega
  · rw [written''.inside f (in_list f ci known)]
    unfold flushed
    rw [known]
  · rw [written''.inside b ⟨0, Nat.le_refl 0, by decide, .inl mem⟩]
    unfold flushed
    rw [cached_no_inode sound mem]
  · have two := apart b allocated
    rw [written''.outside, written'.outside, written.outside]
    · rintro ⟨i, _, inside, rfl⟩
      omega
    · exact allocated.nonzero
    · rintro ⟨j, _, small, mem | mem⟩
      · obtain ⟨zero, _⟩ := sound.cached j b mem
        exact not_index (zero ▸ mem)
      · have known := (sound.listed b).mpr ⟨j, by omega, mem⟩
        rw [not_inode] at known
        cases known

end Ucore.Mksfs
