import Ucore.Fs.Sfs.FileRuns

/- What positions of a file hold that nothing has been written to. -/
namespace Ucore
open Programs Words Transitions ByteFile

/-- The volume, and the changes of its files, the last one first. -/
structure Logged where
  sfs : Sfs
  changes : Nat → List (Change UInt8)

/-- The change that a call makes: its answer counts the bytes that were written. -/
def FileCall.change (c : FileCall) (a : Answer) (t : Sfs) : Change UInt8 :=
  match c with
  | .io true k offset _ buf => ⟨offset.toNat, offset.toNat + a.2.1, placed buf offset.toNat, (t.inodes k).din.size⟩
  | c => ⟨0, 0, fun _ => 0, (t.inodes c.file).din.size⟩

def Logged.after (l : Logged) (c : FileCall) (a : Answer) (t : Sfs) : Logged :=
  { sfs := t, changes := Function.update l.changes c.file (c.change a t :: l.changes c.file) }

/-- A completed write, read, seek or truncation. -/
def LoggedStep (F : Set Nat) (l : Logged) (c : FileCall) (l' : Logged) : Prop :=
  c.file ∈ F ∧ (∀ g, c ≠ .reload g) ∧ ∃ a t, c.run l.sfs = .ok (a, t) ∧ l' = l.after c a t

/-- The new length is inside a block that has bytes other than 0 from there to the old size. -/
def CutsInside (s : Sfs) : FileCall → Prop
  | .truncate k len => 0 ≤ len ∧ len ≤ SFS_MAX_FILE_SIZE ∧
      ∃ p < (s.inodes k).din.size, len.toNat ≤ p ∧ p < blocksFor len.toNat * SFS_BLKSIZE ∧ fileData s k p ≠ 0
  | _ => False

/-- The blocks of every file reach its size, and hold zeros behind it. -/
structure Clear (s : Sfs) (F : Set Nat) : Prop where
  covered : ∀ k ∈ F, (s.inodes k).din.size ≤ mappedSize s k
  zero : ∀ k ∈ F, ∀ p, (s.inodes k).din.size ≤ p → fileData s k p = 0

section
variable {s t : Sfs} {F : Set Nat} {k : Nat} {c : FileCall} {a : Answer}

/- What a call leaves of its own file. -/
structure Leftover (s : Sfs) (k : Nat) (change : Change UInt8) (t : Sfs) : Prop where
  size : change.size = (t.inodes k).din.size
  covered : (t.inodes k).din.size ≤ mappedSize t k
  data : ∀ p, fileData t k p = if change.size ≤ p then 0 else splice (fileData s k) change.bytes change.lo change.hi p

theorem leftover_same {change : Change UInt8} (clear : Clear s F) (mem : k ∈ F) (size : change.size = (s.inodes k).din.size)
    (nothing : change.hi ≤ change.lo) : Leftover s k change s := by
  refine ⟨size, clear.covered k mem, fun p => ?_⟩
  rw [size]
  by_cases outside : (s.inodes k).din.size ≤ p
  · rw [if_pos outside, clear.zero k mem p outside]
  · rw [if_neg outside, splice_outside (by omega)]

/- A new size over the same bytes. -/
theorem leftover_resized {n : Nat} {u : Sfs} (data : ∀ p < n, fileData u k p = fileData s k p)
    (zero : ∀ p, n ≤ p → fileData u k p = 0) (covered : n ≤ mappedSize u k) :
    Leftover s k ⟨0, 0, fun _ => 0, ((u.resize k n).inodes k).din.size⟩ (u.resize k n) := by
  refine ⟨rfl, ?_, fun p => ?_⟩
  · rw [resize_size]
    unfold mappedSize at covered ⊢
    rwa [resize_map]
  · dsimp only
    rw [resize_size, resize_data]
    by_cases outside : n ≤ p
    · rw [if_pos outside, zero p outside]
    · rw [if_neg outside, splice_outside (by omega), data p (by omega)]

theorem truncate_leftover (maps : BlockMaps s F) (clear : Clear s F) (mem : k ∈ F) {len : Int} {ret : Int}
    (within : ¬ CutsInside s (.truncate k len)) (run : sfsTruncfile k len s = .ok (ret, t)) :
    Leftover s k ⟨0, 0, fun _ => 0, (t.inodes k).din.size⟩ t := by
  have outcome := truncfile_outcome maps mem len
  have reach := clear.covered k mem
  rw [run] at outcome
  cases outcome with
  | invalid | asItWas => exact leftover_same clear mem rfl (Nat.le_refl 0)
  | enlarged u good new more room few extended =>
    have far := blocks_for_le.not.mp (not_le.mpr more)
    refine leftover_resized (fun p _ => by rw [extended.data]) (fun p outside => ?_) ?_
    · rw [extended.data]
      exact file_data_outside ((not_le.mp far).le.trans outside)
    · unfold mappedSize
      rw [extended.blocks]
      exact blocks_for_le.mp (le_max_right _ _)
  | full u good new more noRoom few extended =>
    refine ⟨rfl, ?_, fun p => ?_⟩
    · rw [extended.size]
      refine reach.trans ?_
      unfold mappedSize
      rw [extended.blocks]
      exact Nat.mul_le_mul_right _ (le_max_left _ _)
    · dsimp only
      rw [extended.size, extended.data]
      have same : Leftover s k ⟨0, 0, fun _ => 0, (s.inodes k).din.size⟩ s := leftover_same clear mem rfl (Nat.le_refl 0)
      exact same.data p
  | reduced u good new fewer shrunk =>
    refine leftover_resized (fun p inside => ?_) (fun p outside => ?_) ?_
    · have below : p < blocksFor len.toNat * SFS_BLKSIZE := inside.trans_le (blocks_for_le.mp le_rfl)
      rw [shrunk.data, if_pos below]
    · rw [shrunk.data]
      by_cases below : p < blocksFor len.toNat * SFS_BLKSIZE
      · rw [if_pos below]
        -- Behind the old size there are zeros; below it the block is not cut.
        by_cases old : p < (s.inodes k).din.size
        · by_contra nonzero
          exact within ⟨good.1, good.2, p, old, outside, below, nonzero⟩
        · exact clear.zero k mem p (not_lt.mp old)
      · rw [if_neg below]
    · unfold mappedSize
      rw [shrunk.blocks]
      exact blocks_for_le.mp le_rfl

theorem write_change {offset : Int} {len : Nat} {buf : DiskBlock} : (FileCall.io true k offset len buf).change a t =
    ⟨offset.toNat, offset.toNat + a.2.1, placed buf offset.toNat, (t.inodes k).din.size⟩ := rfl

theorem read_change {offset : Int} {len : Nat} {buf : DiskBlock} : (FileCall.io false k offset len buf).change a t =
    ⟨0, 0, fun _ => 0, (t.inodes k).din.size⟩ := rfl

theorem io_written_count {write : Bool} {buf : DiskBlock} {lo endpos : Nat} :
    (ioResult s k write buf lo endpos 0).2.1 = served s k lo endpos := Nat.zero_add _

theorem io_read_end_below (size offset len : Nat) : ioEnd size false offset len ≤ size := by
  unfold ioEnd
  simp only [Bool.false_eq_true, ↓reduceIte]
  exact Nat.min_le_right _ _

theorem io_leftover (maps : BlockMaps s F) (clear : Clear s F) (mem : k ∈ F) (regular : (s.inodes k).din.type = .file) {write : Bool}
    {offset : Int} {len : Nat} {buf : DiskBlock} (alone : ¬ Stranded s (.io write k offset len buf))
    (run : sfsIoNolock k buf offset len write s = .ok (a, t)) :
    Leftover s k ((FileCall.io write k offset len buf).change a t) t := by
  have no_dir : (s.inodes k).din.type ≠ .dir := by
    rw [regular]
    decide
  have outcome := io_outcome maps mem no_dir buf offset len write
  rw [run] at outcome
  have reach := clear.covered k mem
  cases outcome with
  | invalid | nothing => cases write <;> exact leftover_same clear mem rfl (Nat.le_refl _)
  | stuck u good some start within far idle =>
    exact absurd ⟨good.1, good.2.1, some, start, far, within⟩ alone
  | moved u good some start within near written =>
    have same : fileData (sized s u k (offset.toNat + served s k offset.toNat
        (ioEnd (s.inodes k).din.size write offset.toNat len))) k = fileData u k := by
      unfold sized
      split_ifs
      · exact resize_data
      · rfl
    have blocks : (s.inodes k).din.blocks ≤ (u.inodes k).din.blocks := by
      rw [written.blocks]
      exact le_max_left _ _
    have hi_mapped : offset.toNat + served s k offset.toNat (ioEnd (s.inodes k).din.size write offset.toNat len) ≤ mappedSize u k := by
      unfold mappedSize
      rw [written.blocks]
      exact blocks_for_le.mp (le_max_right _ _)
    have old_mapped : (s.inodes k).din.size ≤ mappedSize u k :=
      reach.trans (Nat.mul_le_mul_right _ blocks)
    generalize hi_is : offset.toNat + served s k offset.toNat (ioEnd (s.inodes k).din.size write offset.toNat len) = hi at *
    have size : ((sized s u k hi).inodes k).din.size = max (s.inodes k).din.size hi := by
      unfold sized
      split_ifs with grows
      · rw [resize_size]
        omega
      · rw [written.size]
        omega
    have covered : ((sized s u k hi).inodes k).din.size ≤ mappedSize (sized s u k hi) k := by
      have mapped : mappedSize (sized s u k hi) k = mappedSize u k := by
        unfold sized
        split_ifs
        · unfold mappedSize
          rw [resize_map]
        · rfl
      rw [size, mapped]
      exact max_le old_mapped hi_mapped
    cases write with
    | true =>
      rw [write_change, io_written_count, hi_is]
      refine ⟨rfl, covered, fun p => ?_⟩
      dsimp only
      rw [same, written.data, size, if_pos rfl]
      by_cases outside : max (s.inodes k).din.size hi ≤ p
      · rw [if_pos outside, splice_outside (by omega), clear.zero k mem p (by omega)]
      · rw [if_neg outside]
    | false =>
      -- What is read is written nowhere, and ends below the size.
      have below : hi ≤ (s.inodes k).din.size := hi_is ▸ (served_le some.le).trans (io_read_end_below _ _ _)
      have unchanged : splice (fileData s k) (if false = true then placed buf offset.toNat else fileData s k) offset.toNat hi =
          fileData s k := by
        funext p
        exact ite_self _
      rw [read_change]
      refine ⟨rfl, covered, fun p => ?_⟩
      dsimp only
      rw [same, written.data, size, max_eq_left below, splice_nothing, unchanged]
      by_cases outside : (s.inodes k).din.size ≤ p
      · rw [if_pos outside, clear.zero k mem p outside]
      · rw [if_neg outside]

/- A call other than `reload`. -/
theorem call_leftover (files : Files s F) (clear : Clear s F) (mem : c.file ∈ F) (stays : ∀ g, c ≠ .reload g) (alone : ¬ Stranded s c)
    (within : ¬ CutsInside s c) (run : c.run s = .ok (a, t)) : Leftover s c.file (c.change a t) t := by
  cases c with
  | io write k offset len buf => exact io_leftover files.maps clear mem (files.regular k mem) alone run
  | truncate k len =>
    obtain ⟨ret, run⟩ := answer_ok run
    exact truncate_leftover files.maps clear mem within run
  | tryseek k pos =>
    obtain ⟨ret, run⟩ := answer_ok run
    unfold sfsTryseek at run
    by_cases bad : pos < 0 ∨ pos ≥ SFS_MAX_FILE_SIZE
    · rw [if_pos bad] at run
      cases run
      exact leftover_same clear mem rfl (Nat.le_refl 0)
    · rw [if_neg bad, run_bind inode_run] at run
      by_cases past : pos > (s.inodes k).din.size
      · rw [if_pos past] at run
        refine truncate_leftover (k := k) files.maps clear mem ?_ run
        rintro ⟨-, -, p, old, outside, -⟩
        omega
      · rw [if_neg past] at run
        cases run
        exact leftover_same clear mem rfl (Nat.le_refl 0)
  | reload k => exact absurd rfl (stays k)

/- The data of another file is in blocks that the call leaves. -/
theorem touched_data {g : Nat} (maps : BlockMaps s F) (mem : k ∈ F) (touched : Touched F s k t) (mg : g ∈ F) (ne : g ≠ k) :
    fileData t g = fileData s g := by
  have map := maps.map g mg
  have bounded := map.bounded
  funext p
  unfold fileData mappedSize fileByte
  rw [touched.others g ne]
  by_cases inside : p < (s.inodes g).din.blocks * SFS_BLKSIZE
  · have low : p / SFS_BLKSIZE < (s.inodes g).din.blocks := Nat.div_lt_of_lt_mul (by rwa [Nat.mul_comm])
    have valid : (Slot.data (p / SFS_BLKSIZE)).Valid := low.trans_le bounded
    have inuse := map.below _ low
    have apart : Unpointed s {k} (pointer s g (.data (p / SFS_BLKSIZE))) := by
      rintro f rfl c vc same
      have some : pointer s f c ≠ 0 := by
        rw [same]
        exact inuse.1
      exact ne (maps.unshared f mem g mg c _ vc valid some same).1.symm
    rw [if_pos inside, if_pos inside, touched_pointer maps mem touched mg ne valid, (touched.apart _ inuse apart).2.2]
  · rw [if_neg inside, if_neg inside]

end

/-- What the files hold is what has been written to them. -/
structure Faithful (F : Set Nat) (start : Nat → Nat → UInt8) (l : Logged) : Prop where
  files : Files l.sfs F
  clear : Clear l.sfs F
  data : ∀ k ∈ F, fileData l.sfs k = lastWritten (start k) (l.changes k)

theorem faithful_step {F : Set Nat} {start : Nat → Nat → UInt8} {l l' : Logged} {c : FileCall} (faithful : Faithful F start l)
    (step : LoggedStep F l c l') (alone : ¬ Stranded l.sfs c) (within : ¬ CutsInside l.sfs c) : Faithful F start l' := by
  obtain ⟨mem, stays, a, t, run, rfl⟩ := step
  obtain ⟨files, clear, data⟩ := faithful
  obtain ⟨completed, same⟩ := call_completed files mem stays run
  have touched := completed.touched
  have left := call_leftover files clear mem stays alone within run
  have mine : fileData t c.file = lastWritten (start c.file) (c.change a t :: l.changes c.file) := by
    funext p
    rw [left.data, last_written_cons, data _ mem]
  have zero : ∀ p, (t.inodes c.file).din.size ≤ p → fileData t c.file p = 0 := by
    intro p outside
    rw [left.data, if_pos (left.size.trans_le outside)]
  refine ⟨files_touched files mem touched same, ⟨fun g mg => ?_, fun g mg => ?_⟩, fun g mg => ?_⟩
  · by_cases here : g = c.file
    · subst here
      exact left.covered
    · unfold Logged.after mappedSize
      dsimp only
      rw [touched.others g here]
      exact clear.covered g mg
  · by_cases here : g = c.file
    · subst here
      exact zero
    · unfold Logged.after
      dsimp only
      rw [touched.others g here, touched_data files.maps mem touched mg here]
      exact clear.zero g mg
  · unfold Logged.after
    dsimp only
    by_cases here : g = c.file
    · subst here
      rw [Function.update_self]
      exact mine
    · rw [Function.update_of_ne here, touched_data files.maps mem touched mg here]
      exact data g mg

/-- Every read of the file delivers these bytes, as far as the size reaches. -/
def ReadsAs (s : Sfs) (k : Nat) (content : Nat → UInt8) : Prop :=
  ∀ (offset len : Nat) (buf : DiskBlock), offset < SFS_MAX_FILE_SIZE → offset + len < 9223372036854775808 →
    ∃ out, sfsIoNolock k buf offset len false s = .ok ((0, min (offset + len) (s.inodes k).din.size - offset, out), s) ∧
      ∀ j, offset + j < min (offset + len) (s.inodes k).din.size → out j = content (offset + j)

/-- As long as no truncation cuts a block before bytes other than 0, nor a write starts behind the last block of a full
volume, every file reads as what was last written, and 0 where nothing was. -/
theorem reads_last_written {s : Sfs} {F : Set Nat} (files : Files s F) (clear : Clear s F) {calls : List FileCall} {l : Logged}
    (run : Run (fun l c l' => LoggedStep F l c l' ∧ ¬ Stranded l.sfs c ∧ ¬ CutsInside l.sfs c) ⟨s, fun _ => []⟩ calls l) :
    ∀ k ∈ F, ReadsAs l.sfs k (lastWritten (fileData s k) (l.changes k)) := by
  have keep : ∀ l c l', Faithful F (fileData s) l → LoggedStep F l c l' ∧ ¬ Stranded l.sfs c ∧ ¬ CutsInside l.sfs c →
      Faithful F (fileData s) l' := by
    rintro l c l' faithful ⟨step, alone, within⟩
    exact faithful_step faithful step alone within
  have faithful : Faithful F (fileData s) l := run_invariant keep run ⟨files, clear, fun _ _ => rfl⟩
  intro k mem offset len buf begins ends
  have read := io_read_covered_run buf faithful.files.maps mem (faithful.files.regular k mem) (faithful.clear.covered k mem)
    begins ends
  rw [← faithful.data k mem]
  refine ⟨(sfsFile l.sfs k).read buf offset len, read, fun j inside => ?_⟩
  exact read_inside inside

instance (s : Sfs) : (c : FileCall) → Decidable (CutsInside s c)
  | .io .. => inferInstanceAs (Decidable False)
  | .truncate .. => inferInstanceAs (Decidable (_ ∧ _ ∧ ∃ p < _, _))
  | .tryseek .. => inferInstanceAs (Decidable False)
  | .reload _ => inferInstanceAs (Decidable False)

/- The calls on the fresh files, with their changes, as long as they complete and meet a condition. -/
def logWhen (good : Sfs → FileCall → Prop) [∀ s c, Decidable (good s c)] (l : Logged) (c : FileCall) : Option Logged :=
  match c with
  | .reload _ => none
  | c =>
      if c.file ∈ freshFiles ∧ good l.sfs c then
        match c.run l.sfs with
        | .ok (a, t) => some (l.after c a t)
        | .error _ => none
      else none

theorem log_when_step {good : Sfs → FileCall → Prop} [∀ s c, Decidable (good s c)] {l l' : Logged} {c : FileCall}
    (done : logWhen good l c = some l') : LoggedStep freshFiles l c l' ∧ good l.sfs c := by
  unfold logWhen at done
  split at done
  · cases done
  · rename_i stays
    split_ifs at done with both
    split at done
    · rename_i a t run
      cases done
      exact ⟨⟨both.1, stays, a, t, run, rfl⟩, both.2⟩
    · cases done

theorem fresh_clear : Clear (freshVolume 4) freshFiles := by
  refine ⟨fun k _ => Nat.zero_le _, fun k _ p _ => file_data_outside ?_⟩
  have none : mappedSize (freshVolume 4) k = 0 := by
    unfold mappedSize freshVolume
    exact Nat.zero_mul _
  rw [none]
  exact Nat.zero_le p

/- Three bytes are written, the file is emptied, and it grows again. -/
theorem emptied_file_reads_zero : ∃ l,
    Run (fun l c l' => LoggedStep freshFiles l c l' ∧ ¬ Stranded l.sfs c ∧ ¬ CutsInside l.sfs c) ⟨freshVolume 4, fun _ => []⟩
      [.io true 1 0 3 fun _ => 7, .truncate 1 0, .truncate 1 3] l ∧
    ReadsAs l.sfs 1 (lastWritten (fileData (freshVolume 4) 1) (l.changes 1)) := by
  have done : (replay (logWhen fun s c => ¬ Stranded s c ∧ ¬ CutsInside s c) ⟨freshVolume 4, fun _ => []⟩
      [.io true 1 0 3 fun _ => 7, .truncate 1 0, .truncate 1 3]).isSome := by
    decide +kernel
  obtain ⟨l, ran⟩ := Option.isSome_iff_exists.mp done
  have run := run_mono (fun l c l' => log_when_step) (replay_run ran)
  have files := fresh_files four_free.1 four_free.2.1 four_free.2.2
  exact ⟨l, run, reads_last_written files fresh_clear run 1 (Or.inl rfl)⟩

/- Two bytes are written, the file is cut to one and grows again: the second byte is back. -/
theorem cut_byte_comes_back : ¬ ∀ l,
    Run (LoggedStep freshFiles) ⟨freshVolume 4, fun _ => []⟩ [.io true 1 0 2 fun _ => 7, .truncate 1 1, .truncate 1 2] l →
      ReadsAs l.sfs 1 (lastWritten (fileData (freshVolume 4) 1) (l.changes 1)) := by
  intro reads
  let back (l : Logged) : Bool := endsWith (fun a _ => decide (a.2.2 0 = 7 ∧ (l.sfs.inodes 1).din.size = 2 ∧
    lastWritten (fileData (freshVolume 4) 1) (l.changes 1) 1 = 0)) (sfsIoNolock 1 (fun _ => 0) (1 : Nat) 1 false l.sfs)
  have done : (replay (logWhen fun _ _ => True) ⟨freshVolume 4, fun _ => []⟩
      [.io true 1 0 2 fun _ => 7, .truncate 1 1, .truncate 1 2]).any back := by
    decide +kernel
  obtain ⟨l, ran, seen⟩ := (Option.any_eq_true _ _).mp done
  obtain ⟨a, u, read, shown⟩ := ends_with seen
  obtain ⟨seven, size, zero⟩ := of_decide_eq_true shown
  have run := run_mono (fun l c l' done => (log_when_step done).1) (replay_run ran)
  obtain ⟨out, read', bytes⟩ := reads l run 1 1 (fun _ => 0) (by decide) (by decide)
  rw [read'] at read
  cases read
  have byte := bytes 0 (by rw [size]; decide)
  dsimp only at seven
  rw [seven, zero] at byte
  cases byte

end Ucore
