import Ucore.Fs.Sfs.FileRuns

/- Which calls on a regular file stop the kernel, and where. -/
namespace Ucore
open Programs Words Transitions

/-- The call reaches behind the last block that an inode can point to. -/
def PastMap (s : Sfs) : FileCall → Prop
  | .io write k offset len _ =>
      (0 ≤ offset ∧ offset < SFS_MAX_FILE_SIZE ∧ offset ≤ i64 (offset + len)) ∧
        offset.toNat < ioEnd (s.inodes k).din.size write offset.toNat len ∧
        offset.toNat / SFS_BLKSIZE ≤ (s.inodes k).din.blocks ∧
        PastEnd s k (ioEnd (s.inodes k).din.size write offset.toNat len)
  | .truncate k len =>
      (0 ≤ len ∧ len ≤ SFS_MAX_FILE_SIZE) ∧ (s.inodes k).din.size ≠ len.toNat ∧
        (s.inodes k).din.blocks < blocksFor len.toNat ∧ PastEnd s k len.toNat
  | .tryseek k pos =>
      pos < SFS_MAX_FILE_SIZE ∧ (s.inodes k).din.size < pos ∧
        (s.inodes k).din.blocks < blocksFor pos.toNat ∧ PastEnd s k pos.toNat
  | .reload _ => False

/-- The call starts behind the block that follows the mapped ones. -/
def StartsBeyond (s : Sfs) : FileCall → Prop
  | .io write k offset len _ =>
      (0 ≤ offset ∧ offset < SFS_MAX_FILE_SIZE ∧ offset ≤ i64 (offset + len)) ∧
        offset.toNat < ioEnd (s.inodes k).din.size write offset.toNat len ∧
        (s.inodes k).din.blocks < offset.toNat / SFS_BLKSIZE
  | _ => False

/-- The call asks for the size that the file has, and the file has other blocks. -/
def Mismatched (s : Sfs) : FileCall → Prop
  | .truncate k len =>
      (0 ≤ len ∧ len ≤ SFS_MAX_FILE_SIZE) ∧ (s.inodes k).din.size = len.toNat ∧
        blocksFor len.toNat ≠ (s.inodes k).din.blocks
  | _ => False

section
variable {s t : Sfs} {F : Set Nat} {k : Nat}

/- How a call on a file ends. -/
structure Ending {α : Type} (past wrong : Prop) (r : Except SfsStop (α × Sfs)) : Prop where
  index : r = .error .indexOutOfRange ↔ past
  assertion : r = .error .assertion ↔ wrong
  completes : (∃ a t, r = .ok (a, t)) ↔ ¬ past ∧ ¬ wrong

theorem ending_ok {α : Type} {past wrong : Prop} {a : α} (within : ¬ past) (right : ¬ wrong) :
    Ending past wrong (.ok (a, t) : Except SfsStop (α × Sfs)) :=
  ⟨⟨nofun, fun p => absurd p within⟩, ⟨nofun, fun w => absurd w right⟩,
    ⟨fun _ => ⟨within, right⟩, fun _ => ⟨a, t, rfl⟩⟩⟩

theorem ending_index {α : Type} {past wrong : Prop} (p : past) (right : ¬ wrong) :
    Ending past wrong (.error .indexOutOfRange : Except SfsStop (α × Sfs)) :=
  ⟨⟨fun _ => p, fun _ => rfl⟩, ⟨nofun, fun w => absurd w right⟩, ⟨nofun, fun both => absurd p both.1⟩⟩

theorem ending_assertion {α : Type} {past wrong : Prop} (within : ¬ past) (w : wrong) :
    Ending past wrong (.error .assertion : Except SfsStop (α × Sfs)) :=
  ⟨⟨nofun, fun p => absurd p within⟩, ⟨fun _ => w, fun _ => rfl⟩, ⟨nofun, fun both => absurd w both.2⟩⟩

theorem io_ending {write : Bool} {offset : Int} {len : Nat} {buf : DiskBlock}
    {r : Except SfsStop (Answer × Sfs)} (outcome : IoOutcome F s k buf offset len write r) :
    Ending (PastMap s (.io write k offset len buf)) (StartsBeyond s (.io write k offset len buf)) r := by
  unfold PastMap StartsBeyond
  cases outcome with
  | invalid bad => exact ending_ok (by omega) (by omega)
  | nothing good empty => exact ending_ok (by omega) (by omega)
  | moved u good some start within near written =>
    exact ending_ok (fun past => within past.2.2.2) (by omega)
  | stuck u good some start within far idle =>
    exact ending_ok (fun past => within past.2.2.2) (by omega)
  | beyond good some far => exact ending_assertion (by omega) ⟨good, some, far⟩
  | pastEnd good some start past => exact ending_index ⟨good, some, start, past⟩ (by omega)

theorem past_end_blocks {n : Nat} (past : PastEnd s k n) : maxBlocks < blocksFor n := by
  by_contra short
  have := blocks_for_le.mp (not_lt.mp short)
  have := past.1
  omega

theorem trunc_ending {len : Int} {r : Except SfsStop (Int × Sfs)}
    (outcome : TruncOutcome F s k len r) :
    Ending (PastMap s (.truncate k len)) (Mismatched s (.truncate k len)) r := by
  have long : PastEnd s k len.toNat → maxBlocks < blocksFor len.toNat ∧ maxBlocks ≤ limit s k :=
    fun past => ⟨past_end_blocks past, past.2⟩
  unfold PastMap Mismatched
  cases outcome with
  | invalid bad => exact ending_ok (by omega) (by omega)
  | asItWas good same fitted => exact ending_ok (by omega) (by omega)
  | mismatch good same ahead => exact ending_assertion (by omega) ⟨good, same, ahead⟩
  | enlarged u good new more room few extended =>
    refine ending_ok ?_ (by omega)
    rintro ⟨_, _, _, past⟩
    have := long past
    omega
  | full u good new more noRoom few extended =>
    refine ending_ok ?_ (by omega)
    rintro ⟨_, _, _, past⟩
    have := long past
    omega
  | pastEnd good new more past => exact ending_index ⟨good, new, more, past⟩ (by omega)
  | reduced u good new fewer shrunk => exact ending_ok (by omega) (by omega)

theorem answer_ending {past wrong : Prop} {m : SfsM Int} (ending : Ending past wrong (m s)) :
    Ending past wrong (answerOf m s) := by
  unfold answerOf
  cases run : m s with
  | error e =>
    rw [run] at ending
    rw [run_bind_stop run]
    exact ⟨by rw [← ending.index]; simp, by rw [← ending.assertion]; simp,
      by rw [← ending.completes]; simp⟩
  | ok r =>
    rw [run] at ending
    rw [run_bind run]
    have within := ending.completes.mp ⟨r.1, r.2, rfl⟩
    exact ending_ok within.1 within.2

/-- Which calls end. -/
theorem call_ending {c : FileCall} (files : Files s F) (mem : c.file ∈ F) (stays : ∀ g, c ≠ .reload g) :
    Ending (PastMap s c) (StartsBeyond s c ∨ Mismatched s c) (c.run s) := by
  have maps := files.maps
  cases c with
  | io write g offset len buf =>
    have mem : g ∈ F := mem
    have file : (s.inodes g).din.type ≠ .dir := by
      rw [files.regular g mem]
      decide
    have ending := io_ending (io_outcome maps mem file buf offset len write)
    simpa only [FileCall.run, Mismatched, or_false] using ending
  | truncate g len =>
    have mem : g ∈ F := mem
    have ending := answer_ending (trunc_ending (truncfile_outcome maps mem len))
    simpa only [FileCall.run, StartsBeyond, false_or] using ending
  | tryseek g pos =>
    have mem : g ∈ F := mem
    have ending : Ending (PastMap s (.tryseek g pos)) (StartsBeyond s (.tryseek g pos) ∨
        Mismatched s (.tryseek g pos)) (sfsTryseek g pos s) := by
      have right : ¬ (StartsBeyond s (.tryseek g pos) ∨ Mismatched s (.tryseek g pos)) := by
        rintro (w | w)
        · exact w
        · exact w
      unfold sfsTryseek
      by_cases bad : pos < 0 ∨ pos ≥ SFS_MAX_FILE_SIZE
      · rw [if_pos bad]
        refine ending_ok ?_ right
        unfold PastMap
        omega
      · rw [if_neg bad, run_bind inode_run]
        by_cases past : pos > (s.inodes g).din.size
        · rw [if_pos past]
          have inner := trunc_ending (truncfile_outcome maps mem pos)
          have same : PastMap s (.truncate g pos) ↔ PastMap s (.tryseek g pos) := by
            unfold PastMap
            constructor
            · rintro ⟨_, _, more, far⟩
              exact ⟨by omega, past, more, far⟩
            · rintro ⟨_, _, more, far⟩
              exact ⟨by omega, by omega, more, far⟩
          have fits : ¬ Mismatched s (.truncate g pos) := by
            unfold Mismatched
            omega
          refine ⟨inner.index.trans same, ?_, ?_⟩
          · rw [inner.assertion]
            exact ⟨fun w => absurd w fits, fun w => absurd w right⟩
          · rw [inner.completes, same]
            exact ⟨fun both => ⟨both.1, right⟩, fun both => ⟨both.1, fits⟩⟩
        · rw [if_neg past]
          refine ending_ok ?_ right
          unfold PastMap
          omega
    exact answer_ending ending
  | reload g => exact absurd rfl (stays g)

/- A completed call other than `reload` leaves the files as they should be. -/
theorem call_files {c : FileCall} (files : Files s F) (mem : c.file ∈ F) (stays : ∀ g, c ≠ .reload g)
    {a : Answer} (ok : c.run s = .ok (a, t)) : Files t F := by
  obtain ⟨completed, same⟩ := call_completed files mem stays ok
  exact files_touched files mem completed.touched same

end

end Ucore
