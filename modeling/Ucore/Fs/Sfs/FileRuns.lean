import Ucore.Fs.Sfs.FileCalls

/- Runs of calls on regular files: when the blocks of a file stay those that its size asks
   for, and when an inode in memory that is not dirty is the one on disk. -/
namespace Ucore
open Programs Words Transitions

/- A length that the free blocks are enough to begin with, and not to reach. -/
def Starved (s : Sfs) (k : Nat) (len : Int) : Prop :=
  0 ≤ len ∧ len ≤ SFS_MAX_FILE_SIZE ∧ (s.inodes k).din.size ≠ len.toNat ∧
    (s.inodes k).din.blocks < limit s k ∧ limit s k < blocksFor len.toNat ∧ limit s k < maxBlocks

/-- The call asks for more than `sfs_truncfile` can map, after some blocks. -/
def HalfGrown (s : Sfs) : FileCall → Prop
  | .truncate k len => Starved s k len
  | .tryseek k pos => pos < SFS_MAX_FILE_SIZE ∧ pos > (s.inodes k).din.size ∧ Starved s k pos
  | _ => False

/-- The call starts inside the block behind the last one, for which there is no room. -/
def Stranded (s : Sfs) : FileCall → Prop
  | .io write k offset len _ =>
      0 ≤ offset ∧ offset < SFS_MAX_FILE_SIZE ∧
        offset.toNat < ioEnd (s.inodes k).din.size write offset.toNat len ∧
        offset.toNat / SFS_BLKSIZE ≤ (s.inodes k).din.blocks ∧
        limit s k * SFS_BLKSIZE < offset.toNat ∧
        ¬ PastEnd s k (ioEnd (s.inodes k).din.size write offset.toNat len)
  | _ => False

/- New blocks of the file go to its entry block alone. -/
def Indirect (s : Sfs) (k : Nat) : Prop :=
  (s.inodes k).dirty = false ∧ SFS_NDIRECT ≤ (s.inodes k).din.blocks ∧
    (s.inodes k).din.indirect ≠ 0

/-- The call reaches behind the mapped blocks but not behind the size. -/
def FillsHole (s : Sfs) : FileCall → Prop
  | .io write k offset len _ =>
      0 ≤ offset ∧ offset < SFS_MAX_FILE_SIZE ∧
        offset.toNat < ioEnd (s.inodes k).din.size write offset.toNat len ∧
        offset.toNat / SFS_BLKSIZE ≤ (s.inodes k).din.blocks ∧
        ¬ PastEnd s k (ioEnd (s.inodes k).din.size write offset.toNat len) ∧
        mappedSize s k < offset.toNat + served s k offset.toNat
          (ioEnd (s.inodes k).din.size write offset.toNat len) ∧
        offset.toNat + served s k offset.toNat
          (ioEnd (s.inodes k).din.size write offset.toNat len) ≤ (s.inodes k).din.size ∧
        offset.toNat ≤ limit s k * SFS_BLKSIZE
  | _ => False

/-- The call leaves a count of blocks that the inode is not marked dirty for. -/
def Unnoticed (s : Sfs) (c : FileCall) : Prop :=
  Indirect s c.file ∧ (HalfGrown s c ∨ FillsHole s c)

section
variable {s t : Sfs} {F : Set Nat} {k : Nat}

/- A count that has changed in a clean inode. -/
theorem grown_indirect (grown : Grown s k t) (tidy : (t.inodes k).dirty = false)
    (more : (t.inodes k).din.blocks ≠ (s.inodes k).din.blocks) : Indirect s k := by
  rcases grown.quiet with dirty | ⟨same, kept | many⟩
  · rw [dirty] at tidy
    cases tidy
  · exact absurd kept more
  · rw [same] at tidy
    exact ⟨tidy, many⟩

/-- What a completed call leaves; `blocks` and `size` are those of its file. -/
structure Completed (F : Set Nat) (s : Sfs) (c : FileCall) (t : Sfs) : Prop where
  touched : Touched F s c.file t
  noted : ¬ Unnoticed s c → (t.inodes c.file).dirty = false →
    (t.inodes c.file).din.blocks = (s.inodes c.file).din.blocks
  fitted : ¬ HalfGrown s c → ¬ Stranded s c →
    (s.inodes c.file).din.blocks = blocksFor (s.inodes c.file).din.size →
    (t.inodes c.file).din.blocks = blocksFor (t.inodes c.file).din.size

theorem completed_refl (maps : BlockMaps s F) (c : FileCall) : Completed F s c s :=
  ⟨touched_refl maps, fun _ _ => rfl, fun _ _ fitted => fitted⟩

theorem resize_dirty {size : Nat} : ((s.resize k size).inodes k).dirty = true := by
  simp [Sfs.resize, Sfs.setDin]

theorem resize_blocks {size g : Nat} :
    ((s.resize k size).inodes g).din.blocks = (s.inodes g).din.blocks := by
  rw [resize_map]

theorem trunc_completed {c : FileCall} (mine : c.file = k) {len : Int}
    {r : Except SfsStop (Int × Sfs)} (outcome : TruncOutcome F s k len r) (maps : BlockMaps s F)
    (half : Starved s k len → HalfGrown s c) {ret : Int} (ok : r = .ok (ret, t)) :
    Completed F s c t := by
  subst mine
  have small : 0 ≤ len ∧ len ≤ SFS_MAX_FILE_SIZE → len.toNat ≤ SFS_MAX_FILE_SIZE := by omega
  cases outcome with
  | invalid bad =>
    cases ok
    exact completed_refl maps c
  | asItWas good same fitted =>
    cases ok
    exact completed_refl maps c
  | mismatch good same ahead => cases ok
  | pastEnd good new more past => cases ok
  | enlarged u good new more room few extended =>
    cases ok
    refine ⟨resize_touched (grown_touched extended.maps extended.others extended.size
      extended.grown) (small good), ?_, ?_⟩
    · intro _ tidy
      rw [resize_dirty] at tidy
      cases tidy
    · intro _ _ _
      rw [resize_blocks, resize_size, extended.blocks]
      omega
  | full u good new more noRoom few extended =>
    cases ok
    have touched := grown_touched extended.maps extended.others extended.size extended.grown
    have within := extended.grown.more
    have blocks := extended.blocks
    by_cases some : (s.inodes c.file).din.blocks < limit s c.file
    · have starved := half ⟨good.1, good.2, new, some, noRoom, few⟩
      refine ⟨touched, ?_, fun whole => absurd starved whole⟩
      intro noticed tidy
      by_contra more
      exact noticed ⟨grown_indirect extended.grown tidy more, Or.inl starved⟩
    · have kept : (t.inodes c.file).din.blocks = (s.inodes c.file).din.blocks := by omega
      refine ⟨touched, fun _ _ => kept, ?_⟩
      intro _ _ fitted
      rw [kept, extended.size, fitted]
  | reduced u good new fewer shrunk =>
    cases ok
    refine ⟨resize_touched (shrunk_touched shrunk) (small good), ?_, ?_⟩
    · intro _ tidy
      rw [resize_dirty] at tidy
      cases tidy
    · intro _ _ _
      rw [resize_blocks, resize_size, shrunk.blocks]

theorem sized_touched {pos : Nat} (touched : Touched F s k t) (small : pos ≤ SFS_MAX_FILE_SIZE) :
    Touched F s k (sized s t k pos) := by
  unfold sized
  split_ifs
  · exact resize_touched touched small
  · exact touched

theorem served_le {offset endpos : Nat} (some : offset ≤ endpos) :
    offset + served s k offset endpos ≤ endpos := by
  unfold served
  omega

theorem io_completed {write : Bool} {offset : Int} {len : Nat} {buf : DiskBlock}
    {r : Except SfsStop (Answer × Sfs)} (outcome : IoOutcome F s k buf offset len write r)
    (maps : BlockMaps s F) (mem : k ∈ F) {a : Answer} (ok : r = .ok (a, t)) :
    Completed F s (.io write k offset len buf) t := by
  have small : ioEnd (s.inodes k).din.size write offset.toNat len ≤ SFS_MAX_FILE_SIZE := by
    unfold ioEnd
    dsimp only
    split_ifs <;> omega
  cases outcome with
  | invalid bad =>
    cases ok
    exact completed_refl maps _
  | nothing good empty =>
    cases ok
    exact completed_refl maps _
  | beyond good some far => cases ok
  | pastEnd good some start past => cases ok
  | moved u good some start within near written =>
    cases ok
    have reach := served_le (s := s) (k := k) some.le
    have touched := sized_touched
      (grown_touched written.maps written.others written.size written.grown) (reach.trans small)
    have blocks := written.blocks
    refine ⟨touched, ?_, ?_⟩
    · intro noticed tidy
      simp only [FileCall.file] at *
      unfold sized at tidy ⊢
      split_ifs at tidy ⊢ with grows
      · rw [resize_dirty] at tidy
        cases tidy
      · by_contra more
        refine noticed ⟨grown_indirect written.grown tidy more, Or.inr
          ⟨good.1, good.2.1, some, start, within, ?_, by omega, near⟩⟩
        by_contra inside
        have := blocks_for_le.mpr (not_lt.mp inside)
        omega
    · intro _ _ fitted
      simp only [FileCall.file] at *
      have mono := @blocks_for_mono
      unfold sized
      split_ifs with grows
      · rw [resize_blocks, resize_size, blocks, fitted]
        have := mono (le_of_lt grows)
        omega
      · rw [blocks, written.size, fitted]
        have := mono (not_lt.mp grows)
        omega
  | stuck u good some start within far idle =>
    cases ok
    have grown := idle_grown maps mem idle
    have kept : (u.inodes k).din = (s.inodes k).din := by rw [idle.inodes]
    have touched : Touched F s k (sized s u k offset.toNat) :=
      sized_touched (grown_touched (idle_maps maps idle) (fun g _ => by rw [idle.inodes])
        (by rw [kept]) grown) (by omega)
    refine ⟨touched, ?_, ?_⟩
    · intro _ tidy
      simp only [FileCall.file] at *
      unfold sized at tidy ⊢
      split_ifs at tidy ⊢ with grows
      · rw [resize_dirty] at tidy
        cases tidy
      · rw [kept]
    · intro _ alone
      exact absurd ⟨good.1, good.2.1, some, start, far, within⟩ alone

theorem answer_ok {m : SfsM Int} {a : Answer} (ok : answerOf m s = .ok (a, t)) :
    ∃ ret, m s = .ok (ret, t) := by
  unfold answerOf at ok
  cases run : m s with
  | error e =>
    rw [run_bind_stop run] at ok
    cases ok
  | ok r =>
    rw [run_bind run] at ok
    cases ok
    exact ⟨r.1, rfl⟩

theorem keeps_tryseek {R : Sfs → Sfs → Prop} [SfsRelation R] {pos : Int} : Keeps R (sfsTryseek k pos) := by
  unfold sfsTryseek
  split_ifs
  · exact keeps_pure
  · apply keeps_bind keeps_inode
    intro sin
    split_ifs
    · exact keeps_truncfile
    · exact keeps_pure

/- A call other than `reload`. -/
theorem call_completed {c : FileCall} (files : Files s F) (mem : c.file ∈ F)
    (stays : ∀ g, c ≠ .reload g) {a : Answer} (ok : c.run s = .ok (a, t)) :
    Completed F s c t ∧ SameKinds s t := by
  have maps := files.maps
  cases c with
  | io write g offset len buf =>
    have file : (s.inodes g).din.type ≠ .dir := by
      rw [files.regular g mem]
      decide
    exact ⟨io_completed (io_outcome maps mem file buf offset len write) maps mem ok,
      same_kinds_of_run keeps_io ok⟩
  | truncate g len =>
    obtain ⟨ret, run⟩ := answer_ok ok
    exact ⟨trunc_completed rfl (truncfile_outcome maps mem len) maps id run,
      same_kinds_of_run keeps_truncfile run⟩
  | tryseek g pos =>
    obtain ⟨ret, run⟩ := answer_ok ok
    refine ⟨?_, same_kinds_of_run keeps_tryseek run⟩
    unfold sfsTryseek at run
    by_cases bad : pos < 0 ∨ pos ≥ SFS_MAX_FILE_SIZE
    · rw [if_pos bad] at run
      cases run
      exact completed_refl maps _
    · rw [if_neg bad, run_bind inode_run] at run
      by_cases past : pos > (s.inodes g).din.size
      · rw [if_pos past] at run
        exact trunc_completed rfl (truncfile_outcome maps mem pos) maps
          (fun starved => ⟨by omega, past, starved⟩) run
      · rw [if_neg past] at run
        cases run
        exact completed_refl maps _
  | reload g => exact absurd rfl (stays g)

def Fitted (s : Sfs) (F : Set Nat) : Prop :=
  ∀ k ∈ F, (s.inodes k).din.blocks = blocksFor (s.inodes k).din.size

theorem call_keeps {c : FileCall} (files : Files s F) (clean : Clean s F) (mem : c.file ∈ F)
    {a : Answer} (ok : c.run s = .ok (a, t)) :
    Files t F ∧ (¬ Unnoticed s c → Clean t F) ∧
      (¬ HalfGrown s c → ¬ Stranded s c → Fitted s F → Fitted t F) := by
  by_cases reloads : ∃ g, c = .reload g
  · obtain ⟨g, rfl⟩ := reloads
    obtain ⟨ret, run⟩ := answer_ok ok
    rw [reload_run files.maps.volume (files.home g mem).1 (encodable files mem) (clean g mem)] at run
    cases run
    refine ⟨synced_files files mem, fun _ => synced_still_clean clean, ?_⟩
    intro _ _ fitted f mf
    rw [synced_din]
    exact fitted f mf
  · obtain ⟨completed, same⟩ := call_completed files mem (fun g here => reloads ⟨g, here⟩) ok
    have touched := completed.touched
    refine ⟨files_touched files mem touched same, ?_, ?_⟩
    · intro noticed
      exact clean_touched files clean mem touched (completed.noted noticed)
    · intro whole alone fitted g mg
      by_cases here : g = c.file
      · rw [here]
        exact completed.fitted whole alone (fitted _ mem)
      · rw [touched.others g here]
        exact fitted g mg

/- A call that fills a hole finds a size above the mapped blocks. -/
theorem fitted_noticed {c : FileCall} (fitted : Fitted s F) (mem : c.file ∈ F)
    (whole : ¬ HalfGrown s c) : ¬ Unnoticed s c := by
  rintro ⟨_, half | hole⟩
  · exact whole half
  · cases c with
    | io write g offset len buf =>
      obtain ⟨_, _, _, _, _, above, below, _⟩ := hole
      have reach := blocks_for_le.mp (fitted g mem).ge
      unfold mappedSize at above
      exact absurd (above.trans_le below) (not_lt.mpr reach)
    | truncate g len => exact hole
    | tryseek g pos => exact hole
    | reload g => exact hole

/-- A completed call of a run on the files `F`. -/
def FileStep (F : Set Nat) (s : Sfs) (c : FileCall) (t : Sfs) : Prop :=
  c.file ∈ F ∧ ∃ a, c.run s = .ok (a, t)

/- In a file that is as long as its blocks say, `sfs_truncfile` fails no assertion. -/
theorem truncfile_asserts_nothing (files : Files s F) (fitted : Fitted s F) (mem : k ∈ F) (len : Int) :
    sfsTruncfile k len s ≠ .error .assertion := by
  have outcome := truncfile_outcome files.maps mem len
  intro stops
  rw [stops] at outcome
  cases outcome with
  | mismatch good same ahead =>
    rw [← same, ← fitted k mem] at ahead
    exact ahead rfl

theorem tryseek_asserts_nothing (files : Files s F) (fitted : Fitted s F) (mem : k ∈ F) (pos : Int) :
    sfsTryseek k pos s ≠ .error .assertion := by
  unfold sfsTryseek
  split_ifs
  · exact nofun
  · rw [run_bind inode_run]
    split_ifs
    · exact truncfile_asserts_nothing files fitted mem pos
    · exact nofun

/-- As long as no call stops halfway through a growth, nor starts behind the last block of a
full volume, every file has the blocks that its size asks for. -/
theorem blocks_follow_sizes {s t : Sfs} {F : Set Nat} (files : Files s F) (clean : Clean s F)
    (fitted : Fitted s F) {calls : List FileCall}
    (run : Run (fun s c t => FileStep F s c t ∧ ¬ HalfGrown s c ∧ ¬ Stranded s c) s calls t) :
    ∀ k ∈ F, (t.inodes k).din.blocks = blocksFor (t.inodes k).din.size ∧
      (∀ len, sfsTruncfile k len t ≠ .error .assertion) ∧
      ∀ pos, sfsTryseek k pos t ≠ .error .assertion := by
  have keep : ∀ s c t, Files s F ∧ Clean s F ∧ Fitted s F →
      FileStep F s c t ∧ ¬ HalfGrown s c ∧ ¬ Stranded s c → Files t F ∧ Clean t F ∧ Fitted t F := by
    rintro s c t ⟨files, clean, fitted⟩ ⟨⟨mem, a, ok⟩, whole, alone⟩
    obtain ⟨files', clean', fitted'⟩ := call_keeps files clean mem ok
    exact ⟨files', clean' (fitted_noticed fitted mem whole), fitted' whole alone fitted⟩
  obtain ⟨files', _, fitted'⟩ := run_invariant keep run ⟨files, clean, fitted⟩
  intro k mem
  exact ⟨fitted' k mem, truncfile_asserts_nothing files' fitted' mem,
    tryseek_asserts_nothing files' fitted' mem⟩

end

/-- A volume with `free` blocks from block 4 on; 1 and 2 hold the inodes of empty files. -/
def freshVolume (free : Nat) : Sfs where
  blocks := 4 + free
  unusedBlocks := free
  superDirty := false
  freemap := { nbits := 32, nwords := 1, map := fun _ => (BitVec.ofNat 32 (2 ^ free - 1)) <<< 4 }
  dBlocks := 4 + free
  disk := fun b => if b = 1 ∨ b = 2 then diskInodeBytes emptyFile else fun _ => 0
  inodes := fun _ => { din := emptyFile, dirty := false }

def freshFiles : Set Nat := {1, 2}

instance (k : Nat) : Decidable (k ∈ freshFiles) :=
  inferInstanceAs (Decidable (k = 1 ∨ k = 2))

section
variable {free : Nat}

/- Two inodes in memory without blocks. -/
theorem empty_files {s : Sfs} (empty : s.inodes = fun _ => { din := emptyFile, dirty := false })
    (volume : Volume s) (one : InUse s 1) (two : InUse s 2) : Files s freshFiles := by
  have null : ∀ g, ∀ a : Slot, pointer s g a = 0 := by
    intro g a
    cases a with
    | data i => simp [pointer, empty, emptyFile]
    | entries => simp [pointer, empty, emptyFile]
  have small : emptyFile.size < wordSize := by decide
  have links : emptyFile.nlinks < 65536 ∧ emptyFile.nlinks ≠ 0 := by decide
  constructor
  · exact null_maps volume null fun g => by rw [empty]; rfl
  · intro k _
    rw [empty]
    rfl
  · rintro k (rfl | rfl)
    · exact ⟨one, fun g _ a _ => by rw [null]; decide⟩
    · exact ⟨two, fun g _ a _ => by rw [null]; decide⟩
  · intro k _
    rw [empty]
    exact small
  · intro k _
    rw [empty]
    exact links
  · intro k _ i _
    rw [empty]
    rfl

theorem fresh_files (volume : Volume (freshVolume free)) (one : InUse (freshVolume free) 1)
    (two : InUse (freshVolume free) 2) : Files (freshVolume free) freshFiles :=
  empty_files rfl volume one two

theorem fresh_clean : Clean (freshVolume free) freshFiles := by
  intro k mem _ j _
  have here : (freshVolume free).disk k = diskInodeBytes emptyFile := if_pos mem
  rw [here]
  rfl

theorem fresh_fitted : Fitted (freshVolume free) freshFiles := by
  have fitted : emptyFile.blocks = blocksFor emptyFile.size := by decide
  exact fun _ _ => fitted

end

theorem four_free : Volume (freshVolume 4) ∧ InUse (freshVolume 4) 1 ∧ InUse (freshVolume 4) 2 := by
  refine ⟨?_, by decide, by decide⟩
  constructor <;> decide

instance (s : Sfs) (k : Nat) (len : Int) : Decidable (Starved s k len) :=
  inferInstanceAs (Decidable (_ ∧ _))

instance (s : Sfs) : (c : FileCall) → Decidable (HalfGrown s c)
  | .io .. => inferInstanceAs (Decidable False)
  | .truncate k len => inferInstanceAs (Decidable (Starved s k len))
  | .tryseek .. => inferInstanceAs (Decidable (_ ∧ _))
  | .reload _ => inferInstanceAs (Decidable False)

instance (s : Sfs) (k endpos : Nat) : Decidable (PastEnd s k endpos) :=
  inferInstanceAs (Decidable (_ ∧ _))

instance (s : Sfs) : (c : FileCall) → Decidable (Stranded s c)
  | .io .. => inferInstanceAs (Decidable (_ ∧ _))
  | .truncate .. => inferInstanceAs (Decidable False)
  | .tryseek .. => inferInstanceAs (Decidable False)
  | .reload _ => inferInstanceAs (Decidable False)

/- The calls on the fresh files, as long as they complete and meet a condition. -/
def completeWhen (good : Sfs → FileCall → Prop) [∀ s c, Decidable (good s c)] (s : Sfs)
    (c : FileCall) : Option Sfs :=
  if c.file ∈ freshFiles ∧ good s c then
    match c.run s with
    | .ok (_, t) => some t
    | .error _ => none
  else none

theorem complete_when_step {good : Sfs → FileCall → Prop} [∀ s c, Decidable (good s c)] {s t : Sfs}
    {c : FileCall} (done : completeWhen good s c = some t) :
    FileStep freshFiles s c t ∧ good s c := by
  unfold completeWhen at done
  split_ifs at done with both
  cases run : c.run s with
  | error e =>
    rw [run] at done
    cases done
  | ok r =>
    rw [run] at done
    cases done
    exact ⟨⟨both.1, r.1, run⟩, both.2⟩

theorem whole_calls_on_two_files : ∃ t,
    Run (fun s c t => FileStep freshFiles s c t ∧ ¬ HalfGrown s c ∧ ¬ Stranded s c) (freshVolume 4)
      [.io true 1 0 5000 fun _ => 7, .truncate 1 100, .tryseek 2 6000, .reload 1] t ∧
    ((t.inodes 1).din.blocks = blocksFor (t.inodes 1).din.size ∧
      (∀ len, sfsTruncfile 1 len t ≠ .error .assertion) ∧
      ∀ pos, sfsTryseek 1 pos t ≠ .error .assertion) := by
  have done : (replay (completeWhen fun s c => ¬ HalfGrown s c ∧ ¬ Stranded s c) (freshVolume 4)
      [.io true 1 0 5000 fun _ => 7, .truncate 1 100, .tryseek 2 6000, .reload 1]).isSome := by
    decide +kernel
  obtain ⟨t, ran⟩ := Option.isSome_iff_exists.mp done
  have run := run_mono (fun s c t => complete_when_step) (replay_run ran)
  have files := fresh_files four_free.1 four_free.2.1 four_free.2.2
  exact ⟨t, run, blocks_follow_sizes files fresh_clean fresh_fitted run 1 (Or.inl rfl)⟩

/- Four blocks are free, and five are asked for: four stay with a file of size 0, and the next
   truncation of the file to 0 fails its assertion. -/
theorem half_grown_file : ∃ t, sfsTruncfile 1 (5 * 4096) (freshVolume 4) = .ok (-E_NO_MEM, t) ∧
    (t.inodes 1).din.blocks = 4 ∧ (t.inodes 1).din.size = 0 ∧
    sfsTruncfile 1 0 t = .error .assertion := by
  have seen : endsWith (fun ret t => decide (ret = -E_NO_MEM ∧ (t.inodes 1).din.blocks = 4 ∧
      (t.inodes 1).din.size = 0) && stopsFor .assertion (sfsTruncfile 1 0 t))
      (sfsTruncfile 1 (5 * 4096) (freshVolume 4)) = true := by
    decide +kernel
  obtain ⟨ret, t, run, left⟩ := ends_with seen
  rw [Bool.and_eq_true] at left
  obtain ⟨rfl, blocks, size⟩ := of_decide_eq_true left.1
  exact ⟨t, run, blocks, size, stops_for left.2⟩

end Ucore
