import Ucore.Fs.DescriptorCalls

/- Runs of calls on descriptors, in any order: where a transfer stops the kernel, and which
   calls change files. -/
namespace Ucore
open Programs Words Transitions ByteFile

/-- A completed call of a run. -/
def DescStep (F : Set Nat) (d : Descs) (c : DescCall) (t : Descs) : Prop :=
  c.Within d.sfs F ∧ ∃ ret, c.run d = .ok (ret, t)

section
variable {d t : Descs} {F : Set Nat} {c : DescCall} {f : FileCall}

theorem io_call_file {file : Descriptor} {s : Sfs} {write : Bool} {len : Nat} {buf : DiskBlock}
    (calls : file.ioCall s write len buf = some f) :
    (∃ offset, f = .io write f.file offset len buf) ∧ file.node = .sfs f.file ∧
      s.isFile f.file = true := by
  unfold Descriptor.ioCall at calls
  cases node : file.node with
  | dev device =>
    rw [node] at calls
    cases calls
  | sfs k =>
    rw [node] at calls
    dsimp only at calls
    simp only [Option.ite_none_right_eq_some, Bool.and_eq_true, Option.some.injEq] at calls
    obtain ⟨⟨_, regular⟩, rfl⟩ := calls
    exact ⟨⟨file.pos, rfl⟩, rfl, regular⟩

theorem seek_call_file {file : Descriptor} {s : Sfs} {pos whence : Int}
    (calls : file.seekCall s pos whence = some f) :
    (∃ goal, f = .tryseek f.file goal) ∧ file.node = .sfs f.file ∧ s.isFile f.file = true := by
  unfold Descriptor.seekCall at calls
  cases node : file.node with
  | dev device =>
    rw [node] at calls
    cases calls
  | sfs k =>
    rw [node] at calls
    cases asked : file.target s pos whence with
    | none =>
      rw [asked] at calls
      cases calls
    | some goal =>
      rw [asked] at calls
      dsimp only at calls
      split_ifs at calls with regular
      cases calls
      exact ⟨⟨goal, rfl⟩, rfl, regular⟩

/- The file that a call comes to is in memory. -/
theorem file_call_mem (ok : DescFiles d F) (within : c.Within d.sfs F) (calls : c.fileCall d = some f) :
    f.file ∈ F ∧ ∀ g, f ≠ .reload g := by
  cases c with
  | openNode r node openFlags =>
    cases node with
    | dev device => cases calls
    | sfs k =>
      change (if _ then _ else _) = some f at calls
      split_ifs at calls with all
      cases calls
      simp only [Bool.and_eq_true] at all
      exact ⟨within all.1.2, nofun⟩
  | transfer write r len buf device =>
    obtain ⟨file, found, calls⟩ := Option.bind_eq_some_iff.mp calls
    obtain ⟨⟨offset, io⟩, node, regular⟩ := io_call_file calls
    refine ⟨ok.opened r file _ found node regular, ?_⟩
    rw [io]
    exact nofun
  | seek r pos whence =>
    obtain ⟨file, found, calls⟩ := Option.bind_eq_some_iff.mp calls
    obtain ⟨⟨goal, seeks⟩, node, regular⟩ := seek_call_file calls
    refine ⟨ok.opened r file _ found node regular, ?_⟩
    rw [seeks]
    exact nofun
  | truncate k len =>
    change (if _ then _ else _) = some f at calls
    split_ifs at calls
    cases calls
    exact ⟨within, nofun⟩
  | tryseek k pos =>
    change (if _ then _ else _) = some f at calls
    split_ifs at calls
    cases calls
    exact ⟨within, nofun⟩
  | close | dup | fstat | getdirentry | flush => cases calls

theorem is_file_kinds {s u : Sfs} (same : SameKinds s u) (k : Nat) : u.isFile k = s.isFile k := by
  have kind := same.kind k
  unfold Sfs.isFile
  rw [kind.type]

theorem nodes_opened (ok : DescFiles d F) (within : c.Within d.sfs F) (nodes : Nodes d c t)
    (same : ∀ k, t.sfs.isFile k = d.sfs.isFile k) {r : FileRef} {file : Descriptor} {k : Nat}
    (found : t.opened r = some file) (node : file.node = .sfs k)
    (regular : t.sfs.isFile k = true) : k ∈ F := by
  rw [same] at regular
  rcases nodes r file found with ⟨q, old, before, leads⟩ | ⟨q, openFlags, rfl⟩
  · exact ok.opened q old k before (leads.trans node) regular
  · rw [node] at within
    exact within regular

theorem desc_keeps (ok : DescFiles d F) (step : DescStep F d c t) : DescFiles t F := by
  obtain ⟨within, ret, run⟩ := step
  have outcome := desc_outcome ok within
  rw [run] at outcome
  generalize same : (Except.ok (ret, t) : Except VfsStop (Int × Descs)) = res at outcome
  cases outcome with
  | aside ret' t' idle kept nodes =>
    cases same
    refine ⟨by rw [kept]; exact ok.files, ?_⟩
    intro r file k
    exact nodes_opened ok within nodes fun k => by rw [kept]
  | flushed k flush =>
    cases same
    subst flush
    refine ⟨synced_files ok.files within, ?_⟩
    intro r file g found node regular
    refine ok.opened r file g found node ?_
    unfold Sfs.isFile at regular ⊢
    rwa [synced_din] at regular
  | called ret' t' f calls a ran nodes =>
    cases same
    obtain ⟨mem, stays⟩ := file_call_mem ok within calls
    obtain ⟨_, kinds⟩ := call_completed ok.files mem stays ran
    refine ⟨call_files ok.files mem stays ran, ?_⟩
    intro r file k
    exact nodes_opened ok within nodes (is_file_kinds kinds)
  | stopped e f calls ran => cases same
  | refused op idle other => cases same
  | unread e idle dir => cases same

theorem desc_run_keeps {calls : List DescCall} (run : Run (DescStep F) d calls t)
    (ok : DescFiles d F) : DescFiles t F := by
  have keep : ∀ d c t, DescFiles d F → DescStep F d c t → DescFiles t F :=
    fun _ _ _ ok step => desc_keeps ok step
  exact run_invariant keep run ok

/- How a call that comes to a regular file stops. -/
theorem desc_stops (ok : DescFiles d F) (within : c.Within d.sfs F)
    (reads : ∀ r offset memory, c ≠ .getdirentry r offset memory) (e : SfsStop) :
    c.run d = .error (.sfs e) ↔ ∃ f, c.fileCall d = some f ∧ f.run d.sfs = .error e := by
  have outcome := desc_outcome ok within
  generalize ran : c.run d = res at outcome
  cases outcome with
  | aside ret t idle kept nodes => simp [idle]
  | flushed k flush =>
    subst flush
    simp [DescCall.fileCall]
  | called ret t f calls a run nodes => simp [calls, run]
  | stopped e' f calls run => simp [calls, run]
  | refused op idle other => simp [idle]
  | unread e' idle dir =>
    obtain ⟨r, offset, memory, same⟩ := dir
    exact absurd same (reads r offset memory)

/-- The transfer starts behind the block that follows the mapped ones. -/
def StartsBehind (d : Descs) (c : DescCall) : Prop :=
  ∃ f, c.fileCall d = some f ∧ StartsBeyond d.sfs f

/-- In every run, the blocks below the count are mapped, and a transfer fails the assertion on
its block exactly where the position of its descriptor has been left behind the blocks. -/
theorem transfers_start_mapped {d t : Descs} {F : Set Nat} (ok : DescFiles d F)
    {calls : List DescCall} (run : Run (DescStep F) d calls t) :
    (∀ k ∈ F, ∀ i < (t.sfs.inodes k).din.blocks, InUse t.sfs (pointer t.sfs k (.data i))) ∧
    ∀ write r len buf device,
      (DescCall.transfer write r len buf device).run t = .error (.sfs .assertion) ↔
        StartsBehind t (.transfer write r len buf device) := by
  have ok := desc_run_keeps run ok
  refine ⟨fun k mem => (ok.files.maps.map k mem).below, ?_⟩
  · intro write r len buf device
    have within : (DescCall.transfer write r len buf device).Within t.sfs F := trivial
    rw [desc_stops ok within (fun _ _ _ => nofun)]
    unfold StartsBehind
    refine exists_congr fun f => and_congr_right fun calls => ?_
    obtain ⟨mem, stays⟩ := file_call_mem ok within calls
    rw [(call_ending ok.files mem stays).assertion]
    obtain ⟨file, found, io⟩ := Option.bind_eq_some_iff.mp calls
    obtain ⟨⟨offset, same⟩, _, _⟩ := io_call_file io
    rw [same]
    exact or_iff_left id

end

/- A fresh volume, on which nothing is open. -/
def freshDescs (free : Nat) : Descs := { sfs := freshVolume free, opened := fun _ => none }

theorem fresh_descs : DescFiles (freshDescs 4) freshFiles :=
  ⟨fresh_files four_free.1 four_free.2.1 four_free.2.2, nofun⟩

instance (s : Sfs) : (c : DescCall) → Decidable (c.Within s freshFiles)
  | .openNode _ (.dev _) _ => inferInstanceAs (Decidable True)
  | .openNode _ (.sfs k) _ => inferInstanceAs (Decidable (s.isFile k = true → k ∈ freshFiles))
  | .close _ => inferInstanceAs (Decidable True)
  | .dup _ _ => inferInstanceAs (Decidable True)
  | .transfer .. => inferInstanceAs (Decidable True)
  | .seek .. => inferInstanceAs (Decidable True)
  | .fstat _ => inferInstanceAs (Decidable True)
  | .getdirentry .. => inferInstanceAs (Decidable True)
  | .truncate k _ => inferInstanceAs (Decidable (k ∈ freshFiles))
  | .tryseek k _ => inferInstanceAs (Decidable (k ∈ freshFiles))
  | .flush k => inferInstanceAs (Decidable (k ∈ freshFiles))

/- The calls on the fresh files, as long as they complete. -/
def descNext (d : Descs) (c : DescCall) : Option Descs :=
  if c.Within d.sfs freshFiles then
    match c.run d with
    | .ok (_, t) => some t
    | .error _ => none
  else none

theorem desc_next_step {d t : Descs} {c : DescCall} (done : descNext d c = some t) :
    DescStep freshFiles d c t := by
  unfold descNext at done
  split_ifs at done with within
  cases run : c.run d with
  | error e =>
    rw [run] at done
    cases done
  | ok r =>
    rw [run] at done
    cases done
    exact ⟨within, r.1, run⟩

theorem replay_descs {d t : Descs} {calls : List DescCall} (done : replay descNext d calls = some t) :
    Run (DescStep freshFiles) d calls t :=
  run_mono (fun _ _ _ => desc_next_step) (replay_run done)

def stopsWith {α : Type} (reason : VfsStop) : Except VfsStop α → Bool
  | .ok _ => false
  | .error e => e = reason

/- A run that leads to a stop. -/
theorem replay_stops {d : Descs} {calls : List DescCall} {c : DescCall} {reason : VfsStop}
    (seen : (replay descNext d calls).any (fun t => stopsWith reason (c.run t)) = true) :
    ∃ t, Run (DescStep freshFiles) d calls t ∧ c.run t = .error reason := by
  obtain ⟨t, ran, stops⟩ := (Option.any_eq_true _ _).mp seen
  refine ⟨t, replay_descs ran, ?_⟩
  cases run : c.run t with
  | ok r =>
    rw [run] at stops
    cases stops
  | error e =>
    rw [run] at stops
    rw [of_decide_eq_true stops]

def openFirst (r : FileRef) (openFlags : Nat) : DescCall := .openNode r (.sfs 1) openFlags

def writeFirst (r : FileRef) (len : Nat) : DescCall := .transfer true r len (fun _ => 7) (0, 0, fun _ => 0)

theorem writes_start_mapped : ∃ t,
    Run (DescStep freshFiles) (freshDescs 4)
      [openFirst ⟨1, 0⟩ O_RDWR, .seek ⟨1, 0⟩ 5000 LSEEK_SET, openFirst ⟨2, 0⟩ (O_RDWR + O_TRUNC)] t ∧
    ((∀ k ∈ freshFiles, ∀ i < (t.sfs.inodes k).din.blocks, InUse t.sfs (pointer t.sfs k (.data i))) ∧
      ∀ write r len buf device,
        (DescCall.transfer write r len buf device).run t = .error (.sfs .assertion) ↔
          StartsBehind t (.transfer write r len buf device)) := by
  have done : (replay descNext (freshDescs 4) [openFirst ⟨1, 0⟩ O_RDWR, .seek ⟨1, 0⟩ 5000 LSEEK_SET,
      openFirst ⟨2, 0⟩ (O_RDWR + O_TRUNC)]).isSome := by
    decide +kernel
  obtain ⟨t, ran⟩ := Option.isSome_iff_exists.mp done
  exact ⟨t, replay_descs ran, transfers_start_mapped fresh_descs (replay_descs ran)⟩

/- The second descriptor truncates the file, and the first writes on where it was. -/
theorem write_after_truncation : ∃ t,
    Run (DescStep freshFiles) (freshDescs 4)
      [openFirst ⟨1, 0⟩ O_RDWR, .seek ⟨1, 0⟩ 5000 LSEEK_SET, openFirst ⟨2, 0⟩ (O_RDWR + O_TRUNC)] t ∧
    (writeFirst ⟨1, 0⟩ 1).run t = .error (.sfs .assertion) := by
  apply replay_stops
  decide +kernel

section
variable {d t : Descs} {F : Set Nat} {c : DescCall}

/-- A call of `file_seek`, `file_read`, `file_write`, `vop_tryseek` or `vop_truncate` on regular
files in memory. -/
def DescCall.OnFile (c : DescCall) (d : Descs) (F : Set Nat) : Prop :=
  match c with
  | .transfer _ r _ _ _ | .seek r _ _ => ∀ file, d.opened r = some file → ∃ k ∈ F, file.node = .sfs k
  | .truncate k _ | .tryseek k _ => k ∈ F
  | _ => False

theorem on_file_within {s : Sfs} (on : c.OnFile d F) : c.Within s F := by
  cases c with
  | transfer | seek => trivial
  | truncate k len => exact on
  | tryseek k pos => exact on
  | openNode | close | dup | fstat | getdirentry | flush => exact absurd on id

theorem is_file_of_files {s : Sfs} {k : Nat} (files : Files s F) (mem : k ∈ F) :
    s.isFile k = true := decide_eq_true (files.regular k mem)

theorem on_file_regular (ok : DescFiles d F) (on : c.OnFile d F) : c.Regular d := by
  cases c with
  | transfer write r len buf device =>
    intro file found
    obtain ⟨k, mem, node⟩ := on file found
    exact ⟨k, node, is_file_of_files ok.files mem⟩
  | seek r pos whence =>
    intro file found
    obtain ⟨k, mem, node⟩ := on file found
    exact ⟨k, node, is_file_of_files ok.files mem⟩
  | truncate k len => exact is_file_of_files ok.files on
  | tryseek k pos => exact is_file_of_files ok.files on
  | openNode | close | dup | fstat | getdirentry | flush => exact absurd on id

/-- In every run, a call on regular files ends, with a code or with what it was asked for,
exactly where it does not go behind the last block of a map, does not start behind the blocks
that follow the mapped ones, and does not ask for the size of a file that has other blocks; the
first of the three is the panic of the block map. -/
theorem accepted_calls_end {d t : Descs} {F : Set Nat} (ok : DescFiles d F)
    {calls : List DescCall} (run : Run (DescStep F) d calls t) (c : DescCall) (on : c.OnFile t F) :
    ((∃ ret u, c.run t = .ok (ret, u)) ↔ ∀ f, c.fileCall t = some f →
      ¬ PastMap t.sfs f ∧ ¬ StartsBeyond t.sfs f ∧ ¬ Mismatched t.sfs f) ∧
    (c.run t = .error (.sfs .indexOutOfRange) ↔ ∃ f, c.fileCall t = some f ∧ PastMap t.sfs f) := by
  have ok := desc_run_keeps run ok
  have within : c.Within t.sfs F := on_file_within on
  have reads : ∀ r offset memory, c ≠ .getdirentry r offset memory := by
    rintro r offset memory rfl
    exact on
  have ending : ∀ f, c.fileCall t = some f →
      Ending (PastMap t.sfs f) (StartsBeyond t.sfs f ∨ Mismatched t.sfs f) (f.run t.sfs) := by
    intro f calls
    obtain ⟨mem, stays⟩ := file_call_mem ok within calls
    exact call_ending ok.files mem stays
  refine ⟨?_, ?_⟩
  · have outcome := desc_outcome ok within
    generalize ran : c.run t = res at outcome
    cases outcome with
    | aside ret u idle kept nodes => simp [idle]
    | flushed k flush =>
      subst flush
      exact absurd on id
    | called ret u f calls a run nodes =>
      have ends := (ending f calls).completes.mp ⟨a, u.sfs, run⟩
      refine ⟨fun _ g same => ?_, fun _ => ⟨ret, u, rfl⟩⟩
      rw [calls] at same
      cases same
      exact ⟨ends.1, not_or.mp ends.2⟩
    | stopped e f calls run =>
      refine ⟨fun ended => ?_, fun all => ?_⟩
      · obtain ⟨ret, u, same⟩ := ended
        cases same
      · obtain ⟨past, behind, ahead⟩ := all f calls
        obtain ⟨a, u, same⟩ := (ending f calls).completes.mpr ⟨past, not_or.mpr ⟨behind, ahead⟩⟩
        rw [run] at same
        cases same
    | refused op idle other => exact absurd (on_file_regular ok on) other
    | unread e idle dir =>
      obtain ⟨r, offset, memory, same⟩ := dir
      exact absurd same (reads r offset memory)
  · rw [desc_stops ok within reads]
    exact exists_congr fun f => and_congr_right fun calls => (ending f calls).index

end


theorem seek_and_write_end : ∃ t,
    Run (DescStep freshFiles) (freshDescs 4)
      [openFirst ⟨1, 0⟩ O_RDWR, .seek ⟨1, 0⟩ 5000 LSEEK_SET, writeFirst ⟨1, 0⟩ 100] t ∧
    (((∃ ret u, (DescCall.truncate 1 6000).run t = .ok (ret, u)) ↔
      ∀ f, (DescCall.truncate 1 6000).fileCall t = some f →
        ¬ PastMap t.sfs f ∧ ¬ StartsBeyond t.sfs f ∧ ¬ Mismatched t.sfs f) ∧
    ((DescCall.truncate 1 6000).run t = .error (.sfs .indexOutOfRange) ↔
      ∃ f, (DescCall.truncate 1 6000).fileCall t = some f ∧ PastMap t.sfs f)) := by
  have done : (replay descNext (freshDescs 4) [openFirst ⟨1, 0⟩ O_RDWR,
      .seek ⟨1, 0⟩ 5000 LSEEK_SET, writeFirst ⟨1, 0⟩ 100]).isSome := by
    decide +kernel
  obtain ⟨t, ran⟩ := Option.isSome_iff_exists.mp done
  exact ⟨t, replay_descs ran, accepted_calls_end fresh_descs (replay_descs ran) _ (Or.inl rfl)⟩

/-- A volume with more free blocks than a file can have. -/
def wideVolume : Sfs :=
  { freshVolume 0 with
    blocks := 1152
    unusedBlocks := 1148
    freemap :=
      { nbits := 1152, nwords := 36, map := fun w => if w = 0 then 0xfffffff0 else 0xffffffff }
    dBlocks := 1152 }

theorem wide_descs : DescFiles { sfs := wideVolume, opened := fun _ => none } freshFiles := by
  have volume : Volume wideVolume := by
    constructor <;> decide +kernel
  exact ⟨empty_files rfl volume (by decide +kernel) (by decide +kernel), nofun⟩

/- The first file, as it is opened. -/
def first : Descriptor := ⟨.sfs 1, true, true, 0⟩

/- The seek stays below `SFS_MAX_FILE_SIZE`, and goes one byte past the last block that the
   inode can point to. -/
theorem seek_past_map : ∃ t,
    Run (DescStep freshFiles) { sfs := wideVolume, opened := fun _ => none }
      [openFirst ⟨1, 0⟩ O_RDWR] t ∧
    (DescCall.seek ⟨1, 0⟩ (maxBlocks * SFS_BLKSIZE + 1) LSEEK_SET).run t =
      .error (.sfs .indexOutOfRange) := by
  have opens : descNext { sfs := wideVolume, opened := fun _ => none } (openFirst ⟨1, 0⟩ O_RDWR) =
      some { sfs := wideVolume, opened := Function.update (fun _ => none) ⟨1, 0⟩ (some first) } := by
    rfl
  have step := desc_next_step opens
  have ok := desc_keeps wide_descs step
  refine ⟨_, .call step (.stop _), ?_⟩
  have reads : ∀ r offset memory, DescCall.seek ⟨1, 0⟩ (maxBlocks * SFS_BLKSIZE + 1) LSEEK_SET ≠
      .getdirentry r offset memory := fun _ _ _ => nofun
  have stays : ∀ g, FileCall.tryseek 1 (maxBlocks * SFS_BLKSIZE + 1) ≠ .reload g := fun _ => nofun
  rw [desc_stops ok (by trivial) reads]
  have past : PastMap wideVolume (.tryseek 1 (maxBlocks * SFS_BLKSIZE + 1)) := by
    refine ⟨by decide, by decide, by decide, by decide, by decide +kernel⟩
  exact ⟨.tryseek 1 (maxBlocks * SFS_BLKSIZE + 1), rfl,
    (call_ending ok.files (Or.inl rfl) stays).index.mpr past⟩

end Ucore
