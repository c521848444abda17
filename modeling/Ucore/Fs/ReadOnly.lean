import Ucore.Fs.DescriptorRuns

/- What the holder of a descriptor that is open for reading only does to files. -/
namespace Ucore
open Programs Words Transitions ByteFile

/-- The call gives its file another size. -/
def Resizes (s : Sfs) : FileCall → Prop
  | .truncate k len =>
      (0 ≤ len ∧ len ≤ SFS_MAX_FILE_SIZE) ∧ (s.inodes k).din.size ≠ len.toNat ∧
        blocksFor len.toNat ≤ limit s k
  | .tryseek k pos =>
      pos < SFS_MAX_FILE_SIZE ∧ (s.inodes k).din.size < pos ∧ blocksFor pos.toNat ≤ limit s k
  | _ => False

/-- Calls that an open without write permission allows, with what `close` writes back. -/
def DescCall.Reads : DescCall → Prop
  | .openNode _ _ openFlags => accessMode openFlags = some (true, false)
  | .transfer write _ _ _ _ => write = false
  | .truncate _ _ | .tryseek _ _ => False
  | _ => True

section
variable {s t u : Sfs} {F : Set Nat} {k : Nat}

def SameFiles (F : Set Nat) (s t : Sfs) : Prop := ∀ g ∈ F, sfsFile t g = sfsFile s g

theorem same_files_of (size : (t.inodes k).din.size = (s.inodes k).din.size)
    (data : fileData t k = fileData s k) (others : ∀ g, g ≠ k → t.inodes g = s.inodes g)
    (elsewhere : ∀ g ∈ F, g ≠ k → fileData t g = fileData s g) : SameFiles F s t := by
  intro g mg
  unfold sfsFile
  by_cases here : g = k
  · rw [here, size, data]
  · rw [others g here, elsewhere g mg here]

theorem extended_same_files {n : Nat} (extended : Extended F s k n t) : SameFiles F s t :=
  same_files_of extended.size extended.data extended.others extended.elsewhere

theorem resize_other_files {size : Nat} (mem : k ∈ F) (new : (s.inodes k).din.size ≠ size) :
    ¬ SameFiles F s (t.resize k size) := by
  intro same
  have sizes := congrArg File.size (same k mem)
  unfold sfsFile at sizes
  dsimp only at sizes
  rw [resize_size] at sizes
  exact new sizes.symm

theorem trunc_resizes {len : Int} {ret : Int} {r : Except SfsStop (Int × Sfs)} (maps : BlockMaps s F)
    (mem : k ∈ F) (outcome : TruncOutcome F s k len r) (ok : r = .ok (ret, t)) :
    SameFiles F s t ↔ ¬ Resizes s (.truncate k len) := by
  have within := blocks_le_limit (maps.map k mem)
  unfold Resizes
  cases outcome with
  | invalid bad =>
    cases ok
    exact ⟨fun _ => by omega, fun _ _ _ => rfl⟩
  | asItWas good same fitted =>
    cases ok
    exact ⟨fun _ all => all.2.1 same, fun _ _ _ => rfl⟩
  | mismatch good same ahead => cases ok
  | pastEnd good new more past => cases ok
  | enlarged v good new more room few extended =>
    cases ok
    exact ⟨fun same => absurd same (resize_other_files mem new), fun kept => absurd ⟨good, new, room⟩ kept⟩
  | full v good new more noRoom few extended =>
    cases ok
    exact ⟨fun _ all => by omega, fun _ => extended_same_files extended⟩
  | reduced v good new fewer shrunk =>
    cases ok
    exact ⟨fun same => absurd same (resize_other_files mem new),
      fun kept => absurd ⟨good, new, by omega⟩ kept⟩

/- A read neither moves the end of the file nor changes a byte. -/
theorem read_same_files {write : Bool} {offset : Int} {len : Nat} {buf : DiskBlock} {a : Answer}
    {r : Except SfsStop (Answer × Sfs)} (maps : BlockMaps s F) (mem : k ∈ F) (reads : write = false)
    (outcome : IoOutcome F s k buf offset len write r) (ok : r = .ok (a, t)) : SameFiles F s t := by
  have ends : ioEnd (s.inodes k).din.size write offset.toNat len ≤ (s.inodes k).din.size := by
    unfold ioEnd
    simp [reads]
  cases outcome with
  | invalid bad =>
    cases ok
    exact fun _ _ => rfl
  | nothing good empty =>
    cases ok
    exact fun _ _ => rfl
  | beyond good some far => cases ok
  | pastEnd good some start past => cases ok
  | moved v good some start within near written =>
    cases ok
    have reach := served_le (s := s) (k := k) some.le
    unfold sized
    rw [if_neg (by omega)]
    refine same_files_of written.size ?_ written.others written.elsewhere
    rw [written.data, if_neg (by simp [reads])]
    funext p
    unfold splice
    exact ite_self _
  | stuck v good some start within far idle =>
    cases ok
    unfold sized
    rw [if_neg (by omega)]
    exact same_files_of (by rw [idle.inodes]) (idle_data maps idle mem)
      (fun g _ => by rw [idle.inodes]) fun g mg _ => idle_data maps idle mg

/-- Which calls other than writes change a file. -/
theorem file_call_resizes {c : FileCall} (files : Files s F) (mem : c.file ∈ F)
    (stays : ∀ g, c ≠ .reload g) (reads : ∀ g offset len buf, c ≠ .io true g offset len buf)
    {a : Answer} (ok : c.run s = .ok (a, t)) : SameFiles F s t ↔ ¬ Resizes s c := by
  have maps := files.maps
  cases c with
  | io write g offset len buf =>
    have mem : g ∈ F := mem
    have file : (s.inodes g).din.type ≠ .dir := by
      rw [files.regular g mem]
      decide
    cases write with
    | true => exact absurd rfl (reads g offset len buf)
    | false =>
      have same := read_same_files maps mem rfl (io_outcome maps mem file buf offset len false) ok
      exact ⟨fun _ => id, fun _ => same⟩
  | truncate g len =>
    have mem : g ∈ F := mem
    obtain ⟨ret, run⟩ := answer_ok ok
    exact trunc_resizes maps mem (truncfile_outcome maps mem len) run
  | tryseek g pos =>
    have mem : g ∈ F := mem
    obtain ⟨ret, run⟩ := answer_ok ok
    unfold sfsTryseek at run
    by_cases bad : pos < 0 ∨ pos ≥ SFS_MAX_FILE_SIZE
    · rw [if_pos bad] at run
      cases run
      exact ⟨fun _ all => by have := all.1; have := all.2.1; omega, fun _ _ _ => rfl⟩
    · rw [if_neg bad, run_bind inode_run] at run
      by_cases past : pos > (s.inodes g).din.size
      · rw [if_pos past] at run
        have inner := trunc_resizes maps mem (truncfile_outcome maps mem pos) run
        have same : Resizes s (.truncate g pos) ↔ Resizes s (.tryseek g pos) := by
          unfold Resizes
          constructor
          · rintro ⟨_, _, room⟩
            exact ⟨by omega, past, room⟩
          · rintro ⟨_, _, room⟩
            exact ⟨by omega, by omega, room⟩
        rw [inner, same]
      · rw [if_neg past] at run
        cases run
        exact ⟨fun _ all => past all.2.1, fun _ _ _ => rfl⟩
  | reload g => exact absurd rfl (stays g)

theorem synced_same_files (files : Files s F) (mem : k ∈ F) : SameFiles F s (synced s k) := by
  intro g mg
  have map := files.maps.map g mg
  have mapped : mappedSize (synced s k) g = mappedSize s g := by
    unfold mappedSize
    rw [synced_din]
  have content : ∀ c, c ≠ k → (synced s k).disk c = s.disk c := by
    intro c ne
    unfold synced
    split_ifs
    · exact Function.update_of_ne ne _ _
    · rfl
  have data : fileData (synced s k) g = fileData s g := by
    funext p
    unfold fileData
    rw [mapped]
    split_ifs with inside
    · have below := mapped_block.mp inside
      have bounded := map.bounded
      have valid : (Slot.data (p / SFS_BLKSIZE)).Valid := Nat.lt_of_lt_of_le below bounded
      unfold fileByte
      rw [synced_pointer files.home mem mg,
        content _ fun same => (files.home k mem).2 g mg _ valid same]
    · rfl
  unfold sfsFile
  rw [synced_din, data]

end

/-- What the holder of such a descriptor asks for, or `load_icode` of a file that is executed. -/
inductive ReaderCall where
  | call (c : DescCall)
  | load (r : FileRef) (len : Nat) (offset : Int) (user : Nat → Bool) (device : Answer)
      (memory : Bool)

def ReaderStep (F : Set Nat) (d : Descs) (c : ReaderCall) (t : Descs) : Prop :=
  match c with
  | .call c => c.Reads ∧ DescStep F d c t
  | .load r len offset user device memory =>
      ∃ ret, loadIcodeRead r len offset user device memory d = .ok (ret, t)

/-- The call opens a file with `O_CREAT` that holds something, or seeks past the end of a file
to where the free blocks reach. -/
def Disturbs (d : Descs) : ReaderCall → Prop
  | .call c => ∃ f, c.fileCall d = some f ∧ Resizes d.sfs f
  | .load r _ offset _ _ _ =>
      ∃ f, (DescCall.seek r offset LSEEK_SET).fileCall d = some f ∧ Resizes d.sfs f

section
variable {d t u : Descs} {F : Set Nat} {c : DescCall} {r : FileRef} {f : FileCall}

theorem same_files_trans {s t u : Sfs} (first : SameFiles F s t) (second : SameFiles F t u) :
    SameFiles F s u := fun g mg => (second g mg).trans (first g mg)

theorem reads_no_write (reads : c.Reads) (calls : c.fileCall d = some f) :
    ∀ g offset len buf, f ≠ .io true g offset len buf := by
  rintro g offset len buf rfl
  cases c with
  | openNode r node openFlags =>
    cases node with
    | dev device => cases calls
    | sfs k =>
      change (if _ then _ else _) = _ at calls
      split_ifs at calls
      cases calls
  | transfer write r len buf device =>
    obtain ⟨file, found, calls⟩ := Option.bind_eq_some_iff.mp calls
    obtain ⟨⟨offset, io⟩, _, _⟩ := io_call_file calls
    cases io
    cases reads
  | seek r pos whence =>
    obtain ⟨file, found, calls⟩ := Option.bind_eq_some_iff.mp calls
    obtain ⟨⟨goal, seeks⟩, _, _⟩ := seek_call_file calls
    cases seeks
  | truncate k len => exact reads
  | tryseek k pos => exact reads
  | close | dup | fstat | getdirentry | flush => cases calls

theorem desc_resizes (ok : DescFiles d F) (reads : c.Reads) (step : DescStep F d c t) :
    SameFiles F d.sfs t.sfs ↔ ¬ ∃ f, c.fileCall d = some f ∧ Resizes d.sfs f := by
  obtain ⟨within, ret, run⟩ := step
  have outcome := desc_outcome ok within
  rw [run] at outcome
  generalize same : (Except.ok (ret, t) : Except VfsStop (Int × Descs)) = res at outcome
  cases outcome with
  | aside ret' t' idle kept nodes =>
    cases same
    have kept : SameFiles F d.sfs t.sfs := fun g _ => by rw [kept]
    simp [idle, kept]
  | flushed k flush =>
    cases same
    subst flush
    have kept := synced_same_files ok.files within
    simp [DescCall.fileCall, kept]
  | called ret' t' f calls a ran nodes =>
    cases same
    obtain ⟨mem, stays⟩ := file_call_mem ok within calls
    rw [file_call_resizes ok.files mem stays (reads_no_write reads calls) ran]
    simp [calls]
  | stopped e f calls ran => cases same
  | refused op idle other => cases same
  | unread e idle dir => cases same

/- A read of a descriptor. -/
theorem desc_read_quiet (ok : DescFiles d F) {len : Nat} {buf : DiskBlock} {device a : Answer}
    (run : descIo r buf len false device d = .ok (a, t)) :
    DescFiles t F ∧ SameFiles F d.sfs t.sfs := by
  have step : DescStep F d (.transfer false r len buf device) t := ⟨trivial, _, ret_of_run run⟩
  have reads : (DescCall.transfer false r len buf device).Reads := rfl
  refine ⟨desc_keeps ok step, (desc_resizes ok reads step).mpr ?_⟩
  rintro ⟨f, calls, resizes⟩
  obtain ⟨file, found, io⟩ := Option.bind_eq_some_iff.mp calls
  obtain ⟨⟨offset, same⟩, _, _⟩ := io_call_file io
  rw [same] at resizes
  exact resizes

/- The loop of `sysfile_read`, by induction on the turns left. -/
theorem read_loop_quiet (turns : Nat) {d : Descs} {user : Nat → Bool} {device : Answer}
    {len copied : Nat} {ret : Int} (ok : DescFiles d F)
    (run : descReadLoop r user device turns len copied d = .ok (ret, t)) :
    DescFiles t F ∧ SameFiles F d.sfs t.sfs := by
  induction turns generalizing d len copied with
  | zero =>
    cases run
    exact ⟨ok, fun _ _ => rfl⟩
  | succ turns ih =>
    unfold descReadLoop at run
    by_cases none_left : len = 0
    · rw [if_pos none_left] at run
      cases run
      exact ⟨ok, fun _ _ => rfl⟩
    · rw [if_neg none_left] at run
      cases io : descIo r (fun _ => 0) (min IOBUF_SIZE len) false device d with
      | error e =>
        rw [run_bind_stop io] at run
        cases run
      | ok res =>
        obtain ⟨⟨code, alen, out⟩, v⟩ := res
        obtain ⟨okV, sameV⟩ := desc_read_quiet ok io
        rw [run_bind io] at run
        dsimp only at run
        by_cases empty : alen = 0
        · rw [if_pos empty] at run
          cases run
          exact ⟨okV, sameV⟩
        · rw [if_neg empty] at run
          by_cases copies : user copied = true
          · rw [if_pos copies] at run
            by_cases short : alen ≤ len
            · rw [run_check_bind short] at run
              by_cases failed : code ≠ 0
              · rw [if_pos failed] at run
                cases run
                exact ⟨okV, sameV⟩
              · rw [if_neg failed] at run
                obtain ⟨okT, sameT⟩ := ih okV run
                exact ⟨okT, same_files_trans sameV sameT⟩
            · rw [run_check_stop short] at run
              cases run
          · rw [if_neg copies] at run
            cases run
            exact ⟨okV, sameV⟩

theorem desc_sysread_quiet (ok : DescFiles d F) {user : Nat → Bool} {device : Answer} {len : Nat}
    {memory : Bool} {ret : Int} (run : descRead r len user device memory d = .ok (ret, t)) :
    DescFiles t F ∧ SameFiles F d.sfs t.sfs := by
  unfold descRead at run
  by_cases none_left : len = 0
  · rw [if_pos none_left] at run
    cases run
    exact ⟨ok, fun _ _ => rfl⟩
  · rw [if_neg none_left, run_get_bind] at run
    cases found : d.opened r with
    | none =>
      rw [found] at run
      cases run
      exact ⟨ok, fun _ _ => rfl⟩
    | some file =>
      rw [found] at run
      dsimp only at run
      split_ifs at run
      · cases run
        exact ⟨ok, fun _ _ => rfl⟩
      · cases run
        exact ⟨ok, fun _ _ => rfl⟩
      · exact read_loop_quiet len ok run

/- `load_icode_read` is a seek and reads. -/
theorem load_read_seeks (ok : DescFiles d F) {len : Nat} {offset : Int} {user : Nat → Bool}
    {device : Answer} {memory : Bool} {ret : Int}
    (run : loadIcodeRead r len offset user device memory d = .ok (ret, t)) :
    ∃ u, DescStep F d (.seek r offset LSEEK_SET) u ∧ DescFiles t F ∧ SameFiles F u.sfs t.sfs := by
  unfold loadIcodeRead at run
  cases seeks : descSeek r offset LSEEK_SET d with
  | error e =>
    rw [run_bind_stop seeks] at run
    cases run
  | ok res =>
    obtain ⟨code, u⟩ := res
    have step : DescStep F d (.seek r offset LSEEK_SET) u := ⟨trivial, code, seeks⟩
    have okU := desc_keeps ok step
    refine ⟨u, step, ?_⟩
    rw [run_bind seeks] at run
    split_ifs at run
    · cases run
      exact ⟨okU, fun _ _ => rfl⟩
    · cases reads : descRead r len user device memory u with
      | error e =>
        rw [run_bind_stop reads] at run
        cases run
      | ok res =>
        obtain ⟨count, v⟩ := res
        have quiet := desc_sysread_quiet okU reads
        rw [run_bind reads] at run
        split_ifs at run
        · cases run
          exact quiet
        · cases run
          exact quiet
        · cases run
          exact quiet

theorem reader_keeps {c : ReaderCall} (ok : DescFiles d F) (step : ReaderStep F d c t) :
    DescFiles t F ∧ (SameFiles F d.sfs t.sfs ↔ ¬ Disturbs d c) := by
  cases c with
  | call c => exact ⟨desc_keeps ok step.2, desc_resizes ok step.1 step.2⟩
  | load r len offset user device memory =>
    obtain ⟨ret, run⟩ := step
    obtain ⟨u, seeks, okT, same⟩ := load_read_seeks ok run
    have reads : (DescCall.seek r offset LSEEK_SET).Reads := trivial
    refine ⟨okT, Iff.trans ⟨?_, ?_⟩ (desc_resizes ok reads seeks)⟩
    · intro whole g mg
      rw [← same g mg]
      exact whole g mg
    · intro sought
      exact same_files_trans sought same

end

/-- Descriptors that are open for reading only, and executions, change no file as long as none
of their calls opens with `O_CREAT` a file that holds something or seeks past the end of one to
where the free blocks reach; each such call changes one. -/
theorem readers_change_no_file {d : Descs} {F : Set Nat} (ok : DescFiles d F) :
    (∀ calls t, Run (fun d c t => ReaderStep F d c t ∧ ¬ Disturbs d c) d calls t →
      SameFiles F d.sfs t.sfs) ∧
    ∀ calls t c u, Run (ReaderStep F) d calls t → ReaderStep F t c u →
      (SameFiles F t.sfs u.sfs ↔ ¬ Disturbs t c) := by
  refine ⟨?_, ?_⟩
  · intro calls t run
    have keep : ∀ s c t, DescFiles s F ∧ SameFiles F d.sfs s.sfs →
        ReaderStep F s c t ∧ ¬ Disturbs s c → DescFiles t F ∧ SameFiles F d.sfs t.sfs := by
      rintro s c t ⟨ok, same⟩ ⟨step, quiet⟩
      obtain ⟨okT, changed⟩ := reader_keeps ok step
      exact ⟨okT, same_files_trans same (changed.mpr quiet)⟩
    exact (run_invariant keep run ⟨ok, fun _ _ => rfl⟩).2
  · intro calls t c u run step
    have keep : ∀ s c t, DescFiles s F → ReaderStep F s c t → DescFiles t F :=
      fun s c t ok step => (reader_keeps ok step).1
    exact (reader_keeps (run_invariant keep run ok) step).2

/- A run of calls on read-only descriptors is one of readers. -/
theorem reader_run {d t : Descs} {F : Set Nat} {P : Descs → ReaderCall → Prop} {calls : List DescCall}
    (run : Run (fun d c t => DescStep F d c t ∧ P d (.call c)) d calls t) (reads : ∀ c ∈ calls, c.Reads) :
    Run (fun d c t => ReaderStep F d c t ∧ P d c) d (calls.map .call) t := by
  induction run with
  | stop d => exact .stop d
  | call first rest ih =>
    have step := And.intro (reads _ List.mem_cons_self) first.1
    exact .call ⟨step, first.2⟩ (ih fun c mem => reads c (List.mem_cons_of_mem _ mem))

instance (s : Sfs) : (f : FileCall) → Decidable (Resizes s f)
  | .truncate k len => inferInstanceAs (Decidable ((0 ≤ len ∧ len ≤ SFS_MAX_FILE_SIZE) ∧
      (s.inodes k).din.size ≠ len.toNat ∧ blocksFor len.toNat ≤ limit s k))
  | .tryseek k pos => inferInstanceAs (Decidable (pos < SFS_MAX_FILE_SIZE ∧ (s.inodes k).din.size < pos ∧
      blocksFor pos.toNat ≤ limit s k))
  | .io .. => inferInstanceAs (Decidable False)
  | .reload _ => inferInstanceAs (Decidable False)

instance (d : Descs) (c : DescCall) : Decidable (Disturbs d (.call c)) :=
  decidable_of_iff ((c.fileCall d).any fun f => Resizes d.sfs f) (by
    rw [Option.any_eq_true]
    exact exists_congr fun f => and_congr_right fun _ => decide_eq_true_iff)

/- The calls on the fresh files that disturb none, as long as they complete. -/
def quietNext (d : Descs) (c : DescCall) : Option Descs := if Disturbs d (.call c) then none else descNext d c

theorem quiet_next_step {d t : Descs} {c : DescCall} (done : quietNext d c = some t) :
    DescStep freshFiles d c t ∧ ¬ Disturbs d (.call c) := by
  unfold quietNext at done
  split_ifs at done with quiet
  exact ⟨desc_next_step done, quiet⟩

/- A file is opened, and three of its bytes are read behind the second. -/
def readCalls : List DescCall :=
  [openFirst ⟨1, 0⟩ O_RDONLY, .seek ⟨1, 0⟩ 2 LSEEK_SET, .transfer false ⟨1, 0⟩ 3 (fun _ => 0) (0, 0, fun _ => 0)]

/- It has six bytes, and the descriptor ends up behind the fifth. -/
theorem file_read_and_left : ∃ d t, DescFiles d freshFiles ∧ (sfsFile d.sfs 1).size = 6 ∧
    Run (fun d c t => ReaderStep freshFiles d c t ∧ ¬ Disturbs d c) d (readCalls.map .call) t ∧
    (t.opened ⟨1, 0⟩).map Descriptor.pos = some 5 ∧ SameFiles freshFiles d.sfs t.sfs := by
  have seen : (replay descNext (freshDescs 4) [openFirst ⟨1, 0⟩ O_RDWR, writeFirst ⟨1, 0⟩ 6, .close ⟨1, 0⟩]).any
      (fun d => (d.sfs.inodes 1).din.size = 6 ∧
        (replay quietNext d readCalls).any fun t => (t.opened ⟨1, 0⟩).map Descriptor.pos = some 5) = true := by
    decide +kernel
  obtain ⟨d, written, seen⟩ := (Option.any_eq_true _ _).mp seen
  obtain ⟨size, seen⟩ := of_decide_eq_true seen
  obtain ⟨t, ran, moved⟩ := (Option.any_eq_true _ _).mp seen
  have keep : ∀ s c t, DescFiles s freshFiles → DescStep freshFiles s c t → DescFiles t freshFiles :=
    fun _ _ _ => desc_keeps
  have files : DescFiles d freshFiles := run_invariant keep (replay_descs written) fresh_descs
  have reads : ∀ c ∈ readCalls, c.Reads := by
    unfold readCalls
    simp only [List.mem_cons, List.not_mem_nil, or_false, forall_eq_or_imp, forall_eq]
    exact ⟨rfl, trivial, rfl⟩
  have run := reader_run (P := fun d c => ¬ Disturbs d c) (run_mono (fun _ _ _ => quiet_next_step) (replay_run ran)) reads
  exact ⟨d, t, files, size, run, of_decide_eq_true moved, (readers_change_no_file files).1 _ _ run⟩

/- A descriptor that is open for reading seeks, and the file is longer. -/
theorem seek_lengthens_file : ∃ t,
    Run (ReaderStep freshFiles) (freshDescs 4)
      [.call (openFirst ⟨1, 0⟩ O_RDONLY), .call (.seek ⟨1, 0⟩ 5000 LSEEK_SET)] t ∧
    (sfsFile (freshDescs 4).sfs 1).size = 0 ∧ (sfsFile t.sfs 1).size = 5000 := by
  have seen : (replay descNext (freshDescs 4) [openFirst ⟨1, 0⟩ O_RDONLY,
      .seek ⟨1, 0⟩ 5000 LSEEK_SET]).any (fun t => (t.sfs.inodes 1).din.size = 5000) = true := by
    decide +kernel
  obtain ⟨t, ran, size⟩ := (Option.any_eq_true _ _).mp seen
  have reads : ∀ c ∈ [openFirst ⟨1, 0⟩ O_RDONLY, .seek ⟨1, 0⟩ 5000 LSEEK_SET], c.Reads := by
    simp only [List.mem_cons, List.not_mem_nil, or_false, forall_eq_or_imp, forall_eq]
    exact ⟨rfl, trivial⟩
  have run := reader_run (P := fun _ _ => True) (run_mono (fun _ _ _ step => ⟨step, trivial⟩) (replay_descs ran)) reads
  exact ⟨t, run_mono (fun _ _ _ step => step.1) run, rfl, of_decide_eq_true size⟩

end Ucore
