import Ucore.Fs.Sfs.FileRuns
import Ucore.Fs.Sysfile

/- What `sysfile_read` stores for its caller, and how far it moves the position of the descriptor. -/
namespace Ucore
open Programs Words ByteFile

/-- The entry of a descriptor of the process at work. -/
def entryOf (v : Vfs) (fd : Int) : File := (v.files v.current).fdArray fd.toNat

def Vfs.withEntry (v : Vfs) (fd : Int) (file : File) : Vfs :=
  let f := v.files v.current
  { v with files := (Function.update v.files v.current
    { f with fdArray := Function.update f.fdArray fd.toNat file }) }

def OpenToRead (v : Vfs) (fd : Int) : Prop :=
  testfd fd = true ∧ (entryOf v fd).status = .opened ∧ (entryOf v fd).readable = true

instance (v : Vfs) (fd : Int) : Decidable (OpenToRead v fd) := inferInstanceAs (Decidable (_ ∧ _ ∧ _))

/- The bytes that follow the position, and how many there are. -/
def following (v : Vfs) (fd : Int) : DiskBlock :=
  match (entryOf v fd).node with
  | some (.sfs k) => fileFrom v.sfs k (entryOf v fd).pos.toNat
  | some (.dev .stdin) => fun i => v.keyboard.getD i 0
  | _ => fun _ => 0

def remaining (v : Vfs) (fd : Int) : Nat :=
  match (entryOf v fd).node with
  | some (.sfs k) => (v.sfs.inodes k).din.size - (entryOf v fd).pos.toNat
  | some (.dev .stdin) => v.keyboard.length
  | _ => 0

/-- What is typed and not read after `n` bytes have been. -/
def unread (v : Vfs) (fd : Int) (n : Nat) : List UInt8 :=
  if (entryOf v fd).node = some (.dev .stdin) then v.keyboard.drop n else v.keyboard

/-- `sysfile_read` has returned `r` and has left `w` and, in the memory that was `old`, `out`. -/
structure Delivered (v : Vfs) (fd : Int) (old : DiskBlock) (r : Int) (out : DiskBlock) (w : Vfs) : Prop where
  stored : 0 ≤ r → r.toNat ≤ remaining v fd ∧ out = overlay old (following v fd) r.toNat 0
  advanced : 0 ≤ r → (entryOf w fd).pos = (entryOf v fd).pos + r ∧ w.keyboard = unread v fd r.toNat
  failed : r < 0 → (entryOf w fd).pos = (entryOf v fd).pos ∧ w.keyboard = v.keyboard

/-- No byte is lost, whatever the memory of the caller holds. -/
def Lossless (v : Vfs) (fd : Int) (len : Nat) (user : Nat → Bool) : Prop :=
  ∀ old r out w, sysfileRead fd len user old v = .ok ((r, out), w) → Delivered v fd old r out w

/- Where the reads of a file end: at its size, if the bytes before it have a block or can get one. -/
def readEnd (s : Sfs) (k : Nat) : Nat := min (min SFS_MAX_FILE_SIZE (s.inodes k).din.size) (limit s k * SFS_BLKSIZE)

def available (s : Sfs) (k : Nat) (pos : Int) (len : Nat) : Nat :=
  if pos < 0 then 0 else min (pos.toNat + len) (readEnd s k) - pos.toNat

/- How many bytes a read of `len` finds; of what is typed no more than the buffer holds. -/
def offered (v : Vfs) (fd : Int) (len : Nat) : Nat :=
  if OpenToRead v fd then
    match (entryOf v fd).node with
    | some (.sfs k) => available v.sfs k (entryOf v fd).pos len
    | some (.dev .stdin) => min (min IOBUF_SIZE len) v.keyboard.length
    | _ => 0
  else 0

section Entries
variable {v w : Vfs} {fd : Int} {file : File} {buf out : DiskBlock} {n alen : Nat} {ret : Int}

@[simp] theorem entry_with_entry : entryOf (v.withEntry fd file) fd = file := by simp [entryOf, Vfs.withEntry]

@[simp] theorem with_entry_with_entry {file' : File} :
    (v.withEntry fd file).withEntry fd file' = v.withEntry fd file' := by simp [Vfs.withEntry]

theorem set_file_run : setFile ⟨v.current, fd.toNat⟩ file v = .ok ((), v.withEntry fd file) := rfl

theorem file_of_run : fileOf ⟨v.current, fd.toNat⟩ v = .ok (entryOf v fd, v) := rfl

theorem fd2file_ran {x : Except Int FileRef} (ran : fd2file fd v = .ok (x, w)) : w = v ∧
    (x = .ok ⟨v.current, fd.toNat⟩ ∧ testfd fd = true ∧ (entryOf v fd).status = .opened ∨
      x = .error (-E_INVAL) ∧ ¬ OpenToRead v fd) := by
  unfold fd2file at ran
  by_cases legal : testfd fd = true
  · rw [if_pos legal] at ran
    obtain ⟨p, u, found, ran⟩ := bind_ran ran
    unfold getFdArray at found
    rw [run_get_bind] at found
    obtain ⟨_, found⟩ := check_ran found
    cases found
    rw [run_bind file_of_run] at ran
    by_cases here : (entryOf v fd).status = .opened
    · rw [if_pos here] at ran
      cases ran
      exact ⟨rfl, .inl ⟨rfl, legal, here⟩⟩
    · rw [if_neg here] at ran
      cases ran
      exact ⟨rfl, .inr ⟨rfl, fun all => here all.2.1⟩⟩
  · rw [if_neg legal] at ran
    cases ran
    exact ⟨rfl, .inr ⟨rfl, fun all => legal all.1⟩⟩

theorem testfd_ran {b : Bool} (ran : fileTestfd fd true false v = .ok (b, w)) :
    w = v ∧ (b = true ↔ OpenToRead v fd) := by
  unfold fileTestfd at ran
  obtain ⟨x, u, found, ran⟩ := bind_ran ran
  obtain ⟨rfl, ⟨rfl, legal, here⟩ | ⟨rfl, bad⟩⟩ := fd2file_ran found
  · dsimp only at ran
    rw [run_bind file_of_run] at ran
    cases ran
    refine ⟨rfl, ?_⟩
    simp [OpenToRead, legal, here]
  · cases ran
    exact ⟨rfl, by simp [bad]⟩

theorem acquire_ran {u : Unit} (ran : fdArrayAcquire ⟨v.current, fd.toNat⟩ v = .ok (u, w)) :
    w = v.withEntry fd { entryOf v fd with openCount := (entryOf v fd).openCount + 1 } := by
  unfold fdArrayAcquire at ran
  rw [run_bind file_of_run] at ran
  obtain ⟨_, ran⟩ := check_ran ran
  cases ran
  rfl

theorem release_ran {u : Unit} (opened : (entryOf v fd).status = .opened)
    (ran : fdArrayRelease ⟨v.current, fd.toNat⟩ v = .ok (u, w)) :
    w = v.withEntry fd { entryOf v fd with openCount := (entryOf v fd).openCount - 1 } := by
  unfold fdArrayRelease at ran
  rw [run_bind file_of_run] at ran
  obtain ⟨_, ran⟩ := check_ran ran
  obtain ⟨_, ran⟩ := check_ran ran
  rw [run_bind set_file_run] at ran
  by_cases last : (entryOf v fd).openCount - 1 = 0
  · -- An open entry is not freed.
    rw [if_pos last] at ran
    unfold fdArrayFree at ran
    rw [run_bind (show fileOf ⟨v.current, fd.toNat⟩ (v.withEntry fd _) = .ok (entryOf (v.withEntry fd _) fd, _) from rfl)]
      at ran
    obtain ⟨closed, _⟩ := check_ran ran
    simp [opened] at closed
  · rw [if_neg last] at ran
    cases ran
    rfl

theorem vop_op_ran {node : Node} {op : Vop} {ops : InodeOps} (ran : vopOp node op v = .ok (ops, w)) : w = v := by
  unfold vopOp at ran
  obtain ⟨i, u, found, ran⟩ := bind_ran ran
  obtain ⟨_, ran⟩ := check_ran ran
  obtain ⟨_, ran⟩ := check_ran ran
  obtain ⟨_, ran⟩ := check_ran ran
  unfold inodeOf at found
  rw [run_get_bind] at found
  cases here : v.inodes node with
  | none =>
    rw [here] at found
    cases found
  | some j =>
    rw [here] at found
    cases found
    cases ran
    rfl

/-- What one call of `vop_read` has done. -/
inductive ReadFrom (v : Vfs) (buf : DiskBlock) (pos : Int) (n : Nat) : Node → Int → Nat → DiskBlock → Vfs → Prop
  | file {k alen : Nat} {ret : Int} {out : DiskBlock} {t : Sfs}
      (ran : sfsIoNolock k buf pos n false v.sfs = .ok ((ret, alen, out), t)) :
      ReadFrom v buf pos n (.sfs k) ret alen out { v with sfs := t }
  | typed : ReadFrom v buf pos n (.dev .stdin) (v.keyboard.take n).length (v.keyboard.take n).length
      (overlay buf (fun i => (v.keyboard.take n).getD i 0) (v.keyboard.take n).length 0)
      { v with keyboard := v.keyboard.drop n }
  | refused : ReadFrom v buf pos n (.dev .stdout) (-E_INVAL) 0 buf v

theorem vop_io_ran {node : Node} {pos : Int} (ran : vopIo node buf pos n false v = .ok ((ret, alen, out), w)) :
    ReadFrom v buf pos n node ret alen out w := by
  unfold vopIo at ran
  obtain ⟨ops, u, found, ran⟩ := bind_ran ran
  obtain rfl := vop_op_ran found
  cases ops with
  | sfsNodeDirops => cases ran
  | sfsNodeFileops =>
    dsimp only at ran
    unfold sfsIo at ran
    cases node with
    | dev d => cases ran
    | sfs k =>
      rw [run_bind (show sfsInfo (.sfs k) u = .ok (k, u) from rfl)] at ran
      obtain ⟨⟨ret', alen', out'⟩, t, ran', rest⟩ := bind_ran ran
      obtain ⟨_, rest⟩ := check_ran rest
      cases rest
      unfold onSfs at ran'
      cases here : sfsIoNolock k buf pos n false u.sfs with
      | error e =>
        rw [here] at ran'
        cases ran'
      | ok r =>
        obtain ⟨a, s⟩ := r
        rw [here] at ran'
        cases ran'
        exact .file here
  | devNodeOps =>
    dsimp only at ran
    unfold devIo at ran
    cases node with
    | sfs k => cases ran
    | dev d =>
      cases d with
      | stdout =>
        cases ran
        exact .refused
      | stdin =>
        cases ran
        exact .typed

theorem read_from_entry {node : Node} {pos : Int} (read : ReadFrom (v.withEntry fd file) buf pos n node ret alen out w) :
    ∃ u, ReadFrom v buf pos n node ret alen out u ∧ w = u.withEntry fd file ∧ u.current = v.current := by
  cases read with
  | file ran => exact ⟨_, .file ran, rfl, rfl⟩
  | typed => exact ⟨_, .typed, rfl, rfl⟩
  | refused => exact ⟨v, .refused, rfl, rfl⟩

/- The counts of the entry are as before. -/
theorem file_read_ran (legal : OpenToRead v fd) (ran : fileRead fd buf n v = .ok ((ret, alen, out), w)) :
    ∃ node u, (entryOf v fd).node = some node ∧ ReadFrom v buf (entryOf v fd).pos n node ret alen out u ∧
      w = u.withEntry fd { entryOf v fd with pos := (entryOf v fd).pos + alen } := by
  obtain ⟨entry, same⟩ : ∃ entry, entryOf v fd = entry := ⟨_, rfl⟩
  unfold OpenToRead at legal
  rw [same] at legal ⊢
  unfold fileRead fileIo at ran
  obtain ⟨x, u, found, ran⟩ := bind_ran ran
  obtain ⟨rfl, ⟨rfl, _⟩ | ⟨rfl, bad⟩⟩ := fd2file_ran found
  · dsimp only at ran
    rw [run_bind file_of_run, same, if_neg Bool.false_ne_true, if_neg (by simp [legal.2.2])] at ran
    obtain ⟨_, v₁, acquired, ran⟩ := bind_ran ran
    obtain rfl := acquire_ran acquired
    obtain ⟨taken, holds⟩ : ∃ taken, { entry with openCount := entry.openCount + 1 } = taken := ⟨_, rfl⟩
    have opened : taken.status = .opened := by rw [← holds]; exact legal.2.1
    rw [same, holds] at ran
    cases here : entry.node with
    | none =>
      rw [show nodeOf entry = stop .dangling by simp [nodeOf, here]] at ran
      cases ran
    | some node =>
      rw [run_bind (show nodeOf entry _ = .ok (node, _) by simp [nodeOf, here]; rfl)] at ran
      obtain ⟨⟨ret', alen', out'⟩, v₂, transfer, ran⟩ := bind_ran ran
      obtain ⟨t, read, rfl, current⟩ := read_from_entry (vop_io_ran transfer)
      rw [← current] at ran
      have fetched : fileOf ⟨t.current, fd.toNat⟩ (t.withEntry fd taken) = .ok (taken, t.withEntry fd taken) := by
        have := @file_of_run (t.withEntry fd taken) fd
        rwa [entry_with_entry] at this
      have moved : setFile ⟨t.current, fd.toNat⟩ { taken with pos := taken.pos + alen' } (t.withEntry fd taken) =
          .ok ((), t.withEntry fd { taken with pos := taken.pos + alen' }) := by
        have := @set_file_run (t.withEntry fd taken) fd { taken with pos := taken.pos + alen' }
        rwa [with_entry_with_entry] at this
      dsimp only at ran
      rw [run_bind fetched, if_pos opened, run_bind moved] at ran
      obtain ⟨_, v₃, released, ran⟩ := bind_ran ran
      obtain rfl := release_ran (v := t.withEntry fd { taken with pos := taken.pos + alen' })
        (by rw [entry_with_entry]; exact opened) released
      cases ran
      refine ⟨node, t, rfl, read, ?_⟩
      rw [entry_with_entry, with_entry_with_entry, ← holds]
      rfl
  · exact absurd (by unfold OpenToRead; rw [same]; exact legal) bad

end Entries

section Files
variable {s t : Sfs} {F : Set Nat} {k len n alen : Nat} {pos ret : Int} {buf out : DiskBlock}

theorem read_end_le : readEnd s k ≤ (s.inodes k).din.size ∧ readEnd s k ≤ SFS_MAX_FILE_SIZE := by
  unfold readEnd
  omega

theorem available_nat {p : Nat} : available s k p len = min (p + len) (readEnd s k) - p := by
  unfold available
  rw [if_neg (by omega), Int.toNat_natCast]

theorem available_le : available s k pos len ≤ (s.inodes k).din.size - pos.toNat ∧ available s k pos len ≤ len ∧
    available s k pos len ≤ SFS_MAX_FILE_SIZE := by
  have ends := read_end_le (s := s) (k := k)
  unfold available
  split_ifs
  · omega
  · omega

/- A read goes on where the one before it has ended. -/
theorem available_further (part : n ≤ len) (same : readEnd t k = readEnd s k) : available s k pos n +
      available t k (pos + available s k pos n) (len - available s k pos n) = available s k pos len := by
  unfold available
  rw [same]
  by_cases low : pos < 0
  · simp [low]
  · rw [if_neg low, if_neg low, if_neg (by omega)]
    omega

theorem available_short (part : n ≤ len) (short : available s k pos n ≠ n) :
    available s k pos len = available s k pos n := by
  unfold available at *
  by_cases low : pos < 0
  · simp [low]
  · rw [if_neg low] at *
    rw [if_neg low]
    omega

/-- What `sfs_io_nolock` reads of a file, and what it leaves. -/
structure FileRead (F : Set Nat) (s : Sfs) (k : Nat) (pos : Int) (n : Nat) (buf : DiskBlock) (ret : Int) (alen : Nat)
    (out : DiskBlock) (t : Sfs) : Prop where
  maps : BlockMaps t F
  ends : readEnd t k = readEnd s k
  data : fileData t k = fileData s k
  count : alen = available s k pos n
  bytes : out = overlay buf (fileFrom s k pos.toNat) alen 0
  code : ret ≤ 0 ∧ (0 < n → alen = n → ret = 0)
  within : alen ≠ 0 → pos + alen ≤ (maxBlocks * SFS_BLKSIZE : Nat)

theorem io_end_read {p : Nat} (short : n ≤ SFS_BLKSIZE) (below : p < SFS_MAX_FILE_SIZE) :
    i64 ((p : Int) + n) = (p + n : Nat) ∧
      ioEnd (s.inodes k).din.size false p n = min (min (p + n) SFS_MAX_FILE_SIZE) (s.inodes k).din.size := by
  have same : i64 ((p : Int) + n) = (p + n : Nat) := by
    unfold i64
    unfold SFS_MAX_FILE_SIZE SFS_BLKSIZE at *
    omega
  refine ⟨same, ?_⟩
  unfold ioEnd
  rw [same, Int.toNat_natCast]
  rfl

theorem read_outcome {r : Except SfsStop (Answer × Sfs)} (maps : BlockMaps s F) (mem : k ∈ F)
    (short : n ≤ SFS_BLKSIZE) (outcome : IoOutcome F s k buf pos n false r) (ok : r = .ok ((ret, alen, out), t)) :
    FileRead F s k pos n buf ret alen out t := by
  cases outcome with
  | invalid bad =>
    cases ok
    have none : available s k pos n = 0 := by
      by_cases low : pos < 0
      · exact if_pos low
      · obtain ⟨p, rfl⟩ := Int.eq_ofNat_of_zero_le (not_lt.mp low)
        have ends := read_end_le (s := s) (k := k)
        have far : SFS_MAX_FILE_SIZE ≤ p := by
          by_contra near
          have := (io_end_read (s := s) (k := k) short (not_le.mp near)).1
          omega
        rw [available_nat]
        omega
    exact ⟨maps, rfl, rfl, none.symm, overlay_nothing.symm, ⟨by decide, fun some same => by omega⟩,
      fun some => absurd rfl some⟩
  | nothing good empty =>
    cases ok
    obtain ⟨p, rfl⟩ := Int.eq_ofNat_of_zero_le good.1
    rw [Int.toNat_natCast, (io_end_read short (by omega)).2] at empty
    have none : available s k p n = 0 := by
      rw [available_nat]
      unfold readEnd
      omega
    exact ⟨maps, rfl, rfl, none.symm, overlay_nothing.symm, ⟨le_refl _, fun _ _ => rfl⟩, fun some => absurd rfl some⟩
  | moved u good some start within near written =>
    obtain ⟨answer, after⟩ := Prod.mk.inj (Except.ok.inj ok)
    obtain ⟨code, answer⟩ := Prod.mk.inj answer
    obtain ⟨count, bytes⟩ := Prod.mk.inj answer
    obtain ⟨p, rfl⟩ := Int.eq_ofNat_of_zero_le good.1
    have below : p < SFS_MAX_FILE_SIZE := by omega
    rw [Int.toNat_natCast, (io_end_read short below).2] at *
    have reach := served_le (s := s) (k := k) some.le
    have serves : served s k p (min (min (p + n) SFS_MAX_FILE_SIZE) (s.inodes k).din.size) = available s k p n := by
      rw [available_nat]
      unfold served readEnd
      omega
    unfold sized at after
    rw [if_neg (by omega)] at after
    subst after
    refine ⟨written.maps, ?_, ?_, by rw [← count, Nat.zero_add, serves], ?_, ?_, fun _ => ?_⟩
    · unfold readEnd
      rw [grown_limit (maps.map k mem) written.grown, written.size]
    · rw [written.data, if_neg Bool.false_ne_true]
      funext j
      unfold splice
      exact ite_self _
    · rw [← bytes, ← count, Nat.zero_add]
      rfl
    · rw [← code]
      split_ifs with enough
      · exact ⟨le_refl _, fun _ _ => rfl⟩
      · refine ⟨by decide, fun _ whole => absurd whole ?_⟩
        unfold served at count
        omega
    · unfold PastEnd at within
      unfold served at count
      unfold SFS_BLKSIZE at *
      omega
  | stuck u good some start within far idle =>
    obtain ⟨answer, after⟩ := Prod.mk.inj (Except.ok.inj ok)
    cases answer
    obtain ⟨p, rfl⟩ := Int.eq_ofNat_of_zero_le good.1
    have below : p < SFS_MAX_FILE_SIZE := by omega
    rw [Int.toNat_natCast, (io_end_read short below).2] at *
    have none : available s k p n = 0 := by
      rw [available_nat]
      unfold readEnd
      omega
    unfold sized at after
    rw [if_neg (by omega)] at after
    subst after
    refine ⟨idle_maps maps idle, ?_, idle_data maps idle mem, none.symm, overlay_nothing.symm,
      ⟨by decide, fun some same => by omega⟩, fun some => absurd rfl some⟩
    unfold readEnd
    rw [grown_limit (maps.map k mem) (idle_grown maps mem idle), idle.inodes]
  | beyond good some far => cases ok
  | pastEnd good some start past => cases ok

theorem io_read (maps : BlockMaps s F) (mem : (s.inodes k).din.type ≠ .dir → k ∈ F) (short : n ≤ SFS_BLKSIZE)
    (ran : sfsIoNolock k buf pos n false s = .ok ((ret, alen, out), t)) :
    k ∈ F ∧ FileRead F s k pos n buf ret alen out t := by
  have file : (s.inodes k).din.type ≠ .dir := by
    unfold sfsIoNolock at ran
    rw [run_bind inode_run] at ran
    exact (check_ran ran).1
  exact ⟨mem file, read_outcome maps (mem file) short (io_outcome maps (mem file) file buf pos n false) ran⟩

end Files

section Loop
variable {v w : Vfs} {F : Set Nat} {fd : Int} {k n alen copied len turns : Nat} {ret r : Int} {user : Nat → Bool}
  {buf old out : DiskBlock}

theorem file_turn (legal : OpenToRead v fd) (node : (entryOf v fd).node = some (.sfs k)) (maps : BlockMaps v.sfs F)
    (mem : (v.sfs.inodes k).din.type ≠ .dir → k ∈ F) (short : n ≤ SFS_BLKSIZE)
    (ran : fileRead fd buf n v = .ok ((ret, alen, out), w)) :
    k ∈ F ∧ ∃ t, FileRead F v.sfs k (entryOf v fd).pos n buf ret alen out t ∧
      w = { v with sfs := t }.withEntry fd { entryOf v fd with pos := (entryOf v fd).pos + alen } := by
  obtain ⟨node', u, here, read, rfl⟩ := file_read_ran legal ran
  obtain rfl := Option.some.inj (node.symm.trans here)
  cases read with
  | file done =>
    obtain ⟨mem, read⟩ := io_read maps mem short done
    exact ⟨mem, _, read, rfl⟩

/- Every piece of `len` bytes of the user that something is found for can be written. -/
def Writable (user : Nat → Bool) (copied found : Nat) : Prop :=
  ∀ c < found, IOBUF_SIZE ∣ c → user (copied + c) = true

theorem writable_first {found : Nat} (few : found ≤ IOBUF_SIZE) : Writable user copied found ↔ (0 < found → user copied = true) := by
  constructor
  · intro all some
    exact all 0 some (dvd_zero _)
  · intro first c below whole
    obtain rfl : c = 0 := Nat.eq_zero_of_dvd_of_lt whole (by omega)
    exact first below

theorem writable_further {found : Nat} (here : user copied = true) :
    Writable user copied (IOBUF_SIZE + found) ↔ Writable user (copied + IOBUF_SIZE) found := by
  constructor
  · intro all c below whole
    rw [Nat.add_assoc]
    exact all _ (by omega) (Nat.dvd_add (dvd_refl _) whole)
  · intro rest c below whole
    by_cases first : c < IOBUF_SIZE
    · obtain rfl : c = 0 := Nat.eq_zero_of_dvd_of_lt whole first
      exact here
    · have := rest (c - IOBUF_SIZE) (by omega) (Nat.dvd_sub whole (dvd_refl _))
      rwa [show copied + IOBUF_SIZE + (c - IOBUF_SIZE) = copied + c by omega] at this

/-- `n` bytes have been stored and the position has moved by `m`. -/
structure Turned (v : Vfs) (fd : Int) (k : Nat) (user : Nat → Bool) (copied len : Nat) (old : DiskBlock) (r : Int)
    (out : DiskBlock) (w : Vfs) (n m : Nat) (ret : Int) : Prop where
  answer : r = transferred (copied + n) ret
  code : ret ≤ 0
  found : n ≤ available v.sfs k (entryOf v fd).pos len
  bytes : out = overlay old (fileFrom v.sfs k (entryOf v fd).pos.toNat) n copied
  moved : (entryOf w fd).pos = (entryOf v fd).pos + m
  keyboard : w.keyboard = v.keyboard
  lost : n ≠ m → n < m ∧ ret < 0
  whole : n = m ↔ Writable user copied (available v.sfs k (entryOf v fd).pos len)

theorem turned_nothing (none : available v.sfs k (entryOf v fd).pos len = 0) (code : ret ≤ 0)
    (still : (entryOf w fd).pos = (entryOf v fd).pos) (keyboard : w.keyboard = v.keyboard) :
    Turned v fd k user copied len old (transferred copied ret) old w 0 0 ret where
  answer := rfl
  code := code
  found := Nat.zero_le _
  bytes := overlay_nothing.symm
  moved := by rw [still]; exact (Int.add_zero _).symm
  keyboard := keyboard
  lost ne := absurd rfl ne
  whole := by
    rw [none]
    exact ⟨fun _ c below => absurd below (Nat.not_lt_zero c), fun _ => rfl⟩

/- The first piece, and the rest. -/
theorem turned_further {u : Vfs} (here : user copied = true) (some : 0 < alen) (few : alen ≤ IOBUF_SIZE)
    (data : fileData u.sfs k = fileData v.sfs k) (pos : (entryOf u fd).pos = (entryOf v fd).pos + alen)
    (keyboard : u.keyboard = v.keyboard) (found : alen = available v.sfs k (entryOf v fd).pos n)
    (further : alen + available u.sfs k (entryOf u fd).pos (len - alen) = available v.sfs k (entryOf v fd).pos len)
    (split : alen = IOBUF_SIZE ∨ available u.sfs k (entryOf u fd).pos (len - alen) = 0) {n m : Nat}
    (later : Turned u fd k user (copied + alen) (len - alen)
      (overlay old (fileFrom v.sfs k (entryOf v fd).pos.toNat) alen copied) r out w n m ret) :
    Turned v fd k user copied len old r out w (alen + n) (alen + m) ret := by
  have low : 0 ≤ (entryOf v fd).pos := by
    by_contra below
    rw [available, if_pos (not_le.mp below)] at found
    omega
  have shifted : fileFrom u.sfs k (entryOf u fd).pos.toNat =
      fun j => fileFrom v.sfs k (entryOf v fd).pos.toNat (alen + j) := by
    funext j
    unfold fileFrom
    rw [data, pos]
    congr 1
    omega
  refine ⟨?_, later.code, ?_, ?_, ?_, later.keyboard.trans keyboard, ?_, ?_⟩
  · rw [later.answer, Nat.add_assoc]
  · have := later.found
    omega
  · rw [later.bytes, shifted, overlay_overlay]
  · rw [later.moved, pos]
    push_cast
    ring
  · intro ne
    have := later.lost fun same => ne (by rw [same])
    exact ⟨by omega, this.2⟩
  · rw [Nat.add_left_cancel_iff, later.whole, ← further]
    rcases split with full | none
    · rw [full, writable_further here]
    · rw [none, Nat.add_zero, writable_first few, writable_first (Nat.zero_le _)]
      exact ⟨fun _ _ => here, fun _ empty => absurd empty (lt_irrefl 0)⟩

theorem read_loop_turned (enough : len ≤ turns) (legal : OpenToRead v fd) (node : (entryOf v fd).node = some (.sfs k))
    (maps : BlockMaps v.sfs F) (mem : (v.sfs.inodes k).din.type ≠ .dir → k ∈ F)
    (ran : sysfileReadLoop fd user turns len copied buf old v = .ok ((r, out), w)) :
    ∃ n m ret, Turned v fd k user copied len old r out w n m ret := by
  have nothing : ∀ {s pos}, available s k pos 0 = 0 := by
    intro s pos
    have := (@available_le s k 0 pos).2.1
    omega
  induction turns generalizing len copied buf old v with
  | zero =>
    obtain rfl : len = 0 := by omega
    cases ran
    exact ⟨0, 0, 0, turned_nothing nothing (le_refl _) rfl rfl⟩
  | succ turns ih =>
    unfold sysfileReadLoop at ran
    by_cases empty : len = 0
    · subst empty
      rw [if_pos rfl] at ran
      cases ran
      exact ⟨0, 0, 0, turned_nothing nothing (le_refl _) rfl rfl⟩
    · rw [if_neg empty] at ran
      obtain ⟨⟨ret, alen, buf'⟩, u, turn, ran⟩ := bind_ran ran
      have short : min IOBUF_SIZE len ≤ SFS_BLKSIZE := min_le_left _ _
      obtain ⟨here_file, t, read, rfl⟩ := file_turn legal node maps mem short turn
      have count := read.count
      have part : min IOBUF_SIZE len ≤ len := min_le_right _ _
      have positive : 0 < min IOBUF_SIZE len := by
        unfold IOBUF_SIZE
        omega
      have most := (@available_le v.sfs k (min IOBUF_SIZE len) (entryOf v fd).pos).2.1
      have further := @available_further v.sfs t k _ _ (entryOf v fd).pos part read.ends
      have stop : available v.sfs k (entryOf v fd).pos (min IOBUF_SIZE len) ≠ min IOBUF_SIZE len →
          available v.sfs k (entryOf v fd).pos len = available v.sfs k (entryOf v fd).pos (min IOBUF_SIZE len) :=
        available_short part
      rw [← count] at most further stop
      have seen : overlay old buf' alen copied = overlay old (fileFrom v.sfs k (entryOf v fd).pos.toNat) alen copied := by
        rw [read.bytes]
        refine overlay_congr fun j low => ?_
        unfold overlay
        rw [if_pos (by omega)]
        rfl
      dsimp only at ran
      by_cases none : alen = 0
      · rw [if_pos none] at ran
        have ended : available v.sfs k (entryOf v fd).pos len = 0 := (stop (by omega)).trans none
        cases ran
        exact ⟨0, 0, ret, turned_nothing ended read.code.1 (by simp [none]) rfl⟩
      · rw [if_neg none] at ran
        have first : 0 < available v.sfs k (entryOf v fd).pos len := by omega
        by_cases here : user copied = true
        · rw [if_pos here] at ran
          obtain ⟨_, ran⟩ := check_ran ran
          by_cases fine : ret = 0
          · rw [if_neg (not_not.mpr fine), seen] at ran
            obtain ⟨u, after⟩ : ∃ u, { v with sfs := t }.withEntry fd
              { entryOf v fd with pos := (entryOf v fd).pos + alen } = u := ⟨_, rfl⟩
            have entry : entryOf u fd = { entryOf v fd with pos := (entryOf v fd).pos + alen } := by
              rw [← after, entry_with_entry]
            have volume : u.sfs = t := by rw [← after]; rfl
            have keyboard : u.keyboard = v.keyboard := by rw [← after]; rfl
            rw [after] at ran
            obtain ⟨n, m, ret, later⟩ := ih (by omega) (by unfold OpenToRead; rw [entry]; exact legal)
              (by rw [entry]; exact node) (by rw [volume]; exact read.maps) (fun _ => here_file) ran
            have pos : (entryOf u fd).pos = (entryOf v fd).pos + alen := by rw [entry]
            refine ⟨alen + n, alen + m, ret, turned_further here (by omega) (by omega) (by rw [volume]; exact read.data)
              pos keyboard count (by rw [volume, pos]; exact further) ?_ later⟩
            rw [volume, pos]
            by_cases full : alen = IOBUF_SIZE
            · exact .inl full
            · refine .inr ?_
              by_cases whole : alen = min IOBUF_SIZE len
              · rw [show len - alen = 0 by omega]
                exact nothing
              · have := stop whole
                omega
          · rw [if_pos fine] at ran
            have last := stop fun full => fine (read.code.2 positive full)
            cases ran
            refine ⟨alen, alen, ret, rfl, read.code.1, by omega, seen, by simp, rfl, fun ne => absurd rfl ne, ?_⟩
            rw [last, writable_first (by omega)]
            exact ⟨fun _ _ => here, fun _ => rfl⟩
        · rw [if_neg here] at ran
          cases ran
          refine ⟨0, alen, _, rfl, ?_, Nat.zero_le _, overlay_nothing.symm, by simp, rfl, fun _ => ⟨by omega, ?_⟩, ?_⟩
          · have := read.code.1
            split_ifs
            · decide
            · exact this
          · have := read.code.1
            split_ifs
            · decide
            · omega
          · exact ⟨fun same => absurd same.symm none, fun all => absurd (all 0 first (dvd_zero _)) here⟩

/- The memory of the user decides nothing. -/
theorem read_loop_any (ran : sysfileReadLoop fd user turns len copied buf old v = .ok ((r, out), w)) (old' : DiskBlock) :
    ∃ out', sysfileReadLoop fd user turns len copied buf old' v = .ok ((r, out'), w) := by
  induction turns generalizing len copied buf old old' v with
  | zero =>
    cases ran
    exact ⟨old', rfl⟩
  | succ turns ih =>
    unfold sysfileReadLoop at ran ⊢
    by_cases empty : len = 0
    · rw [if_pos empty] at ran ⊢
      cases ran
      exact ⟨old', rfl⟩
    · rw [if_neg empty] at ran ⊢
      obtain ⟨⟨ret, alen, buf'⟩, u, turn, ran⟩ := bind_ran ran
      rw [run_bind turn]
      dsimp only at ran ⊢
      by_cases none : alen = 0
      · rw [if_pos none] at ran ⊢
        cases ran
        exact ⟨old', rfl⟩
      · rw [if_neg none] at ran ⊢
        by_cases here : user copied = true
        · rw [if_pos here] at ran ⊢
          obtain ⟨within, ran⟩ := check_ran ran
          rw [run_check_bind within]
          by_cases fine : ret ≠ 0
          · rw [if_pos fine] at ran ⊢
            cases ran
            exact ⟨_, rfl⟩
          · rw [if_neg fine] at ran ⊢
            exact ih ran _
        · rw [if_neg here] at ran ⊢
          cases ran
          exact ⟨old', rfl⟩

/-- `n` bytes have been stored and the position has moved by `m`. -/
structure ReadResult (v : Vfs) (fd : Int) (len : Nat) (user : Nat → Bool) (old : DiskBlock) (r : Int) (out : DiskBlock)
    (w : Vfs) (n m : Nat) (ret : Int) : Prop where
  answer : r = transferred n ret
  found : n ≤ offered v fd len
  bytes : out = overlay old (following v fd) n 0
  moved : (entryOf w fd).pos = (entryOf v fd).pos + m
  keyboard : w.keyboard = unread v fd m
  code : n = m → n = 0 → ret ≤ 0
  lost : n ≠ m → n < m ∧ (n = 0 → ret ≠ 0)
  whole : n = m ↔ Writable user 0 (offered v fd len)

theorem file_result (legal : OpenToRead v fd) (node : (entryOf v fd).node = some (.sfs k)) (maps : BlockMaps v.sfs F)
    (mem : (v.sfs.inodes k).din.type ≠ .dir → k ∈ F)
    (ran : sysfileReadLoop fd user len len 0 buf old v = .ok ((r, out), w)) :
    ∃ n m ret, ReadResult v fd len user old r out w n m ret := by
  obtain ⟨n, m, ret, turned⟩ := read_loop_turned (le_refl len) legal node maps mem ran
  have found : offered v fd len = available v.sfs k (entryOf v fd).pos len := by
    unfold offered
    rw [if_pos legal, node]
  have bytes : following v fd = fileFrom v.sfs k (entryOf v fd).pos.toNat := by
    unfold following
    rw [node]
  refine ⟨n, m, ret, ?_, ?_, ?_, turned.moved, ?_, fun _ _ => turned.code, fun ne => ?_, ?_⟩
  · rw [turned.answer, Nat.zero_add]
  · rw [found]
    exact turned.found
  · rw [bytes]
    exact turned.bytes
  · unfold unread
    rw [turned.keyboard, node, if_neg (by simp)]
  · have := turned.lost ne
    exact ⟨this.1, fun _ => by omega⟩
  · rw [found]
    exact turned.whole

theorem typed_bytes {keys : List UInt8} : overlay old
      (overlay buf (fun i => (keys.take n).getD i 0) (keys.take n).length 0) (keys.take n).length 0 =
    overlay old (fun i => keys.getD i 0) (keys.take n).length 0 := by
  refine overlay_congr fun j low => ?_
  have below : j < n := by
    rw [List.length_take] at low
    omega
  unfold overlay
  rw [if_pos (by omega)]
  simp [List.getD_eq_getElem?_getD, below]

theorem typed_left {keys : List UInt8} : keys.drop n = keys.drop (keys.take n).length := by
  rw [List.length_take]
  rcases Nat.le_total n keys.length with few | many
  · rw [Nat.min_eq_left few]
  · rw [Nat.min_eq_right many, List.drop_of_length_le many, List.drop_length]

theorem device_result {d : Device} (legal : OpenToRead v fd) (node : (entryOf v fd).node = some (.dev d)) (some : len ≠ 0)
    (ran : sysfileReadLoop fd user len len 0 buf old v = .ok ((r, out), w)) :
    ∃ n m ret, ReadResult v fd len user old r out w n m ret := by
  obtain ⟨turns, positive⟩ : ∃ turns, len = turns + 1 := ⟨len - 1, by omega⟩
  rw [positive] at ran
  unfold sysfileReadLoop at ran
  rw [if_neg (by omega), ← positive] at ran
  obtain ⟨⟨ret, alen, buf'⟩, u, turn, ran⟩ := bind_ran ran
  dsimp only at ran
  obtain ⟨node', t, here, read, rfl⟩ := file_read_ran legal turn
  obtain rfl := Option.some.inj (node.symm.trans here)
  have found : offered v fd len = if d = .stdin then min (min IOBUF_SIZE len) v.keyboard.length else 0 := by
    unfold offered
    rw [if_pos legal, node]
    cases d <;> rfl
  cases read with
  | refused =>
    rw [if_pos rfl] at ran
    cases ran
    refine ⟨0, 0, -E_INVAL, rfl, Nat.zero_le _, overlay_nothing.symm, by simp, ?_, fun _ _ => by decide,
      fun ne => absurd rfl ne, ?_⟩
    · unfold unread
      rw [node, if_neg (by simp)]
      rfl
    · rw [found, if_neg (by decide)]
      exact ⟨fun _ c below => absurd below (Nat.not_lt_zero c), fun _ => rfl⟩
  | typed =>
    have bytes : following v fd = fun i => v.keyboard.getD i 0 := by
      unfold following
      simp only [node]
    have left : unread v fd (v.keyboard.take (min IOBUF_SIZE len)).length = v.keyboard.drop (min IOBUF_SIZE len) := by
      unfold unread
      rw [if_pos node, ← typed_left]
    have count : (v.keyboard.take (min IOBUF_SIZE len)).length = offered v fd len := by
      rw [found, if_pos rfl, List.length_take]
    obtain ⟨alen, alen_eq⟩ : ∃ alen, (v.keyboard.take (min IOBUF_SIZE len)).length = alen := ⟨_, rfl⟩
    have stored := @typed_bytes (min IOBUF_SIZE len) buf old v.keyboard
    rw [alen_eq] at ran left count stored
    have few : alen ≤ IOBUF_SIZE := by
      rw [← alen_eq, List.length_take]
      omega
    by_cases none : alen = 0
    · rw [if_pos none] at ran
      cases ran
      refine ⟨0, 0, alen, rfl, Nat.zero_le _, overlay_nothing.symm, by simp [none], ?_, fun _ _ => by omega,
        fun ne => absurd rfl ne, ?_⟩
      · rw [← none, left]
        rfl
      · rw [← count, none]
        exact ⟨fun _ c below => absurd below (Nat.not_lt_zero c), fun _ => rfl⟩
    · rw [if_neg none] at ran
      by_cases writable : user 0 = true
      · rw [if_pos writable] at ran
        obtain ⟨_, ran⟩ := check_ran ran
        rw [if_pos (show ((alen : Int) ≠ 0) by omega), Nat.zero_add, stored] at ran
        cases ran
        refine ⟨alen, alen, alen, rfl, by omega, by rw [bytes], by simp, ?_, fun _ _ => by omega,
          fun ne => absurd rfl ne, ?_⟩
        · rw [left]
          rfl
        · rw [← count, writable_first few]
          exact ⟨fun _ _ => writable, fun _ => rfl⟩
      · rw [if_neg writable, if_neg (by omega)] at ran
        cases ran
        refine ⟨0, alen, alen, rfl, Nat.zero_le _, overlay_nothing.symm, by simp, ?_, fun same => absurd same.symm none,
          fun _ => ⟨by omega, fun _ => by omega⟩, ?_⟩
        · rw [left]
          rfl
        · rw [← count]
          exact ⟨fun same => absurd same.symm none, fun all => absurd (all 0 (by omega) (dvd_zero _)) writable⟩

theorem loop_result (legal : OpenToRead v fd) (asked : len ≠ 0) (maps : BlockMaps v.sfs F)
    (mem : ∀ k, (entryOf v fd).node = some (.sfs k) → (v.sfs.inodes k).din.type ≠ .dir → k ∈ F)
    (ran : sysfileReadLoop fd user len len 0 buf old v = .ok ((r, out), w)) :
    ∃ n m ret, ReadResult v fd len user old r out w n m ret := by
  cases node : (entryOf v fd).node with
  | none =>
    obtain ⟨turns, positive⟩ : ∃ turns, len = turns + 1 := ⟨len - 1, by omega⟩
    rw [positive] at ran
    unfold sysfileReadLoop at ran
    rw [if_neg (by omega)] at ran
    obtain ⟨⟨ret, alen, buf'⟩, u, turn, _⟩ := bind_ran ran
    obtain ⟨_, _, here, _⟩ := file_read_ran legal turn
    rw [node] at here
    cases here
  | some node' =>
    cases node' with
    | dev d => exact device_result legal node asked ran
    | sfs k => exact file_result legal node maps (mem k node) ran

theorem offered_le : offered v fd len ≤ len ∧ offered v fd len ≤ remaining v fd ∧ offered v fd len ≤ SFS_MAX_FILE_SIZE := by
  unfold offered remaining
  by_cases legal : OpenToRead v fd
  · rw [if_pos legal]
    rcases (entryOf v fd).node with _ | ⟨_ | _⟩ | k
    · exact ⟨Nat.zero_le _, Nat.zero_le _, Nat.zero_le _⟩
    · have small : IOBUF_SIZE ≤ SFS_MAX_FILE_SIZE := by decide
      dsimp only
      omega
    · exact ⟨Nat.zero_le _, Nat.zero_le _, Nat.zero_le _⟩
    · have := @available_le v.sfs k len (entryOf v fd).pos
      exact ⟨this.2.1, this.1, this.2.2⟩
  · rw [if_neg legal]
    exact ⟨Nat.zero_le _, Nat.zero_le _, Nat.zero_le _⟩

theorem read_result (maps : BlockMaps v.sfs F)
    (mem : ∀ k, (entryOf v fd).node = some (.sfs k) → (v.sfs.inodes k).din.type ≠ .dir → k ∈ F)
    (ran : sysfileRead fd len user old v = .ok ((r, out), w)) :
    r ≤ 0 ∧ out = old ∧ (entryOf w fd).pos = (entryOf v fd).pos ∧ w.keyboard = v.keyboard ∧
        (v.memory 0 = false ∨ offered v fd len = 0) ∨
      v.memory 0 = true ∧ ∃ n m ret, ReadResult v fd len user old r out w n m ret := by
  unfold sysfileRead at ran
  by_cases empty : len = 0
  · rw [if_pos empty] at ran
    have nothing : offered v fd len = 0 := by
      have := @offered_le v fd len
      omega
    cases ran
    exact .inl ⟨le_refl _, rfl, rfl, rfl, .inr nothing⟩
  · rw [if_neg empty] at ran
    obtain ⟨b, u, tested, rest⟩ := bind_ran ran
    obtain ⟨rfl, legality⟩ := testfd_ran tested
    by_cases legal : OpenToRead u fd
    · rw [legality.mpr legal, if_neg (by simp),
        run_bind (show kmalloc u = .ok (u.memory 0, { u with memory := fun i => u.memory (i + 1) }) from rfl)] at rest
      cases memory : u.memory 0 with
      | false =>
        rw [memory] at rest
        cases rest
        exact .inl ⟨by decide, rfl, rfl, rfl, .inl rfl⟩
      | true =>
        rw [memory, if_neg (by simp)] at rest
        obtain ⟨n, m, ret, result⟩ := loop_result (v := { u with memory := fun i => u.memory (i + 1) }) legal empty maps mem rest
        exact .inr ⟨rfl, n, m, ret, result.answer, result.found, result.bytes, result.moved, result.keyboard, result.code,
          result.lost, result.whole⟩
    · have closed : b = false := by
        cases b
        · rfl
        · exact absurd (legality.mp rfl) legal
      rw [closed, if_pos (by simp)] at rest
      cases rest
      refine .inl ⟨by decide, rfl, rfl, rfl, .inr ?_⟩
      unfold offered
      exact if_neg legal

theorem read_any (ran : sysfileRead fd len user old v = .ok ((r, out), w)) (old' : DiskBlock) :
    ∃ out', sysfileRead fd len user old' v = .ok ((r, out'), w) := by
  unfold sysfileRead at ran ⊢
  by_cases empty : len = 0
  · rw [if_pos empty] at ran ⊢
    cases ran
    exact ⟨old', rfl⟩
  · rw [if_neg empty] at ran ⊢
    obtain ⟨b, u, tested, ran⟩ := bind_ran ran
    rw [run_bind tested]
    by_cases closed : (!b) = true
    · rw [if_pos closed] at ran ⊢
      cases ran
      exact ⟨old', rfl⟩
    · rw [if_neg closed] at ran ⊢
      obtain ⟨got, u', found, ran⟩ := bind_ran ran
      rw [run_bind found]
      by_cases none : (!got) = true
      · rw [if_pos none] at ran ⊢
        cases ran
        exact ⟨old', rfl⟩
      · rw [if_neg none] at ran ⊢
        exact read_loop_any ran old'

end Loop

section Main
variable {v w : Vfs} {F : Set Nat} {fd : Int} {len n m : Nat} {ret r : Int} {user : Nat → Bool} {old out : DiskBlock}

theorem nothing_delivered (code : r ≤ 0) (bytes : out = old) (still : (entryOf w fd).pos = (entryOf v fd).pos)
    (keyboard : w.keyboard = v.keyboard) : Delivered v fd old r out w := by
  refine ⟨fun low => ?_, fun low => ?_, fun _ => ⟨still, keyboard⟩⟩
  · obtain rfl : r = 0 := by omega
    exact ⟨Nat.zero_le _, bytes.trans overlay_nothing.symm⟩
  · obtain rfl : r = 0 := by omega
    refine ⟨still.trans (Int.add_zero _).symm, keyboard.trans ?_⟩
    unfold unread
    split_ifs <;> rfl

theorem whole_delivered (result : ReadResult v fd len user old r out w n n ret) : Delivered v fd old r out w := by
  have found := result.found
  have bounds := @offered_le v fd len
  by_cases none : n = 0
  · subst none
    have answer : r = ret := result.answer
    refine nothing_delivered (by rw [answer]; exact result.code rfl rfl) (result.bytes.trans overlay_nothing) ?_ ?_
    · rw [result.moved]
      exact Int.add_zero _
    · rw [result.keyboard]
      unfold unread
      split_ifs <;> rfl
  · have small : SFS_MAX_FILE_SIZE < 2147483648 := by decide
    have answer : r = n := by
      rw [result.answer, transferred, if_pos none, i32_exact (by omega) (by omega)]
    refine ⟨fun _ => ?_, fun _ => ?_, fun negative => by omega⟩
    · rw [answer, Int.toNat_natCast]
      exact ⟨by omega, result.bytes⟩
    · rw [answer, Int.toNat_natCast]
      exact ⟨result.moved, result.keyboard⟩

/- Where fewer bytes are stored than the position moves by, some memory shows it. -/
theorem lost_not_delivered (result : ReadResult v fd len user old r out w n m ret) (ne : n ≠ m)
    (differs : old 0 ≠ following v fd 0) : ¬ Delivered v fd old r out w := by
  intro delivered
  have found := result.found
  have bounds := @offered_le v fd len
  have small : SFS_MAX_FILE_SIZE < 2147483648 := by decide
  obtain ⟨less, code⟩ := result.lost ne
  have moved := result.moved
  by_cases none : n = 0
  · have answer : r = ret := by
      rw [result.answer, none]
      rfl
    rcases lt_trichotomy r 0 with negative | zero | positive
    · have := (delivered.failed negative).1
      omega
    · exact code none (answer ▸ zero)
    · have stored := (delivered.stored positive.le).2
      rw [result.bytes, none, overlay_nothing] at stored
      refine differs ((congrFun stored 0).trans ?_)
      unfold overlay
      rw [if_pos (by omega)]
  · have answer : r = n := by
      rw [result.answer, transferred, if_pos none, i32_exact (by omega) (by omega)]
    have := (delivered.advanced (by omega)).1
    omega

/-- A read loses nothing if the buffer cannot be had, or every piece of the user's memory that there are bytes for
can be written. -/
theorem reads_lose_nothing (maps : BlockMaps v.sfs F)
    (mem : ∀ k, (entryOf v fd).node = some (.sfs k) → (v.sfs.inodes k).din.type ≠ .dir → k ∈ F)
    (returns : sysfileRead fd len user old v = .ok ((r, out), w)) :
    Lossless v fd len user ↔ v.memory 0 = false ∨ Writable user 0 (offered v fd len) := by
  constructor
  · intro lossless
    obtain ⟨old', differs⟩ : ∃ old' : DiskBlock, old' 0 ≠ following v fd 0 :=
      ⟨fun _ => following v fd 0 + 1, by simp⟩
    obtain ⟨out', ran⟩ := read_any returns old'
    have delivered := lossless _ _ _ _ ran
    rcases read_result maps mem ran with ⟨_, _, _, _, none | nothing⟩ | ⟨_, n, m, ret, result⟩
    · exact .inl none
    · refine .inr fun c below => ?_
      rw [nothing] at below
      exact absurd below (Nat.not_lt_zero c)
    · refine .inr (result.whole.mp ?_)
      by_contra ne
      exact lost_not_delivered result ne differs delivered
  · rintro fine old' r' out' w' ran
    rcases read_result maps mem ran with ⟨code, bytes, still, keyboard, _⟩ | ⟨memory, n, m, ret, result⟩
    · exact nothing_delivered code bytes still keyboard
    · obtain none | writable := fine
      · rw [memory] at none
        cases none
      · obtain rfl := result.whole.mpr writable
        exact whole_delivered result

end Main

/-- A file of one byte, in block 4. -/
def oneByte : Sfs :=
  smallVolume fun _ => { emptyFile with size := 1, blocks := 1, direct := fun i => if i = 0 then 4 else 0 }

/-- A process that has opened it. -/
def reader : Vfs where
  sfs := oneByte
  inodes := fun _ => some ⟨1, 1, .sfsNodeFileops, 1⟩
  bootfs := none
  procs := {0}
  files := fun _ => ⟨none, fun _ => ⟨.opened, true, false, 0, some (.sfs 1), 1⟩, 1⟩
  current := 0
  memory := fun _ => true
  keyboard := []

/- What the call returns, and the position that it leaves. -/
def readOutcome (len : Nat) (user : Nat → Bool) : Option (Int × Int) :=
  (sysfileRead 0 len user (fun _ => 0) reader).toOption.map fun x => (x.1.1, (entryOf x.2 0).pos)

theorem read_of_outcome {len : Nat} {user : Nat → Bool} {r pos : Int} (outcome : readOutcome len user = some (r, pos)) :
    ∃ out w, sysfileRead 0 len user (fun _ => 0) reader = .ok ((r, out), w) ∧ (entryOf w 0).pos = pos := by
  obtain ⟨⟨⟨r', out⟩, w⟩, ran, same⟩ := Option.map_eq_some_iff.mp outcome
  obtain ⟨rfl, rfl⟩ := Prod.mk.inj same
  cases run : sysfileRead 0 len user (fun _ => 0) reader with
  | error e =>
    rw [run] at ran
    cases ran
  | ok x =>
    rw [run] at ran
    cases ran
    exact ⟨out, w, rfl, rfl⟩

theorem one_byte_maps : BlockMaps oneByte {1} := by
  have null : ∀ i, i ≠ 0 → pointer oneByte 1 (.data i) = 0 := by
    intro i ne
    simp [pointer, oneByte, smallVolume, emptyFile, ne]
  have first : ∀ a : Slot, pointer oneByte 1 a ≠ 0 → a = .data 0 := by
    intro a nonzero
    cases a with
    | data i =>
      by_cases zero : i = 0
      · rw [zero]
      · exact absurd (null i zero) nonzero
    | entries => exact absurd rfl nonzero
  refine ⟨small_volume _, ?_, ?_⟩
  · rintro k rfl
    refine ⟨by decide, ?_, fun i high _ => null i (Nat.pos_iff_ne_zero.mp high), fun some => absurd rfl some⟩
    decide
  · rintro f rfl g rfl a b _ _ nonzero same
    exact ⟨rfl, (first a nonzero).trans (first b (same ▸ nonzero)).symm⟩

theorem one_byte_delivered : readOutcome 2 (fun _ => true) = some (1, 1) ∧ Lossless reader 0 2 fun _ => true := by
  have outcome : readOutcome 2 (fun _ => true) = some (1, 1) := by decide +kernel
  obtain ⟨out, w, ran, _⟩ := read_of_outcome outcome
  refine ⟨outcome, (reads_lose_nothing one_byte_maps (fun k here _ => ?_) ran).mpr (.inr fun c _ _ => rfl)⟩
  cases here
  exact Set.mem_singleton 1

/- The byte is read, and the memory of the user cannot be written. -/
theorem one_byte_lost : ¬ Lossless reader 0 1 fun _ => false := by
  intro lossless
  obtain ⟨out, w, ran, pos⟩ := read_of_outcome (show readOutcome 1 (fun _ => false) = some (-3, 1) by decide +kernel)
  have still := ((lossless _ _ _ _ ran).failed (by decide)).1
  rw [pos] at still
  exact absurd still (by decide)

end Ucore
