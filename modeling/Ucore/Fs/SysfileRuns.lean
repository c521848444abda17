import Ucore.Fs.SysfileReads
import Ucore.Lib.Transitions

/- Reads, writes and seeks of a process on regular files, in any order and through any
   descriptors, are the calls on arrays of bytes that they stand for. -/
namespace Ucore.SysfileRuns
open Programs Words ByteFile Transitions

section Transfers
variable {s t u : Sfs} {F : Set Nat} {k len n alen : Nat} {pos ret : Int} {buf src : DiskBlock} {write : Bool}

/-- A call on file `k` leaves the other files alone. -/
structure Beside (F : Set Nat) (s : Sfs) (k : Nat) (t : Sfs) : Prop where
  maps : BlockMaps t F
  others : ∀ g, g ≠ k → t.inodes g = s.inodes g
  elsewhere : ∀ g ∈ F, g ≠ k → fileData t g = fileData s g

theorem beside_refl (maps : BlockMaps s F) : Beside F s k s := ⟨maps, fun _ _ => rfl, fun _ _ _ => rfl⟩

theorem beside_trans (first : Beside F s k t) (second : Beside F t k u) : Beside F s k u :=
  ⟨second.maps, fun g ne => (second.others g ne).trans (first.others g ne),
    fun g mem ne => (second.elsewhere g mem ne).trans (first.elsewhere g mem ne)⟩

theorem resize_beside {size : Nat} (beside : Beside F s k t) : Beside F s k (t.resize k size) := by
  constructor
  · exact resize_maps beside.maps
  · intro g ne
    rw [resize_other ne, beside.others g ne]
  · intro g mem ne
    rw [resize_data, beside.elsewhere g mem ne]

theorem sized_beside {p : Nat} (beside : Beside F s k t) : Beside F s k (sized s t k p) := by
  unfold sized
  split_ifs
  · exact resize_beside beside
  · exact beside

theorem idle_beside (maps : BlockMaps s F) (idle : Idle s t) : Beside F s k t := by
  constructor
  · exact idle_maps maps idle
  · intro g _
    rw [idle.inodes]
  · intro g mem _
    exact idle_data maps idle mem

theorem written_beside {lo hi : Nat} {bytes : Nat → UInt8} (written : Written F s k lo hi bytes t) : Beside F s k t :=
  ⟨written.maps, written.others, written.elsewhere⟩

theorem io_beside (maps : BlockMaps s F) {r : Except SfsStop (Answer × Sfs)} {a : Answer}
    (outcome : IoOutcome F s k buf pos n write r) (ok : r = .ok (a, t)) : Beside F s k t := by
  cases outcome with
  | invalid => cases ok; exact beside_refl maps
  | nothing => cases ok; exact beside_refl maps
  | moved _ _ _ _ _ _ written => cases ok; exact sized_beside (written_beside written)
  | stuck _ _ _ _ _ _ idle => cases ok; exact sized_beside (idle_beside maps idle)
  | beyond => cases ok
  | pastEnd => cases ok

theorem sized_data {p : Nat} : fileData (sized s t k p) k = fileData t k := by
  unfold sized
  split_ifs
  · exact resize_data
  · rfl

theorem sized_size {p : Nat} (same : (t.inodes k).din.size = (s.inodes k).din.size) :
    ((sized s t k p).inodes k).din.size = max (s.inodes k).din.size p := by
  unfold sized
  split_ifs with more
  · rw [resize_size]
    omega
  · rw [same]
    omega

theorem resize_limit {size : Nat} : limit (t.resize k size) k = limit t k := by
  unfold limit
  rw [resize_map]
  rfl

theorem sized_limit {p : Nat} : limit (sized s t k p) k = limit t k := by
  unfold sized
  split_ifs
  · exact resize_limit
  · rfl

/- Where the writes to a file end: where it may not grow further, or has no block and can get none. -/
def writeEnd (s : Sfs) (k : Nat) : Nat := min SFS_MAX_FILE_SIZE (limit s k * SFS_BLKSIZE)

def room (s : Sfs) (k : Nat) (pos : Int) (len : Nat) : Nat :=
  if pos < 0 then 0 else min (pos.toNat + len) (writeEnd s k) - pos.toNat

theorem room_nat {p : Nat} : room s k p len = min (p + len) (writeEnd s k) - p := by
  unfold room
  rw [if_neg (by omega), Int.toNat_natCast]

theorem room_le : room s k pos len ≤ len ∧ room s k pos len ≤ SFS_MAX_FILE_SIZE := by
  have ends : writeEnd s k ≤ SFS_MAX_FILE_SIZE := min_le_left _ _
  unfold room
  split_ifs
  · omega
  · omega

/- A write goes on where the one before it has ended. -/
theorem room_further (part : n ≤ len) (same : limit t k = limit s k) :
    room s k pos n + room t k (pos + room s k pos n) (len - room s k pos n) = room s k pos len := by
  unfold room writeEnd
  rw [same]
  by_cases low : pos < 0
  · simp [low]
  · rw [if_neg low, if_neg low, if_neg (by omega)]
    omega

theorem room_short (part : n ≤ len) (short : room s k pos n ≠ n) : room s k pos len = room s k pos n := by
  unfold room at *
  by_cases low : pos < 0
  · simp [low]
  · rw [if_neg low] at *
    rw [if_neg low]
    omega

/-- `n` bytes of `src` are in the file from `p` on. The size may have gone up to `p` without any. -/
structure Put (s : Sfs) (k p : Nat) (src : DiskBlock) (n : Nat) (t : Sfs) : Prop where
  data : fileData t k = splice (fileData s k) (placed src p) p (p + n)
  size : (t.inodes k).din.size = max (s.inodes k).din.size (p + n) ∨
    n = 0 ∧ (t.inodes k).din.size = (s.inodes k).din.size

theorem put_nothing {p : Nat} : Put s k p src 0 s := by
  refine ⟨?_, .inr ⟨rfl, rfl⟩⟩
  rw [Nat.add_zero, splice_nothing]

theorem put_further {p m : Nat} (some : n ≠ 0) (first : Put s k p src n t)
    (second : Put t k (p + n) (fun j => src (n + j)) m u) : Put s k p src (n + m) u := by
  have moved : splice (fileData t k) (placed (fun j => src (n + j)) (p + n)) (p + n) (p + n + m) =
      splice (fileData t k) (placed src p) (p + n) (p + n + m) := by
    funext q
    simp only [splice, placed]
    split_ifs with inside
    · congr 1
      omega
    · rfl
  constructor
  · rw [second.data, moved, first.data, splice_splice (by omega) (by omega), Nat.add_assoc]
  · have grown := first.size.resolve_right fun none => some none.1
    rcases second.size with more | ⟨none, same⟩
    · left
      omega
    · left
      omega

/-- What `sfs_io_nolock` has written to a file, and what it leaves. -/
structure FileWritten (F : Set Nat) (s : Sfs) (k : Nat) (pos : Int) (n : Nat) (src : DiskBlock) (ret : Int) (alen : Nat)
    (t : Sfs) : Prop where
  beside : Beside F s k t
  ends : limit t k = limit s k
  count : alen = room s k pos n
  put : Put s k pos.toNat src alen t
  code : ret ≤ 0 ∧ (0 < n → alen = n → ret = 0)

theorem io_end_write {p : Nat} (short : n ≤ SFS_BLKSIZE) (below : p < SFS_MAX_FILE_SIZE) :
    ioEnd (s.inodes k).din.size true p n = min (p + n) SFS_MAX_FILE_SIZE := by
  have exact := (io_end_read (s := s) (k := k) short below).1
  unfold ioEnd
  rw [exact, Int.toNat_natCast]
  rfl

theorem write_outcome {out : DiskBlock} {r : Except SfsStop (Answer × Sfs)} (maps : BlockMaps s F) (mem : k ∈ F)
    (short : n ≤ SFS_BLKSIZE) (outcome : IoOutcome F s k src pos n true r) (ok : r = .ok ((ret, alen, out), t)) :
    FileWritten F s k pos n src ret alen t := by
  have beside := io_beside maps outcome ok
  cases outcome with
  | invalid bad =>
    cases ok
    have none : room s k pos n = 0 := by
      by_cases low : pos < 0
      · exact if_pos low
      · obtain ⟨p, rfl⟩ := Int.eq_ofNat_of_zero_le (not_lt.mp low)
        have ends : writeEnd s k ≤ SFS_MAX_FILE_SIZE := min_le_left _ _
        have far : SFS_MAX_FILE_SIZE ≤ p := by
          by_contra near
          have := (io_end_read (s := s) (k := k) short (not_le.mp near)).1
          omega
        rw [room_nat]
        omega
    exact ⟨beside, rfl, none.symm, put_nothing, by decide, fun some same => by omega⟩
  | nothing good empty =>
    cases ok
    obtain ⟨p, rfl⟩ := Int.eq_ofNat_of_zero_le good.1
    rw [Int.toNat_natCast, io_end_write (s := s) (k := k) short (by omega)] at empty
    have none : room s k p n = 0 := by
      rw [room_nat]
      omega
    exact ⟨beside, rfl, none.symm, put_nothing, le_refl _, fun _ _ => rfl⟩
  | moved u good some start within near written =>
    obtain ⟨answer, after⟩ := Prod.mk.inj (Except.ok.inj ok)
    obtain ⟨code, answer⟩ := Prod.mk.inj answer
    obtain ⟨count, _⟩ := Prod.mk.inj answer
    obtain ⟨p, rfl⟩ := Int.eq_ofNat_of_zero_le good.1
    have below : p < SFS_MAX_FILE_SIZE := by omega
    rw [Int.toNat_natCast, io_end_write (s := s) (k := k) short below] at *
    have serves : served s k p (min (p + n) SFS_MAX_FILE_SIZE) = room s k p n := by
      rw [room_nat]
      unfold served writeEnd
      omega
    rw [Nat.zero_add] at count
    rw [count] at after written
    subst after
    refine ⟨beside, ?_, by rw [← count, serves], ⟨?_, .inl (sized_size written.size)⟩, ?_⟩
    · rw [sized_limit, grown_limit (maps.map k mem) written.grown]
    · rw [sized_data, written.data, if_pos rfl, Int.toNat_natCast]
    · rw [← code]
      split_ifs with enough
      · exact ⟨le_refl _, fun _ _ => rfl⟩
      · refine ⟨by decide, fun _ whole => absurd whole ?_⟩
        unfold served at count
        omega
  | stuck u good some start within far idle =>
    obtain ⟨answer, after⟩ := Prod.mk.inj (Except.ok.inj ok)
    cases answer
    obtain ⟨p, rfl⟩ := Int.eq_ofNat_of_zero_le good.1
    rw [Int.toNat_natCast, io_end_write (s := s) (k := k) short (by omega)] at *
    have none : room s k p n = 0 := by
      rw [room_nat]
      unfold writeEnd
      omega
    subst after
    refine ⟨beside, ?_, none.symm, ⟨?_, .inl ?_⟩, by decide, fun some same => by omega⟩
    · rw [sized_limit, grown_limit (maps.map k mem) (idle_grown maps mem idle)]
    · rw [sized_data, idle_data maps idle mem, Int.toNat_natCast, Nat.add_zero, splice_nothing]
    · rw [Int.toNat_natCast, Nat.add_zero]
      exact sized_size (by rw [idle.inodes])
  | beyond good some far => cases ok
  | pastEnd good some start past => cases ok

theorem io_written {out : DiskBlock} (maps : BlockMaps s F) (mem : k ∈ F) (short : n ≤ SFS_BLKSIZE)
    (ran : sfsIoNolock k src pos n true s = .ok ((ret, alen, out), t)) : FileWritten F s k pos n src ret alen t := by
  have file : (s.inodes k).din.type ≠ .dir := by
    unfold sfsIoNolock at ran
    rw [run_bind inode_run] at ran
    exact (check_ran ran).1
  exact write_outcome maps mem short (io_outcome maps mem file src pos n true) ran

end Transfers

section Descriptors
variable {v w : Vfs} {F : Set Nat} {fd : Int} {k n alen : Nat} {ret : Int} {buf out : DiskBlock} {write : Bool} {file : File}

/-- The descriptor may be used to write, or to read. -/
def OpenTo (write : Bool) (v : Vfs) (fd : Int) : Prop :=
  (testfd fd = true ∧ (entryOf v fd).status = .opened) ∧
    (if write then (entryOf v fd).writable else (entryOf v fd).readable) = true

instance : Decidable (OpenTo write v fd) := inferInstanceAs (Decidable (_ ∧ _))

theorem entry_other {fd' : Int} (other : fd' ≠ fd) (legal : testfd fd = true) (legal' : testfd fd' = true) :
    entryOf (v.withEntry fd file) fd' = entryOf v fd' := by
  have ne : fd'.toNat ≠ fd.toNat := by
    unfold testfd at legal legal'
    simp only [decide_eq_true_eq] at legal legal'
    omega
  simp [entryOf, Vfs.withEntry, ne]

theorem fd2file_cases {x : Except Int FileRef} (ran : fd2file fd v = .ok (x, w)) : w = v ∧
    ((testfd fd = true ∧ (entryOf v fd).status = .opened) ∧ x = .ok ⟨v.current, fd.toNat⟩ ∨
      ¬ (testfd fd = true ∧ (entryOf v fd).status = .opened) ∧ x = .error (-E_INVAL)) := by
  unfold fd2file at ran
  by_cases legal : testfd fd = true
  · rw [if_pos legal] at ran
    obtain ⟨p, u, found, ran⟩ := bind_ran ran
    unfold getFdArray at found
    rw [run_get_bind] at found
    obtain ⟨_, found⟩ := check_ran found
    cases found
    rw [run_bind file_of_run] at ran
    by_cases here : (entryOf v fd).status = .opened
    · rw [if_pos here] at ran
      cases ran
      exact ⟨rfl, .inl ⟨⟨legal, here⟩, rfl⟩⟩
    · rw [if_neg here] at ran
      cases ran
      exact ⟨rfl, .inr ⟨fun both => here both.2, rfl⟩⟩
  · rw [if_neg legal] at ran
    cases ran
    exact ⟨rfl, .inr ⟨fun both => legal both.1, rfl⟩⟩

theorem tested_ran {b : Bool} (ran : fileTestfd fd (!write) write v = .ok (b, w)) :
    w = v ∧ b = decide (OpenTo write v fd) := by
  unfold fileTestfd at ran
  obtain ⟨x, u, found, ran⟩ := bind_ran ran
  obtain ⟨rfl, ⟨here, rfl⟩ | ⟨closed, rfl⟩⟩ := fd2file_cases found
  · dsimp only at ran
    rw [run_bind file_of_run] at ran
    cases ran
    refine ⟨rfl, ?_⟩
    cases write <;> simp [OpenTo, here]
  · cases ran
    exact ⟨rfl, by simp [OpenTo, closed]⟩

theorem vop_io_sfs {pos : Int} (ran : vopIo (.sfs k) buf pos n write v = .ok ((ret, alen, out), w)) :
    ∃ t, sfsIoNolock k buf pos n write v.sfs = .ok ((ret, alen, out), t) ∧ w = { v with sfs := t } := by
  unfold vopIo at ran
  obtain ⟨ops, u, found, ran⟩ := bind_ran ran
  obtain rfl := vop_op_ran found
  cases ops with
  | sfsNodeDirops => cases ran
  | devNodeOps => cases ran
  | sfsNodeFileops =>
    dsimp only at ran
    unfold sfsIo at ran
    rw [run_bind (show sfsInfo (.sfs k) u = .ok (k, u) from rfl)] at ran
    obtain ⟨⟨ret', alen', out'⟩, t, transfer, rest⟩ := bind_ran ran
    obtain ⟨_, rest⟩ := check_ran rest
    cases rest
    unfold onSfs at transfer
    cases here : sfsIoNolock k buf pos n write u.sfs with
    | error e =>
      rw [here] at transfer
      cases transfer
    | ok x =>
      obtain ⟨a, t'⟩ := x
      rw [here] at transfer
      cases transfer
      exact ⟨_, rfl, rfl⟩

theorem taken_released {u : Unit} {taken : File} (opened : taken.status = .opened)
    (ran : fdArrayRelease ⟨v.current, fd.toNat⟩ (v.withEntry fd taken) = .ok (u, w)) :
    w = v.withEntry fd { taken with openCount := taken.openCount - 1 } := by
  have released := release_ran (v := v.withEntry fd taken) (by rw [entry_with_entry]; exact opened) ran
  rwa [entry_with_entry, with_entry_with_entry] at released

theorem taken_run {taken : File} :
    fileOf ⟨v.current, fd.toNat⟩ (v.withEntry fd taken) = .ok (taken, v.withEntry fd taken) := by
  have := @file_of_run (v.withEntry fd taken) fd
  rwa [entry_with_entry] at this

theorem taken_moved {taken new : File} :
    setFile ⟨v.current, fd.toNat⟩ new (v.withEntry fd taken) = .ok ((), v.withEntry fd new) := by
  have := @set_file_run (v.withEntry fd taken) fd new
  rwa [with_entry_with_entry] at this

/- One call of `file_read` or `file_write`. -/
theorem file_io_ran (legal : OpenTo write v fd) (node : (entryOf v fd).node = some (.sfs k))
    (ran : fileIo fd buf n write v = .ok ((ret, alen, out), w)) :
    ∃ t, sfsIoNolock k buf (entryOf v fd).pos n write v.sfs = .ok ((ret, alen, out), t) ∧
      w = { v with sfs := t }.withEntry fd { entryOf v fd with pos := (entryOf v fd).pos + alen } := by
  obtain ⟨entry, same⟩ : ∃ entry, entryOf v fd = entry := ⟨_, rfl⟩
  unfold OpenTo at legal
  unfold fileIo at ran
  obtain ⟨x, u, found, ran⟩ := bind_ran ran
  obtain ⟨rfl, ⟨_, rfl⟩ | ⟨closed, rfl⟩⟩ := fd2file_cases found
  · rw [same] at legal node ⊢
    dsimp only at ran
    rw [run_bind file_of_run, same, if_neg (by simp [legal.2])] at ran
    obtain ⟨_, v₁, acquired, ran⟩ := bind_ran ran
    obtain rfl := acquire_ran acquired
    obtain ⟨taken, holds⟩ : ∃ taken, { entry with openCount := entry.openCount + 1 } = taken := ⟨_, rfl⟩
    have opened : taken.status = .opened := by rw [← holds]; exact legal.1.2
    rw [same, holds, run_bind (show nodeOf entry _ = .ok (.sfs k, _) by simp [nodeOf, node]; rfl)] at ran
    obtain ⟨⟨ret', alen', out'⟩, v₂, transfer, ran⟩ := bind_ran ran
    obtain ⟨t, done, rfl⟩ := vop_io_sfs transfer
    obtain ⟨u', after⟩ : ∃ u', { u with sfs := t } = u' := ⟨_, rfl⟩
    have volume : { u.withEntry fd taken with sfs := t } = u'.withEntry fd taken := by rw [← after]; rfl
    have current : u.current = u'.current := by rw [← after]
    rw [volume, current] at ran
    dsimp only at ran
    rw [run_bind taken_run, if_pos opened, run_bind taken_moved] at ran
    obtain ⟨_, v₃, released, ran⟩ := bind_ran ran
    obtain rfl := taken_released (by exact opened) released
    cases ran
    refine ⟨t, done, ?_⟩
    rw [← holds, ← after]
    rfl
  · exact absurd legal.1 closed

end Descriptors

section Loops
variable {v w : Vfs} {F : Set Nat} {fd : Int} {k n m alen copied len turns : Nat} {ret r : Int} {user : Nat → Bool}
  {buf src old out : DiskBlock} {s t : Sfs}

/-- The volume is `t` and the position has moved by `n`; nothing else has changed but other blocks of `k`. -/
structure Moved (F : Set Nat) (v : Vfs) (fd : Int) (k n : Nat) (t : Sfs) (w : Vfs) : Prop where
  after : w = { v with sfs := t }.withEntry fd { entryOf v fd with pos := (entryOf v fd).pos + n }
  beside : Beside F v.sfs k t

theorem moved_sfs (moved : Moved F v fd k n t w) : w.sfs = t := by
  rw [moved.after]
  rfl

theorem moved_entry (moved : Moved F v fd k n t w) :
    entryOf w fd = { entryOf v fd with pos := (entryOf v fd).pos + n } := by
  rw [moved.after, entry_with_entry]

theorem moved_refl (maps : BlockMaps v.sfs F) : Moved F v fd k 0 v.sfs v := by
  refine ⟨?_, beside_refl maps⟩
  have same : { entryOf v fd with pos := (entryOf v fd).pos + (0 : Nat) } = entryOf v fd := by simp
  rw [same]
  simp [Vfs.withEntry, entryOf]

theorem moved_trans {u : Vfs} {t' : Sfs} (first : Moved F v fd k n t u) (second : Moved F u fd k m t' w) :
    Moved F v fd k (n + m) t' w := by
  have beside := second.beside
  rw [moved_sfs first] at beside
  refine ⟨?_, beside_trans first.beside beside⟩
  have sum : (entryOf v fd).pos + n + m = (entryOf v fd).pos + (n + m : Nat) := by
    push_cast
    ring
  rw [second.after, moved_entry first, sum, first.after]
  exact with_entry_with_entry (v := { v with sfs := t' })

theorem io_read_size {pos : Int} {x : Except SfsStop (Answer × Sfs)} {a : Answer}
    (outcome : IoOutcome F s k buf pos n false x) (ok : x = .ok (a, t)) : (t.inodes k).din.size = (s.inodes k).din.size := by
  have most : ioEnd (s.inodes k).din.size false pos.toNat n ≤ (s.inodes k).din.size := by
    unfold ioEnd
    rw [if_neg Bool.false_ne_true]
    omega
  cases outcome with
  | invalid => cases ok; rfl
  | nothing => cases ok; rfl
  | moved u good some start within near written =>
    obtain ⟨_, rfl⟩ := Prod.mk.inj (Except.ok.inj ok)
    have reach := served_le (s := s) (k := k) some.le
    rw [sized_size written.size]
    omega
  | stuck u good some start within far idle =>
    obtain ⟨_, rfl⟩ := Prod.mk.inj (Except.ok.inj ok)
    rw [sized_size (by rw [idle.inodes])]
    omega
  | beyond => cases ok
  | pastEnd => cases ok

/-- One turn of the loop of `sysfile_read`. -/
theorem read_turn (legal : OpenTo false v fd) (node : (entryOf v fd).node = some (.sfs k)) (maps : BlockMaps v.sfs F)
    (mem : k ∈ F) (short : n ≤ SFS_BLKSIZE) (ran : fileRead fd buf n v = .ok ((ret, alen, out), w)) :
    ∃ t, FileRead F v.sfs k (entryOf v fd).pos n buf ret alen out t ∧ Moved F v fd k alen t w ∧
      (t.inodes k).din.size = (v.sfs.inodes k).din.size := by
  obtain ⟨t, done, after⟩ := file_io_ran legal node ran
  have file : (v.sfs.inodes k).din.type ≠ .dir := by
    unfold sfsIoNolock at done
    rw [run_bind inode_run] at done
    exact (check_ran done).1
  have outcome := io_outcome maps mem file buf (entryOf v fd).pos n false
  exact ⟨t, read_outcome maps mem short outcome done, ⟨after, io_beside maps outcome done⟩, io_read_size outcome done⟩

/-- What the loop of `sysfile_read` leaves. -/
structure Scanned (F : Set Nat) (v : Vfs) (fd : Int) (k n : Nat) (t : Sfs) (w : Vfs) : Prop where
  moved : Moved F v fd k n t w
  data : fileData t k = fileData v.sfs k
  size : (t.inodes k).din.size = (v.sfs.inodes k).din.size
  within : n ≠ 0 → (entryOf v fd).pos + n ≤ (maxBlocks * SFS_BLKSIZE : Nat)

theorem scanned_refl (maps : BlockMaps v.sfs F) : Scanned F v fd k 0 v.sfs v :=
  ⟨moved_refl maps, rfl, rfl, fun some => absurd rfl some⟩

theorem scanned_trans {u : Vfs} {t' : Sfs} (first : Scanned F v fd k n t u) (second : Scanned F u fd k m t' w) :
    Scanned F v fd k (n + m) t' w := by
  have volume := moved_sfs first.moved
  refine ⟨moved_trans first.moved second.moved, ?_, ?_, fun some => ?_⟩
  · rw [second.data, volume, first.data]
  · rw [second.size, volume, first.size]
  · have start : (entryOf u fd).pos = (entryOf v fd).pos + n := by rw [moved_entry first.moved]
    by_cases last : m = 0
    · have := first.within (by omega)
      omega
    · have := second.within last
      omega

theorem available_nothing {pos : Int} : available s k pos 0 = 0 := by
  have := (@available_le s k 0 pos).2.1
  omega

theorem room_nothing {pos : Int} : room s k pos 0 = 0 := by
  have := (@room_le s k 0 pos).1
  omega

theorem some_asked (some : len ≠ 0) : 0 < min IOBUF_SIZE len := by
  unfold IOBUF_SIZE
  omega

theorem read_loop_scanned (enough : len ≤ turns) (legal : OpenTo false v fd) (node : (entryOf v fd).node = some (.sfs k))
    (maps : BlockMaps v.sfs F) (mem : k ∈ F) (ran : sysfileReadLoop fd user turns len copied buf old v = .ok ((r, out), w)) :
    ∃ n t, Scanned F v fd k n t w ∧ (Writable user copied (available v.sfs k (entryOf v fd).pos len) →
      n = available v.sfs k (entryOf v fd).pos len) := by
  induction turns generalizing len copied buf old v with
  | zero =>
    obtain rfl : len = 0 := by omega
    cases ran
    exact ⟨0, _, scanned_refl maps, fun _ => available_nothing.symm⟩
  | succ turns ih =>
    unfold sysfileReadLoop at ran
    by_cases empty : len = 0
    · subst empty
      rw [if_pos rfl] at ran
      cases ran
      exact ⟨0, _, scanned_refl maps, fun _ => available_nothing.symm⟩
    · rw [if_neg empty] at ran
      obtain ⟨⟨ret, alen, buf'⟩, u, turn, ran⟩ := bind_ran ran
      have short : min IOBUF_SIZE len ≤ SFS_BLKSIZE := min_le_left _ _
      obtain ⟨t, read, moved, size⟩ := read_turn legal node maps mem short turn
      have scanned : Scanned F v fd k alen t u := ⟨moved, read.data, size, read.within⟩
      have count := read.count
      have part : min IOBUF_SIZE len ≤ len := min_le_right _ _
      have positive := some_asked empty
      have further := @available_further v.sfs t k _ _ (entryOf v fd).pos part read.ends
      have stop : available v.sfs k (entryOf v fd).pos (min IOBUF_SIZE len) ≠ min IOBUF_SIZE len →
          available v.sfs k (entryOf v fd).pos len = available v.sfs k (entryOf v fd).pos (min IOBUF_SIZE len) :=
        available_short part
      rw [← count] at further stop
      dsimp only at ran
      by_cases none : alen = 0
      · rw [if_pos none] at ran
        cases ran
        exact ⟨alen, t, scanned, fun _ => (stop (by omega)).symm⟩
      · rw [if_neg none] at ran
        by_cases here : user copied = true
        · rw [if_pos here] at ran
          obtain ⟨_, ran⟩ := check_ran ran
          by_cases fine : ret = 0
          · rw [if_neg (not_not.mpr fine)] at ran
            have entry := moved_entry moved
            have volume := moved_sfs moved
            have pos : (entryOf u fd).pos = (entryOf v fd).pos + alen := by rw [entry]
            obtain ⟨n, t', later, whole⟩ := ih (by omega) (by unfold OpenTo; rw [entry]; exact legal)
              (by rw [entry]; exact node) (by rw [volume]; exact read.maps) ran
            refine ⟨alen + n, t', scanned_trans scanned later, fun writable => ?_⟩
            rw [volume, pos] at whole
            rw [← further] at writable ⊢
            by_cases full : alen = IOBUF_SIZE
            · rw [full] at writable whole ⊢
              rw [whole ((writable_further here).mp writable)]
            · have ended : available t k ((entryOf v fd).pos + alen) (len - alen) = 0 := by
                by_cases last : alen = min IOBUF_SIZE len
                · rw [show len - alen = 0 by omega]
                  exact available_nothing
                · have := stop last
                  omega
              rw [ended] at whole ⊢
              rw [whole fun c below => absurd below (Nat.not_lt_zero c)]
          · rw [if_pos fine] at ran
            cases ran
            exact ⟨alen, t, scanned, fun _ => (stop fun full => fine (read.code.2 positive full)).symm⟩
        · rw [if_neg here] at ran
          cases ran
          exact ⟨alen, t, scanned, fun all => absurd (all 0 (by omega) (dvd_zero _)) here⟩

/-- What the loop of `sysfile_write` has done, with `n` bytes taken. -/
structure Stored (F : Set Nat) (v : Vfs) (fd : Int) (k : Nat) (user : Nat → Bool) (copied len : Nat) (src : DiskBlock)
    (r : Int) (w : Vfs) (n : Nat) (ret : Int) (t : Sfs) : Prop where
  answer : r = transferred (copied + n) ret
  code : ret ≤ 0
  moved : Moved F v fd k n t w
  put : Put v.sfs k (entryOf v fd).pos.toNat (fun j => src (copied + j)) n t
  most : n ≤ room v.sfs k (entryOf v fd).pos len
  whole : Writable user copied (room v.sfs k (entryOf v fd).pos len) → n = room v.sfs k (entryOf v fd).pos len

theorem stored_nothing (maps : BlockMaps v.sfs F) (code : ret ≤ 0)
    (none : Writable user copied (room v.sfs k (entryOf v fd).pos len) → room v.sfs k (entryOf v fd).pos len = 0) :
    Stored F v fd k user copied len src (transferred copied ret) v 0 ret v.sfs where
  answer := rfl
  code := code
  moved := moved_refl maps
  put := put_nothing
  most := Nat.zero_le _
  whole writable := (none writable).symm

/-- One turn of the loop of `sysfile_write`. -/
theorem write_turn (legal : OpenTo true v fd) (node : (entryOf v fd).node = some (.sfs k)) (maps : BlockMaps v.sfs F)
    (mem : k ∈ F) (short : n ≤ SFS_BLKSIZE) (ran : fileWrite fd buf n v = .ok ((ret, alen, out), w)) :
    ∃ t, FileWritten F v.sfs k (entryOf v fd).pos n buf ret alen t ∧ Moved F v fd k alen t w := by
  obtain ⟨t, done, after⟩ := file_io_ran legal node ran
  have written := io_written maps mem short done
  exact ⟨t, written, after, written.beside⟩

/- The first piece, and the rest. -/
theorem stored_further {u : Vfs} {t' : Sfs} {code : Int} (here : user copied = true) (some : alen ≠ 0)
    (first : FileWritten F v.sfs k (entryOf v fd).pos (min IOBUF_SIZE len) (fun j => src (copied + j)) code alen t)
    (moved : Moved F v fd k alen t u) (later : Stored F u fd k user (copied + alen) (len - alen) src r w n ret t') :
    Stored F v fd k user copied len src r w (alen + n) ret t' := by
  have count := first.count
  have part : min IOBUF_SIZE len ≤ len := min_le_right _ _
  have low : 0 ≤ (entryOf v fd).pos := by
    by_contra below
    rw [room, if_pos (not_le.mp below)] at count
    exact some count
  have further := @room_further v.sfs t k len _ (entryOf v fd).pos part first.ends
  have stop : room v.sfs k (entryOf v fd).pos (min IOBUF_SIZE len) ≠ min IOBUF_SIZE len →
      room v.sfs k (entryOf v fd).pos len = room v.sfs k (entryOf v fd).pos (min IOBUF_SIZE len) := room_short part
  rw [← count] at further stop
  have pos : (entryOf u fd).pos = (entryOf v fd).pos + alen := by rw [moved_entry moved]
  have next : ((entryOf v fd).pos + alen).toNat = (entryOf v fd).pos.toNat + alen := by omega
  have put := later.put
  have most := later.most
  have whole := later.whole
  rw [moved_sfs moved, pos] at put most whole
  rw [next] at put
  have shifted : (fun j => src (copied + alen + j)) = fun j => src (copied + (alen + j)) := by simp [Nat.add_assoc]
  rw [shifted] at put
  refine ⟨?_, later.code, moved_trans moved later.moved, put_further some first.put put, by omega, fun writable => ?_⟩
  · rw [later.answer, Nat.add_assoc]
  · rw [← further] at writable ⊢
    by_cases full : alen = IOBUF_SIZE
    · rw [full] at writable whole ⊢
      rw [whole ((writable_further here).mp writable)]
    · have ended : room t k ((entryOf v fd).pos + alen) (len - alen) = 0 := by
        by_cases last : alen = min IOBUF_SIZE len
        · rw [show len - alen = 0 by omega]
          exact room_nothing
        · have := stop last
          omega
      omega

theorem write_loop_stored (enough : len ≤ turns) (legal : OpenTo true v fd) (node : (entryOf v fd).node = some (.sfs k))
    (maps : BlockMaps v.sfs F) (mem : k ∈ F) (ran : sysfileWriteLoop fd user src turns len copied v = .ok (r, w)) :
    ∃ n ret t, Stored F v fd k user copied len src r w n ret t := by
  induction turns generalizing len copied v with
  | zero =>
    obtain rfl : len = 0 := by omega
    cases ran
    exact ⟨0, 0, _, stored_nothing maps (le_refl _) fun _ => room_nothing⟩
  | succ turns ih =>
    unfold sysfileWriteLoop at ran
    by_cases empty : len = 0
    · subst empty
      rw [if_pos rfl] at ran
      cases ran
      exact ⟨0, 0, _, stored_nothing maps (le_refl _) fun _ => room_nothing⟩
    · rw [if_neg empty] at ran
      by_cases here : user copied = true
      · rw [if_neg (by simp [here])] at ran
        obtain ⟨⟨ret, alen, buf'⟩, u, turn, ran⟩ := bind_ran ran
        have short : min IOBUF_SIZE len ≤ SFS_BLKSIZE := min_le_left _ _
        obtain ⟨t, written, moved⟩ := write_turn legal node maps mem short turn
        obtain ⟨_, ran⟩ := check_ran ran
        have part : min IOBUF_SIZE len ≤ len := min_le_right _ _
        have positive := some_asked empty
        have stop := @room_short v.sfs k len _ (entryOf v fd).pos part
        rw [← written.count] at stop
        by_cases last : ret ≠ 0 ∨ alen = 0
        · rw [if_pos last] at ran
          cases ran
          have ended : room v.sfs k (entryOf v fd).pos len = alen := by
            refine stop fun full => ?_
            rcases last with failed | none
            · exact failed (written.code.2 positive full)
            · omega
          exact ⟨alen, ret, t, rfl, written.code.1, moved, written.put, ended.ge, fun _ => ended.symm⟩
        · rw [if_neg last] at ran
          have entry := moved_entry moved
          obtain ⟨n, ret', t', later⟩ := ih (by omega) (by unfold OpenTo; rw [entry]; exact legal)
            (by rw [entry]; exact node) (by rw [moved_sfs moved]; exact written.beside.maps) ran
          exact ⟨alen + n, ret', t', stored_further here (by omega) written moved later⟩
      · rw [if_pos (by simpa using here)] at ran
        cases ran
        refine ⟨0, -E_INVAL, _, stored_nothing maps (by decide) fun all => ?_⟩
        by_contra some
        exact here (all 0 (by omega) (dvd_zero _))

end Loops

section Seeks
variable {v w : Vfs} {F : Set Nat} {fd : Int} {k : Nat} {pos ret r whence : Int} {s t : Sfs}

/-- What `sfs_tryseek` leaves of file `k`; it may have grown up to the new position, where it has entries for the
blocks. -/
structure Sought (F : Set Nat) (s : Sfs) (k : Nat) (pos ret : Int) (t : Sfs) : Prop where
  beside : Beside F s k t
  data : fileData t k = fileData s k
  size : (t.inodes k).din.size = if ret = 0 then max (s.inodes k).din.size pos.toNat else (s.inodes k).din.size
  inside : ret = 0 → 0 ≤ pos ∧ pos < SFS_MAX_FILE_SIZE
  code : ret ≤ 0 ∧ (SFS_MAX_FILE_SIZE ≤ pos → ret = -E_INVAL)
  few : ret = 0 → blocksFor pos.toNat ≤ max (blocksFor (s.inodes k).din.size) maxBlocks

theorem tryseek_sought (maps : BlockMaps s F) (mem : k ∈ F)
    (blank : ∀ q, (s.inodes k).din.size ≤ q → fileData s k q = 0) (ran : sfsTryseek k pos s = .ok (ret, t)) : Sought F s k pos ret t := by
  unfold sfsTryseek at ran
  by_cases bad : pos < 0 ∨ pos ≥ SFS_MAX_FILE_SIZE
  · rw [if_pos bad] at ran
    cases ran
    exact ⟨beside_refl maps, rfl, rfl, fun zero => absurd zero (by decide), ⟨by decide, fun _ => rfl⟩,
      fun zero => absurd zero (by decide)⟩
  · rw [if_neg bad, run_bind inode_run] at ran
    by_cases past : pos > (s.inodes k).din.size
    · rw [if_pos past] at ran
      have outcome := truncfile_outcome maps mem pos
      rw [ran] at outcome
      cases outcome with
      | invalid => omega
      | asItWas good same => omega
      | enlarged u good new more room few extended =>
        refine ⟨resize_beside ⟨extended.maps, extended.others, extended.elsewhere⟩, ?_, ?_, fun _ => by omega,
          ⟨le_refl _, fun far => by omega⟩, fun _ => le_max_of_le_right few⟩
        · rw [resize_data, extended.data]
        · rw [resize_size, if_pos rfl]
          omega
      | full _ good new more noRoom few extended =>
        exact ⟨⟨extended.maps, extended.others, extended.elsewhere⟩, extended.data, extended.size,
          fun zero => absurd zero (by decide), ⟨by decide, fun far => by omega⟩, fun zero => absurd zero (by decide)⟩
      | reduced u good new fewer shrunk =>
        refine ⟨resize_beside ⟨shrunk.maps, shrunk.others, shrunk.elsewhere⟩, ?_, ?_, fun _ => by omega,
          ⟨le_refl _, fun far => by omega⟩, fun _ => le_max_of_le_right (fewer.trans (maps.map k mem).bounded)⟩
        · funext q
          rw [resize_data, shrunk.data]
          split_ifs with below
          · rfl
          · -- What is cut off has never been written.
            have reach := blocks_for_le.mp (le_refl (blocksFor pos.toNat))
            exact (blank q (by omega)).symm
        · rw [resize_size, if_pos rfl]
          omega
    · rw [if_neg past] at ran
      cases ran
      refine ⟨beside_refl maps, rfl, ?_, fun _ => by omega, ⟨le_refl _, fun far => by omega⟩,
        fun _ => le_max_of_le_left (blocks_for_mono (by omega))⟩
      rw [if_pos rfl]
      omega

theorem vop_tryseek_sfs (ran : vopTryseek (.sfs k) pos v = .ok (ret, w)) :
    ∃ t, sfsTryseek k pos v.sfs = .ok (ret, t) ∧ w = { v with sfs := t } := by
  unfold vopTryseek at ran
  obtain ⟨ops, u, found, ran⟩ := bind_ran ran
  obtain rfl := vop_op_ran found
  cases ops with
  | sfsNodeDirops => cases ran
  | devNodeOps => cases ran
  | sfsNodeFileops =>
    dsimp only at ran
    unfold sfsTryseekNode at ran
    unfold sfsTryseek
    by_cases bad : pos < 0 ∨ pos ≥ SFS_MAX_FILE_SIZE
    · rw [if_pos bad] at ran ⊢
      cases ran
      exact ⟨_, rfl, rfl⟩
    · rw [if_neg bad, run_bind (show sfsInfo (.sfs k) u = .ok (k, u) from rfl),
        run_bind (show onSfs (sfsInode k) u = .ok (u.sfs.inodes k, u) from rfl)] at ran
      rw [if_neg bad, run_bind inode_run]
      by_cases past : pos > (u.sfs.inodes k).din.size
      · rw [if_pos past] at ran ⊢
        unfold vopTruncate at ran
        obtain ⟨ops, u', found, ran⟩ := bind_ran ran
        obtain rfl := vop_op_ran found
        cases ops with
        | sfsNodeDirops => cases ran
        | devNodeOps => cases ran
        | sfsNodeFileops =>
          dsimp only at ran
          rw [run_bind (show sfsInfo (.sfs k) u' = .ok (k, u') from rfl)] at ran
          unfold onSfs at ran
          cases here : sfsTruncfile k pos u'.sfs with
          | error e =>
            rw [here] at ran
            cases ran
          | ok x =>
            obtain ⟨a, t'⟩ := x
            rw [here] at ran
            cases ran
            exact ⟨_, rfl, rfl⟩
      · rw [if_neg past] at ran ⊢
        cases ran
        exact ⟨_, rfl, rfl⟩

theorem vop_gettype_sfs {mode : Nat} (ran : vopGettype (.sfs k) v = .ok ((ret, mode), w)) : w = v ∧ ret = 0 := by
  unfold vopGettype at ran
  obtain ⟨ops, u, found, ran⟩ := bind_ran ran
  obtain rfl := vop_op_ran found
  cases ops with
  | sfsNodeDirops | sfsNodeFileops =>
    dsimp only at ran
    rw [run_bind (show sfsInfo (.sfs k) u = .ok (k, u) from rfl),
      run_bind (show onSfs (sfsInode k) u = .ok (u.sfs.inodes k, u) from rfl)] at ran
    cases type : sfsGettype (u.sfs.inodes k).din.type with
    | none =>
      rw [type] at ran
      cases ran
    | some mode =>
      rw [type] at ran
      cases ran
      exact ⟨rfl, rfl⟩
  | devNodeOps => cases ran

theorem vop_fstat_sfs {stat : Stat} (ran : vopFstat (.sfs k) v = .ok ((ret, stat), w)) :
    w = v ∧ ret = 0 ∧ stat.size = (v.sfs.inodes k).din.size := by
  unfold vopFstat at ran
  obtain ⟨ops, u, found, ran⟩ := bind_ran ran
  obtain rfl := vop_op_ran found
  have inner : ∀ x, sfsFstat (.sfs k) u = .ok x → x.2 = u ∧ x.1.1 = 0 ∧ x.1.2.size = (u.sfs.inodes k).din.size := by
    rintro ⟨⟨code', stat'⟩, w'⟩ ran
    unfold sfsFstat at ran
    obtain ⟨⟨code, mode⟩, u', typed, ran⟩ := bind_ran ran
    obtain ⟨rfl, rfl⟩ := vop_gettype_sfs typed
    dsimp only at ran
    rw [if_neg (by simp), run_bind (show sfsInfo (.sfs k) u' = .ok (k, u') from rfl),
      run_bind (show onSfs (sfsInode k) u' = .ok (u'.sfs.inodes k, u') from rfl)] at ran
    cases ran
    exact ⟨rfl, rfl, rfl⟩
  cases ops with
  | sfsNodeDirops | sfsNodeFileops => exact inner _ ran
  | devNodeOps =>
    dsimp only at ran
    obtain ⟨⟨code, mode⟩, u', typed, ran⟩ := bind_ran ran
    obtain ⟨rfl, rfl⟩ := vop_gettype_sfs typed
    cases ran

/-- The position that `whence` asks for, in a file of `size` bytes. -/
def seekTo (size : Nat) (now pos whence : Int) : Option Int :=
  if whence = LSEEK_SET then some pos
  else if whence = LSEEK_CUR then some (i64 (pos + now))
  else if whence = LSEEK_END then some (i64 (pos + size))
  else none

theorem seek_target_ran {file : File} {x : Except Int Int} (ran : seekTarget file (.sfs k) pos whence v = .ok (x, w)) :
    w = v ∧ ((∃ p, x = .ok p ∧ seekTo (v.sfs.inodes k).din.size file.pos pos whence = some p) ∨ x = .error (-E_INVAL)) := by
  unfold seekTarget at ran
  unfold seekTo
  by_cases set : whence = LSEEK_SET
  · rw [if_pos set] at ran ⊢
    cases ran
    exact ⟨rfl, .inl ⟨_, rfl, rfl⟩⟩
  · rw [if_neg set] at ran ⊢
    by_cases cur : whence = LSEEK_CUR
    · rw [if_pos cur] at ran ⊢
      cases ran
      exact ⟨rfl, .inl ⟨_, rfl, rfl⟩⟩
    · rw [if_neg cur] at ran ⊢
      by_cases last : whence = LSEEK_END
      · rw [if_pos last] at ran ⊢
        obtain ⟨⟨code, stat⟩, u, found, ran⟩ := bind_ran ran
        obtain ⟨rfl, rfl, size⟩ := vop_fstat_sfs found
        dsimp only at ran
        rw [if_neg (by simp), size] at ran
        cases ran
        exact ⟨rfl, .inl ⟨_, rfl, rfl⟩⟩
      · rw [if_neg last] at ran
        cases ran
        exact ⟨rfl, .inr rfl⟩

/-- The position of the descriptor is `p`; the volume is `t`, with other files as before. -/
structure Transferred (F : Set Nat) (v : Vfs) (fd : Int) (k : Nat) (p : Int) (t : Sfs) (w : Vfs) : Prop where
  sfs : w.sfs = t
  entry : entryOf w fd = { entryOf v fd with pos := p }
  others : ∀ fd', fd' ≠ fd → testfd fd' = true → entryOf w fd' = entryOf v fd'
  beside : Beside F v.sfs k t

theorem transferred_refl (maps : BlockMaps v.sfs F) : Transferred F v fd k (entryOf v fd).pos v.sfs v :=
  ⟨rfl, rfl, fun _ _ _ => rfl, beside_refl maps⟩

theorem transferred_of_after {p : Int} (legal : testfd fd = true)
    (after : w = { v with sfs := t }.withEntry fd { entryOf v fd with pos := p }) (beside : Beside F v.sfs k t) :
    Transferred F v fd k p t w := by
  constructor
  · rw [after]
    rfl
  · rw [after, entry_with_entry]
  · intro fd' other legal'
    rw [after, entry_other other legal legal']
    rfl
  · exact beside

/-- What `sysfile_seek` leaves. -/
theorem seek_ran (legal : testfd fd = true) (node : (entryOf v fd).node = some (.sfs k)) (maps : BlockMaps v.sfs F)
    (mem : k ∈ F) (blank : ∀ q, (v.sfs.inodes k).din.size ≤ q → fileData v.sfs k q = 0)
    (ran : sysfileSeek fd pos whence v = .ok (r, w)) :
    ∃ p t, Sought F v.sfs k p r t ∧ Transferred F v fd k (if r = 0 then p else (entryOf v fd).pos) t w ∧
      (seekTo (v.sfs.inodes k).din.size (entryOf v fd).pos pos whence = some p ∨ r = -E_INVAL) := by
  obtain ⟨entry, same⟩ : ∃ entry, entryOf v fd = entry := ⟨_, rfl⟩
  have invalid : -E_INVAL ≠ 0 := by decide
  have failed : Sought F v.sfs k 0 (-E_INVAL) v.sfs := ⟨beside_refl maps, rfl, rfl, fun zero => absurd zero invalid,
    ⟨by decide, fun _ => rfl⟩, fun zero => absurd zero invalid⟩
  unfold sysfileSeek fileSeek at ran
  obtain ⟨x, u, found, ran⟩ := bind_ran ran
  obtain ⟨rfl, ⟨open_, rfl⟩ | ⟨closed, rfl⟩⟩ := fd2file_cases found
  · dsimp only at ran
    obtain ⟨_, v₁, acquired, ran⟩ := bind_ran ran
    obtain rfl := acquire_ran acquired
    rw [same] at node open_
    obtain ⟨taken, holds⟩ : ∃ taken, { entry with openCount := entry.openCount + 1 } = taken := ⟨_, rfl⟩
    have opened : taken.status = .opened := by rw [← holds]; exact open_.2
    have home : taken.node = some (.sfs k) := by rw [← holds]; exact node
    have returned : { taken with openCount := taken.openCount - 1 } = entry := by rw [← holds]; rfl
    have pos_same : taken.pos = entry.pos := by rw [← holds]
    rw [same, holds, run_bind taken_run, run_bind (show nodeOf taken _ = .ok (.sfs k, _) by simp [nodeOf, home]; rfl)] at ran
    obtain ⟨y, v₂, aimed, ran⟩ := bind_ran ran
    obtain ⟨rfl, ⟨p, rfl, target⟩ | rfl⟩ := seek_target_ran aimed
    · dsimp only at ran
      obtain ⟨ret, v₃, sought, ran⟩ := bind_ran ran
      obtain ⟨t, done, rfl⟩ := vop_tryseek_sfs sought
      have result := tryseek_sought maps mem blank done
      obtain ⟨u', after⟩ : ∃ u', { u with sfs := t } = u' := ⟨_, rfl⟩
      have volume : { u.withEntry fd taken with sfs := t } = u'.withEntry fd taken := by rw [← after]; rfl
      have current : u.current = u'.current := by rw [← after]
      rw [volume, current] at ran
      rw [pos_same, ← same] at target
      by_cases fine : ret = 0
      · rw [if_pos fine, run_bind taken_run, run_bind taken_moved] at ran
        obtain ⟨_, v₄, released, ran⟩ := bind_ran ran
        obtain rfl := taken_released (by exact opened) released
        cases ran
        refine ⟨p, t, result, transferred_of_after legal ?_ result.beside, .inl target⟩
        rw [if_pos fine, same, ← returned, ← after]
      · rw [if_neg fine] at ran
        obtain ⟨_, v₄, released, ran⟩ := bind_ran ran
        obtain rfl := taken_released opened released
        cases ran
        refine ⟨p, t, result, transferred_of_after legal ?_ result.beside, .inl target⟩
        rw [if_neg fine, returned, ← after, ← same]
    · dsimp only at ran
      obtain ⟨_, v₄, released, ran⟩ := bind_ran ran
      obtain rfl := taken_released opened released
      cases ran
      refine ⟨0, u.sfs, failed, transferred_of_after legal ?_ (beside_refl maps), .inr rfl⟩
      rw [if_neg invalid, returned, ← same]
  · cases ran
    refine ⟨0, _, failed, ?_, .inr rfl⟩
    rw [if_neg invalid]
    exact transferred_refl maps

end Seeks

section Calls
variable {v w : Vfs} {F : Set Nat} {fd : Int} {k n m len : Nat} {pos ret r whence : Int} {s t : Sfs} {user : Nat → Bool}
  {src old out : DiskBlock} {write : Bool}

/-- How many bytes a call of `len` bytes can write, or read. -/
def capacity (write : Bool) (v : Vfs) (fd : Int) (len : Nat) : Nat :=
  if OpenTo write v fd ∧ v.memory 0 = true then
    match (entryOf v fd).node with
    | some (.sfs k) => if write then room v.sfs k (entryOf v fd).pos len else available v.sfs k (entryOf v fd).pos len
    | _ => 0
  else 0

theorem capacity_le : capacity write v fd len ≤ len := by
  unfold capacity
  by_cases open_ : OpenTo write v fd ∧ v.memory 0 = true
  · rw [if_pos open_]
    rcases (entryOf v fd).node with _ | _ | k
    · exact Nat.zero_le _
    · exact Nat.zero_le _
    · cases write with
      | true => exact room_le.1
      | false => exact available_le.2.1
  · rw [if_neg open_]
    exact Nat.zero_le _

theorem capacity_file (open_ : OpenTo write v fd) (memory : v.memory 0 = true) (node : (entryOf v fd).node = some (.sfs k)) :
    capacity write v fd len =
      if write then room v.sfs k (entryOf v fd).pos len else available v.sfs k (entryOf v fd).pos len := by
  unfold capacity
  rw [if_pos ⟨open_, memory⟩, node]

theorem transferred_count (code : ret ≤ 0) (small : n ≤ SFS_MAX_FILE_SIZE) : (transferred (0 + n) ret).toNat = n := by
  have bound : SFS_MAX_FILE_SIZE < 2147483648 := by decide
  unfold transferred
  by_cases none : 0 + n = 0
  · rw [if_neg (not_not.mpr none)]
    omega
  · rw [if_pos none, i32_exact (by omega) (by omega)]
    omega

theorem transferred_of_moved (legal : testfd fd = true) (moved : Moved F v fd k n t w) :
    Transferred F v fd k ((entryOf v fd).pos + n) t w := transferred_of_after legal moved.after moved.beside

/-- What `sysfile_write` does with a file. -/
structure WriteCall (F : Set Nat) (v : Vfs) (fd : Int) (k len : Nat) (user : Nat → Bool) (src : DiskBlock) (r : Int)
    (t : Sfs) (w : Vfs) : Prop where
  after : Transferred F v fd k ((entryOf v fd).pos + r.toNat) t w
  put : Put v.sfs k (entryOf v fd).pos.toNat src r.toNat t
  most : r.toNat ≤ capacity true v fd len
  whole : Writable user 0 (capacity true v fd len) → r.toNat = capacity true v fd len

theorem write_call_nothing (maps : BlockMaps v.sfs F) (code : r ≤ 0) (none : capacity true v fd len = 0)
    (same : w.sfs = v.sfs) (entries : ∀ fd, entryOf w fd = entryOf v fd) :
    WriteCall F v fd k len user src r v.sfs w := by
  have zero : r.toNat = 0 := by omega
  have still : { entryOf v fd with pos := (entryOf v fd).pos + (0 : Nat) } = entryOf v fd := by simp
  constructor
  · rw [zero]
    exact ⟨same, (entries fd).trans still.symm, fun fd' _ _ => entries fd', beside_refl maps⟩
  · rw [zero]
    exact put_nothing
  · omega
  · omega

theorem write_call_ran (legal : testfd fd = true) (node : (entryOf v fd).node = some (.sfs k)) (maps : BlockMaps v.sfs F)
    (mem : k ∈ F) (ran : sysfileWrite fd len user src v = .ok (r, w)) : ∃ t, WriteCall F v fd k len user src r t w := by
  unfold sysfileWrite at ran
  by_cases empty : len = 0
  · rw [if_pos empty] at ran
    cases ran
    have most := @capacity_le v fd len true
    exact ⟨_, write_call_nothing maps (le_refl _) (by omega) rfl fun _ => rfl⟩
  · rw [if_neg empty] at ran
    obtain ⟨b, u, tested, rest⟩ := bind_ran ran
    obtain ⟨rfl, rfl⟩ := @tested_ran _ _ fd true _ tested
    by_cases open_ : OpenTo true u fd
    · rw [decide_eq_true open_, if_neg (by simp),
        run_bind (show kmalloc u = .ok (u.memory 0, { u with memory := fun i => u.memory (i + 1) }) from rfl)] at rest
      cases memory : u.memory 0 with
      | false =>
        rw [memory] at rest
        cases rest
        have none : capacity true u fd len = 0 := by
          unfold capacity
          rw [if_neg (by simp [memory])]
        exact ⟨_, write_call_nothing maps (by decide) none rfl fun _ => rfl⟩
      | true =>
        rw [memory, if_neg (by simp)] at rest
        obtain ⟨n, ret, t, stored⟩ :=
          write_loop_stored (v := { u with memory := fun i => u.memory (i + 1) }) (le_refl len) open_ node maps mem rest
        have takes : capacity true u fd len = room u.sfs k (entryOf u fd).pos len := by
          rw [capacity_file open_ memory node, if_pos rfl]
        have most : n ≤ room u.sfs k (entryOf u fd).pos len := stored.most
        have bound := (@room_le u.sfs k len (entryOf u fd).pos).2
        have count : r.toNat = n := by
          rw [stored.answer]
          exact transferred_count stored.code (by omega)
        have put := stored.put
        simp only [Nat.zero_add] at put
        obtain ⟨volume, entry, others, beside⟩ := transferred_of_moved legal stored.moved
        refine ⟨t, ⟨volume, ?_, others, beside⟩, ?_, ?_, ?_⟩
        · rw [count]
          exact entry
        · rw [count]
          exact put
        · rw [count, takes]
          exact most
        · rw [count, takes]
          exact stored.whole
    · rw [decide_eq_false open_, if_pos (by simp)] at rest
      have none : capacity true u fd len = 0 := by
        unfold capacity
        rw [if_neg fun both => open_ both.1]
      cases rest
      exact ⟨_, write_call_nothing maps (by decide) none rfl fun _ => rfl⟩

/-- What `sysfile_read` does with a file; `n` is how far the position moves. -/
structure ReadCall (F : Set Nat) (v : Vfs) (fd : Int) (k len : Nat) (user : Nat → Bool) (old : DiskBlock) (r : Int)
    (out : DiskBlock) (n : Nat) (t : Sfs) (w : Vfs) : Prop where
  after : Transferred F v fd k ((entryOf v fd).pos + n) t w
  data : fileData t k = fileData v.sfs k
  size : (t.inodes k).din.size = (v.sfs.inodes k).din.size
  bytes : out = overlay old (fileFrom v.sfs k (entryOf v fd).pos.toNat) r.toNat 0
  moves : r.toNat ≤ n
  most : r.toNat ≤ capacity false v fd len
  whole : Writable user 0 (capacity false v fd len) → r.toNat = capacity false v fd len ∧ n = capacity false v fd len
  within : n ≠ 0 → (entryOf v fd).pos + n ≤ (maxBlocks * SFS_BLKSIZE : Nat)

theorem read_call_nothing (maps : BlockMaps v.sfs F) (code : r ≤ 0) (none : capacity false v fd len = 0)
    (same : w.sfs = v.sfs) (entries : ∀ fd, entryOf w fd = entryOf v fd) :
    ReadCall F v fd k len user old r old 0 v.sfs w := by
  have zero : r.toNat = 0 := by omega
  have still : { entryOf v fd with pos := (entryOf v fd).pos + (0 : Nat) } = entryOf v fd := by simp
  constructor
  · exact ⟨same, (entries fd).trans still.symm, fun fd' _ _ => entries fd', beside_refl maps⟩
  · rfl
  · rfl
  · rw [zero]
    exact overlay_nothing.symm
  · omega
  · omega
  · omega
  · exact fun some => absurd rfl some

theorem read_call_ran (legal : testfd fd = true) (node : (entryOf v fd).node = some (.sfs k)) (maps : BlockMaps v.sfs F)
    (mem : k ∈ F) (ran : sysfileRead fd len user old v = .ok ((r, out), w)) :
    ∃ n t, ReadCall F v fd k len user old r out n t w := by
  unfold sysfileRead at ran
  by_cases empty : len = 0
  · rw [if_pos empty] at ran
    cases ran
    have most := @capacity_le v fd len false
    exact ⟨0, _, read_call_nothing maps (le_refl _) (by omega) rfl fun _ => rfl⟩
  · rw [if_neg empty] at ran
    obtain ⟨b, u, tested, rest⟩ := bind_ran ran
    obtain ⟨rfl, rfl⟩ := @tested_ran _ _ fd false _ tested
    by_cases open_ : OpenTo false u fd
    · rw [decide_eq_true open_, if_neg (by simp),
        run_bind (show kmalloc u = .ok (u.memory 0, { u with memory := fun i => u.memory (i + 1) }) from rfl)] at rest
      cases memory : u.memory 0 with
      | false =>
        rw [memory] at rest
        cases rest
        have none : capacity false u fd len = 0 := by
          unfold capacity
          rw [if_neg (by simp [memory])]
        exact ⟨0, _, read_call_nothing maps (by decide) none rfl fun _ => rfl⟩
      | true =>
        rw [memory, if_neg (by simp)] at rest
        have takes : capacity false u fd len = available u.sfs k (entryOf u fd).pos len := by
          rw [capacity_file open_ memory node, if_neg Bool.false_ne_true]
        obtain ⟨n, t, scanned, all⟩ := read_loop_scanned (v := { u with memory := fun i => u.memory (i + 1) })
          (le_refl len) open_ node maps mem rest
        obtain ⟨n', m, ret, turned⟩ := read_loop_turned (v := { u with memory := fun i => u.memory (i + 1) })
          (le_refl len) ⟨open_.1.1, open_.1.2, open_.2⟩ node maps (fun _ => mem) rest
        obtain ⟨volume, entry, others, beside⟩ := transferred_of_moved legal scanned.moved
        have bound := (@available_le u.sfs k len (entryOf u fd).pos).2.2
        have found : n' ≤ available u.sfs k (entryOf u fd).pos len := turned.found
        have count : r.toNat = n' := by
          rw [turned.answer]
          exact transferred_count turned.code (by omega)
        have moves : m = n := by
          have moved : (entryOf w fd).pos = (entryOf u fd).pos + m := turned.moved
          have moved' : (entryOf w fd).pos = (entryOf u fd).pos + n := by rw [entry]; rfl
          omega
        subst moves
        refine ⟨m, t, ⟨volume, entry, others, beside⟩, scanned.data, scanned.size, ?_, ?_, ?_, ?_, scanned.within⟩
        · rw [count]
          exact turned.bytes
        · by_contra less
          have := turned.lost (by omega)
          omega
        · rw [count, takes]
          exact found
        · rw [count, takes]
          intro writable
          have same : n' = m := turned.whole.mpr writable
          exact ⟨same.trans (all writable), all writable⟩
    · rw [decide_eq_false open_, if_pos (by simp)] at rest
      have none : capacity false u fd len = 0 := by
        unfold capacity
        rw [if_neg fun both => open_ both.1]
      cases rest
      exact ⟨0, _, read_call_nothing maps (by decide) none rfl fun _ => rfl⟩

end Calls

section Files
variable {v w x y : Vfs} {F : Set Nat} {of : Int → Option Nat} {fd : Int} {k len : Nat} {r : Int} {t : Sfs}

/-- Arrays of bytes, and for each descriptor the position in the one it is open on. -/
structure ByteFiles where
  file : Nat → ByteFile.File UInt8
  pos : Int → Int

def ByteFiles.put (a : ByteFiles) (k : Nat) (f : ByteFile.File UInt8) (fd p : Int) : ByteFiles where
  file := Function.update a.file k f
  pos := Function.update a.pos fd p

/-- A call with what it has returned; `most` is how many bytes it could move. -/
inductive Call where
  | write (fd : Int) (len : Nat) (user : Nat → Bool) (src : DiskBlock) (most : Nat) (r : Int)
  | read (fd : Int) (len : Nat) (user : Nat → Bool) (old out : DiskBlock) (most : Nat) (r : Int)
  | seek (fd pos whence r : Int)

def Call.through : Call → Int
  | .write fd .. => fd
  | .read fd .. => fd
  | .seek fd .. => fd

/-- The system call. -/
def SysStep (v : Vfs) : Call → Vfs → Prop
  | .write fd len user src most r, w => sysfileWrite fd len user src v = .ok (r, w) ∧ most = capacity true v fd len
  | .read fd len user old out most r, w =>
    sysfileRead fd len user old v = .ok ((r, out), w) ∧ most = capacity false v fd len
  | .seek fd pos whence r, w => sysfileSeek fd pos whence v = .ok (r, w)

/-- The call on file `k`. A write takes the first bytes of `src`, all there is room for if every piece of the user's
memory can be read; where it takes none, the size may still have gone up to the position. A read that cannot write a
piece of the user's memory may leave the position behind bytes that it has not delivered. -/
def FileStep (k : Nat) (a : ByteFiles) : Call → ByteFiles → Prop
  | .write fd len user src most r, b =>
    most ≤ len ∧ r.toNat ≤ most ∧ (Writable user 0 most → r.toNat = most) ∧
    ∃ size, (size = max (a.file k).size ((a.pos fd).toNat + r.toNat) ∨ r ≤ 0 ∧ size = (a.file k).size) ∧
      b = a.put k ⟨size, ((a.file k).write src (a.pos fd).toNat r.toNat).data⟩ fd (a.pos fd + r.toNat)
  | .read fd len user old out most r, b =>
    most ≤ (a.file k).readable (a.pos fd).toNat len ∧ r.toNat ≤ most ∧
    out = overlay old (fun j => (a.file k).data ((a.pos fd).toNat + j)) r.toNat 0 ∧
    ∃ n, r.toNat ≤ n ∧ (Writable user 0 most → r.toNat = most ∧ n = most) ∧
      b = a.put k (a.file k) fd (a.pos fd + n)
  | .seek fd pos whence r, b =>
    (r = 0 ∧ ∃ p, seekTo (a.file k).size (a.pos fd) pos whence = some p ∧ 0 ≤ p ∧ p < SFS_MAX_FILE_SIZE ∧
      b = a.put k { a.file k with size := max (a.file k).size p.toNat } fd p) ∨ r ≠ 0 ∧ b = a

/-- Calls through descriptors that are open on files. -/
def OnFiles {S : Type} (of : Int → Option Nat) (step : Nat → S → Call → S → Prop) (s : S) (c : Call) (t : S) : Prop :=
  ∃ k, of c.through = some k ∧ step k s c t

/-- The files `F` are on the volume, and the descriptors of the process on them are `of`. Nothing is stored behind the
size of a file. -/
structure Opened (F : Set Nat) (of : Int → Option Nat) (v : Vfs) : Prop where
  maps : BlockMaps v.sfs F
  legal : ∀ fd k, of fd = some k → testfd fd = true
  node : ∀ fd k, of fd = some k → k ∈ F ∧ (entryOf v fd).node = some (.sfs k)
  blank : ∀ k ∈ F, ∀ q, (v.sfs.inodes k).din.size ≤ q → fileData v.sfs k q = 0

/- The files and the positions as they are. -/
def seen (v : Vfs) : ByteFiles where
  file k := ⟨(v.sfs.inodes k).din.size, fileData v.sfs k⟩
  pos fd := (entryOf v fd).pos

structure Shows (F : Set Nat) (of : Int → Option Nat) (v : Vfs) (a : ByteFiles) : Prop extends Opened F of v where
  pos : ∀ fd k, of fd = some k → (seen v).pos fd = a.pos fd
  files : ∀ k ∈ F, a.file k = (seen v).file k

theorem shows_seen (opened : Opened F of v) : Shows F of v (seen v) := ⟨opened, fun _ _ _ => rfl, fun _ _ => rfl⟩

theorem shows_put {a : ByteFiles} {f : ByteFile.File UInt8} {p : Int} (shows_ : Shows F of v a)
    (after : Transferred F v fd k p t w) (file : f = ⟨(t.inodes k).din.size, fileData t k⟩)
    (blank : ∀ q, f.size ≤ q → f.data q = 0) : Shows F of w (a.put k f fd p) := by
  have volume := after.sfs
  have beside := after.beside
  refine ⟨⟨?_, shows_.legal, ?_, ?_⟩, ?_, ?_⟩
  · rw [volume]
    exact beside.maps
  · intro fd' k' open_
    obtain ⟨mem, node⟩ := shows_.node fd' k' open_
    refine ⟨mem, ?_⟩
    by_cases same : fd' = fd
    · rw [same] at node ⊢
      rw [after.entry]
      exact node
    · rw [after.others fd' same (shows_.legal fd' k' open_)]
      exact node
  · intro g mem
    rw [volume]
    by_cases same : g = k
    · rw [same]
      rw [file] at blank
      exact blank
    · rw [beside.others g same, beside.elsewhere g mem same]
      exact shows_.blank g mem
  · intro fd' k' open_
    by_cases same : fd' = fd
    · simp [seen, same, after.entry, ByteFiles.put]
    · have kept := shows_.pos fd' k' open_
      simp only [seen] at kept
      simp [seen, after.others fd' same (shows_.legal fd' k' open_), ByteFiles.put, same, kept]
  · intro g mem
    by_cases same : g = k
    · simp [same, ByteFiles.put, file, volume, seen]
    · simp [ByteFiles.put, same, shows_.files g mem, volume, beside.others g same, beside.elsewhere g mem same, seen]

theorem shown_pos {a : ByteFiles} (shows_ : Shows F of v a) (here : of fd = some k) : (entryOf v fd).pos = a.pos fd :=
  shows_.pos fd k here

theorem shown_file {a : ByteFiles} (shows_ : Shows F of v a) (mem : k ∈ F) :
    a.file k = ⟨(v.sfs.inodes k).din.size, fileData v.sfs k⟩ := shows_.files k mem

theorem put_blank {p n : Nat} {s : Sfs} {src : DiskBlock} (put : Put s k p src n t)
    (blank : ∀ q, (s.inodes k).din.size ≤ q → fileData s k q = 0) (q : Nat) (behind : (t.inodes k).din.size ≤ q) :
    fileData t k q = 0 := by
  have outside : (s.inodes k).din.size ≤ q ∧ (q < p ∨ p + n ≤ q) := by
    rcases put.size with grown | ⟨none, same⟩
    · omega
    · omega
  rw [put.data, splice_outside outside.2]
  exact blank q outside.1

theorem capacity_readable (node : (entryOf v fd).node = some (.sfs k)) :
    capacity false v fd len ≤ (⟨(v.sfs.inodes k).din.size, fileData v.sfs k⟩ : ByteFile.File UInt8).readable
      (entryOf v fd).pos.toNat len := by
  have ends := (@read_end_le v.sfs k).1
  unfold capacity ByteFile.File.readable
  rw [node]
  by_cases open_ : OpenTo false v fd ∧ v.memory 0 = true
  · rw [if_pos open_]
    simp only [Bool.false_eq_true, ↓reduceIte]
    unfold available
    split_ifs
    · omega
    · omega
  · rw [if_neg open_]
    exact Nat.zero_le _

theorem write_step {a : ByteFiles} {user : Nat → Bool} {src : DiskBlock} (shows_ : Shows F of v a) (here : of fd = some k)
    (ran : sysfileWrite fd len user src v = .ok (r, w)) :
    ∃ b, FileStep k a (.write fd len user src (capacity true v fd len) r) b ∧ Shows F of w b := by
  obtain ⟨mem, node⟩ := shows_.node fd k here
  obtain ⟨t, call⟩ := write_call_ran (shows_.legal fd k here) node shows_.maps mem ran
  have after := call.after
  have put := call.put
  rw [shown_pos shows_ here] at after put
  refine ⟨a.put k ⟨(t.inodes k).din.size, fileData t k⟩ fd (a.pos fd + r.toNat),
    ⟨capacity_le, call.most, call.whole, (t.inodes k).din.size, ?_, ?_⟩, shows_put shows_ after rfl (put_blank put (shows_.blank k mem))⟩
  · rw [shown_file shows_ mem]
    rcases put.size with grown | ⟨none, same⟩
    · exact .inl grown
    · exact .inr ⟨by omega, same⟩
  · rw [put.data, shown_file shows_ mem]
    rfl

theorem read_step {a : ByteFiles} {user : Nat → Bool} {old out : DiskBlock} (shows_ : Shows F of v a) (here : of fd = some k)
    (ran : sysfileRead fd len user old v = .ok ((r, out), w)) :
    ∃ b, FileStep k a (.read fd len user old out (capacity false v fd len) r) b ∧ Shows F of w b := by
  obtain ⟨mem, node⟩ := shows_.node fd k here
  obtain ⟨n, t, call⟩ := read_call_ran (shows_.legal fd k here) node shows_.maps mem ran
  have file := shown_file shows_ mem
  have after := call.after
  have bytes := call.bytes
  have readable := @capacity_readable v fd k len node
  rw [shown_pos shows_ here] at after bytes readable
  refine ⟨a.put k (a.file k) fd (a.pos fd + n), ⟨?_, call.most, ?_, n, call.moves, call.whole, rfl⟩,
    shows_put shows_ after ?_ ?_⟩
  · rw [file]
    exact readable
  · rw [bytes, file]
    rfl
  · rw [file, call.size, call.data]
  · rw [file]
    exact shows_.blank k mem

theorem seek_step {a : ByteFiles} {pos whence : Int} (shows_ : Shows F of v a) (here : of fd = some k)
    (ran : sysfileSeek fd pos whence v = .ok (r, w)) : ∃ b, FileStep k a (.seek fd pos whence r) b ∧ Shows F of w b := by
  obtain ⟨mem, node⟩ := shows_.node fd k here
  have file := shown_file shows_ mem
  have blank := shows_.blank k mem
  obtain ⟨p, t, sought, after, target⟩ := seek_ran (shows_.legal fd k here) node shows_.maps mem blank ran
  have size := sought.size
  rw [shown_pos shows_ here] at after target
  by_cases fine : r = 0
  · rw [if_pos fine] at after size
    have inside := sought.inside fine
    have aimed := target.resolve_right fun bad => by rw [fine] at bad; cases bad
    refine ⟨a.put k { a.file k with size := max (a.file k).size p.toNat } fd p,
      .inl ⟨fine, p, ?_, inside.1, inside.2, rfl⟩, shows_put shows_ after ?_ ?_⟩
    · rw [file]
      exact aimed
    · rw [file, size, sought.data]
    · rw [file]
      intro q behind
      exact blank q (by dsimp only at behind; omega)
  · rw [if_neg fine] at after size
    have same : a.put k (a.file k) fd (a.pos fd) = a := by simp [ByteFiles.put]
    have shown := shows_put shows_ after (f := a.file k) (by rw [file, size, sought.data]) (by rw [file]; exact blank)
    rw [same] at shown
    exact ⟨a, .inr ⟨fine, rfl⟩, shown⟩

theorem call_step {a : ByteFiles} {c : Call} (shows_ : Shows F of v a) (here : of c.through = some k) (step : SysStep v c w) :
    ∃ b, FileStep k a c b ∧ Shows F of w b := by
  cases c with
  | write fd len user src most r =>
    obtain ⟨ran, rfl⟩ := step
    exact write_step shows_ here ran
  | read fd len user old out most r =>
    obtain ⟨ran, rfl⟩ := step
    exact read_step shows_ here ran
  | seek fd pos whence r => exact seek_step shows_ here step

theorem run_shown {a : ByteFiles} {cs : List Call} (shows_ : Shows F of v a)
    (run : Run (OnFiles of fun _ => SysStep) v cs w) : ∃ b, Run (OnFiles of FileStep) a cs b ∧ Shows F of w b := by
  induction run generalizing a with
  | stop v => exact ⟨a, .stop a, shows_⟩
  | call first rest ih =>
    obtain ⟨k, here, step⟩ := first
    obtain ⟨b, next, shown⟩ := call_step shows_ here step
    obtain ⟨b', later, final⟩ := ih shown
    exact ⟨b', .call ⟨k, here, next⟩ later, final⟩

/-- Reads, writes and seeks through descriptors of regular files are calls on arrays of bytes. -/
theorem calls_refine_byte_files {cs : List Call} (opened : Opened F of v) (run : Run (OnFiles of fun _ => SysStep) v cs w) :
    ∃ b, Run (OnFiles of FileStep) (seen v) cs b ∧ Shows F of w b := run_shown (shows_seen opened) run

/-- The call writes to file `k`. -/
def Call.Writes (of : Int → Option Nat) (k : Nat) : Call → Prop
  | .write fd .. => of fd = some k
  | _ => False

theorem step_data {a b : ByteFiles} {c : Call} {g : Nat} (here : of c.through = some k) (other : ¬ c.Writes of g)
    (step : FileStep k a c b) : (b.file g).data = (a.file g).data := by
  cases c with
  | write fd len user src most r =>
    have ne : g ≠ k := fun same => other (same ▸ here)
    obtain ⟨_, _, _, size, _, rfl⟩ := step
    simp [ByteFiles.put, ne]
  | read fd len user old out most r =>
    obtain ⟨_, _, _, n, _, _, rfl⟩ := step
    simp [ByteFiles.put]
  | seek fd pos whence r =>
    obtain ⟨_, p, _, _, _, rfl⟩ | ⟨_, rfl⟩ := step
    · by_cases same : g = k
      · simp [ByteFiles.put, same]
      · simp [ByteFiles.put, same]
    · rfl

theorem run_data {a b : ByteFiles} {cs : List Call} {g : Nat} (others : ∀ c ∈ cs, ¬ c.Writes of g)
    (run : Run (OnFiles of FileStep) a cs b) : (b.file g).data = (a.file g).data := by
  induction run with
  | stop a => rfl
  | call first rest ih =>
    obtain ⟨k, here, step⟩ := first
    rw [ih fun c mem => others c (List.mem_cons_of_mem _ mem), step_data here (others _ List.mem_cons_self) step]

/-- What has been written is read, through any descriptor, until something is written to the file again. -/
theorem written_bytes_read {cs : List Call} {fd' : Int} {len' most most' : Nat} {user user' : Nat → Bool}
    {src old out : DiskBlock} {r' : Int} (opened : Opened F of v) (here : of fd = some k) (there : of fd' = some k)
    (wrote : SysStep v (.write fd len user src most r) w) (between : Run (OnFiles of fun _ => SysStep) w cs x)
    (others : ∀ c ∈ cs, ¬ c.Writes of k) (read : SysStep x (.read fd' len' user' old out most' r') y) {i j : Nat}
    (written : i < r.toNat) (delivered : j < r'.toNat)
    (place : (entryOf x fd').pos.toNat + j = (entryOf v fd).pos.toNat + i) : out j = src i := by
  have start := shows_seen opened
  obtain ⟨b, ⟨_, _, _, size, _, stored⟩, shown⟩ := write_step start here wrote.1
  obtain ⟨b', later, shown'⟩ := run_shown shown between
  obtain ⟨_, ⟨_, _, bytes, _⟩, _⟩ := read_step shown' there read.1
  have kept := run_data others later
  have new : (b.file k).data = (((seen v).file k).write src ((seen v).pos fd).toNat r.toNat).data := by
    rw [stored]
    simp [ByteFiles.put]
  have byte : (b'.file k).data ((b'.pos fd').toNat + j) = src i := by
    rw [← shown_pos shown' there, place, shown_pos start here, kept, new]
    unfold ByteFile.File.write placed
    dsimp only
    rw [splice_inside (by omega) (by omega)]
    congr 1
    omega
  rw [bytes]
  unfold overlay
  rw [if_pos (by omega)]
  simpa using byte

end Files

section Witness

/- A process with a file of one byte open to read and write. -/
def editor : Vfs :=
  { reader with files := fun _ => ⟨none, fun _ => ⟨.opened, true, true, 0, some (.sfs 1), 1⟩, 1⟩ }

def editorFiles (fd : Int) : Option Nat := if fd = 0 then some 1 else none

theorem editor_opened : Opened {1} editorFiles editor := by
  have first : ∀ {fd : Int} {k : Nat}, editorFiles fd = some k → fd = 0 ∧ k = 1 := by
    intro fd k here
    unfold editorFiles at here
    split_ifs at here with zero
    cases here
    exact ⟨zero, rfl⟩
  constructor
  · exact one_byte_maps
  · intro fd k here
    rw [(first here).1]
    decide
  · intro fd k here
    obtain ⟨rfl, rfl⟩ := first here
    exact ⟨rfl, rfl⟩
  · rintro k rfl q behind
    unfold fileData fileByte
    split_ifs
    · rfl
    · rfl

/- A byte is written, the position set back, and a byte read: what the calls return, and the position before the last. -/
def editOutcome : Option (Int × Int × Int × Int) :=
  (sysfileWrite 0 1 (fun _ => true) (fun _ => 7) editor).toOption.bind fun a =>
    (sysfileSeek 0 0 LSEEK_SET a.2).toOption.bind fun b =>
      (sysfileRead 0 1 (fun _ => true) (fun _ => 0) b.2).toOption.map fun c => (a.1, b.1, (entryOf b.2 0).pos, c.1.1)

theorem edit_outcome : editOutcome = some (1, 0, 0, 1) := by decide +kernel

theorem to_option_ok {ε α : Type} {r : Except ε α} {a : α} (here : r.toOption = some a) : r = .ok a := by
  cases r with
  | error e => cases here
  | ok b =>
    cases here
    rfl

theorem edited : ∃ w x out y, sysfileWrite 0 1 (fun _ => true) (fun _ => 7) editor = .ok (1, w) ∧
    sysfileSeek 0 0 LSEEK_SET w = .ok (0, x) ∧ (entryOf x 0).pos = 0 ∧
    sysfileRead 0 1 (fun _ => true) (fun _ => 0) x = .ok ((1, out), y) := by
  obtain ⟨⟨r, w⟩, wrote, rest⟩ := Option.bind_eq_some_iff.mp edit_outcome
  obtain ⟨⟨ret, x⟩, sought, rest⟩ := Option.bind_eq_some_iff.mp rest
  obtain ⟨⟨⟨n, out⟩, y⟩, read, same⟩ := Option.map_eq_some_iff.mp rest
  simp only [Prod.mk.injEq] at same
  obtain ⟨rfl, rfl, pos, rfl⟩ := same
  exact ⟨w, x, out, y, to_option_ok wrote, to_option_ok sought, pos, to_option_ok read⟩

theorem edit_refines : ∃ w x b, Opened {1} editorFiles editor ∧
    Run (OnFiles editorFiles fun _ => SysStep) editor
      [.write 0 1 (fun _ => true) (fun _ => 7) (capacity true editor 0 1) 1, .seek 0 0 LSEEK_SET 0] x ∧
    Run (OnFiles editorFiles FileStep) (seen editor)
      [.write 0 1 (fun _ => true) (fun _ => 7) (capacity true editor 0 1) 1, .seek 0 0 LSEEK_SET 0] b ∧
    Shows {1} editorFiles x b ∧ sysfileSeek 0 0 LSEEK_SET w = .ok (0, x) := by
  obtain ⟨w, x, out, y, wrote, sought, _, _⟩ := edited
  have second : OnFiles editorFiles (fun _ => SysStep) w (.seek 0 0 LSEEK_SET 0) x := ⟨1, rfl, sought⟩
  have run : Run (OnFiles editorFiles fun _ => SysStep) editor
      [.write 0 1 (fun _ => true) (fun _ => 7) (capacity true editor 0 1) 1, .seek 0 0 LSEEK_SET 0] x :=
    .call ⟨1, rfl, wrote, rfl⟩ (.call second (.stop x))
  obtain ⟨b, later, shown⟩ := calls_refine_byte_files editor_opened run
  exact ⟨w, x, b, editor_opened, run, later, shown, sought⟩

theorem seven_read_back : ∃ w x out y, sysfileWrite 0 1 (fun _ => true) (fun _ => 7) editor = .ok (1, w) ∧
    sysfileSeek 0 0 LSEEK_SET w = .ok (0, x) ∧ sysfileRead 0 1 (fun _ => true) (fun _ => 0) x = .ok ((1, out), y) ∧
    out 0 = 7 := by
  obtain ⟨w, x, out, y, wrote, sought, pos, read⟩ := edited
  have second : OnFiles editorFiles (fun _ => SysStep) w (.seek 0 0 LSEEK_SET 0) x := ⟨1, rfl, sought⟩
  have quiet : ∀ c ∈ [Call.seek 0 0 LSEEK_SET 0], ¬ c.Writes editorFiles 1 := by
    intro c mem
    rw [List.mem_singleton.mp mem]
    exact not_false
  have seven : out 0 = (fun _ => 7 : DiskBlock) 0 :=
    written_bytes_read editor_opened rfl rfl (⟨wrote, rfl⟩ : SysStep editor (.write 0 1 (fun _ => true) (fun _ => 7) _ 1) w)
      (.call second (.stop x)) quiet (⟨read, rfl⟩ : SysStep x (.read 0 1 (fun _ => true) (fun _ => 0) out _ 1) y)
      (by decide : 0 < (1 : Int).toNat) (by decide : 0 < (1 : Int).toNat) (by rw [pos]; rfl)
  exact ⟨w, x, out, y, wrote, sought, read, seven⟩

end Witness

end Ucore.SysfileRuns
