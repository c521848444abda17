import Ucore.Fs.Namefile
import Ucore.Lib.Transitions

/- lab8/kern/fs/devs/dev_disk0.c, with `iobuf_move` (fs/iobuf.c), the IDE layer (driver/ide.c) and the RAM disk under
   it (driver/ramdisk.c). The image, the driver's buffer and the caller's buffer lie in one memory. The semaphore is
   held around the whole loop. -/
namespace Ucore.Disk0
open Programs Words ByteMemory Transitions

def SECTSIZE : Nat := 512
def MAX_NSECS : Nat := 128
def MAX_DISK_NSECS : Nat := 0x10000000
def DISK0_BLKSIZE : Nat := 4096
def DISK0_BUFSIZE : Nat := 4 * DISK0_BLKSIZE
def DISK0_BLK_NSECT : Nat := DISK0_BLKSIZE / SECTSIZE

structure IdeDevice where
  valid : Bool
  size : Nat
  iobase : Nat
  deriving DecidableEq, Repr

/- What the driver uses: the memory, `disk0_buffer`, the drive, and `d_blocks` of the device. -/
structure Kern where
  mem : KernelMemory
  disk0Buffer : Nat
  ide : IdeDevice
  dBlocks : Nat

inductive DiskStop where
  | assertion
  | panicked
  deriving DecidableEq, Repr

abbrev DiskM (α : Type) := Prog DiskStop Kern α

section Ramdisk

/- An image from `first` to before `last`; without one the device stays invalid. -/
def ramdiskInit (first last : Nat) : IdeDevice :=
  if first = last then ⟨false, 0, 0⟩ else ⟨true, u32 (last - first : Nat) / SECTSIZE, first⟩

/- `MIN(nsecs, dev->size - secno)`, with unsigned operands. -/
def ramdiskSecs (dev : IdeDevice) (secno nsecs : Nat) : Nat :=
  min nsecs ((dev.size + 2 ^ 64 - secno) % 2 ^ 64)

def memcpy (dst src n : Nat) (mem : KernelMemory) : KernelMemory := moveUp n dst src mem

def ramdiskRead (secno dst nsecs : Nat) : DiskM Int := do
  let k ← get
  let nsecs := ramdiskSecs k.ide secno nsecs
  set { k with mem := memcpy dst (k.ide.iobase + secno * SECTSIZE) (nsecs * SECTSIZE) k.mem }
  return 0

def ramdiskWrite (secno src nsecs : Nat) : DiskM Int := do
  let k ← get
  let nsecs := ramdiskSecs k.ide secno nsecs
  set { k with mem := memcpy (k.ide.iobase + secno * SECTSIZE) src (nsecs * SECTSIZE) k.mem }
  return 0

end Ramdisk

section Ide

def ideDeviceSize (dev : IdeDevice) : Nat := if dev.valid then dev.size else 0

def ideReadSecs (secno dst nsecs : Nat) : DiskM Int := do
  let k ← get
  check .assertion (nsecs ≤ MAX_NSECS ∧ k.ide.valid)
  check .assertion (secno < MAX_DISK_NSECS ∧ secno + nsecs ≤ MAX_DISK_NSECS)
  ramdiskRead secno dst nsecs

def ideWriteSecs (secno src nsecs : Nat) : DiskM Int := do
  let k ← get
  check .assertion (nsecs ≤ MAX_NSECS ∧ k.ide.valid)
  check .assertion (secno < MAX_DISK_NSECS ∧ secno + nsecs ≤ MAX_DISK_NSECS)
  ramdiskWrite secno src nsecs

end Ide

section Moving

/- What `iobuf_move` returns and leaves. -/
structure IobufMoved where
  ret : Int
  copied : Nat
  iob : Iobuf

def iobufMove (iob : Iobuf) (data len : Nat) (m2b : Bool) : DiskM IobufMoved := do
  let alen := if iob.ioResid > len then len else iob.ioResid
  let ret := if len - alen = 0 then 0 else -E_NO_MEM
  if alen > 0 then
    modify fun k => { k with
      mem := if m2b then memmove iob.ioBase data alen k.mem else memmove data iob.ioBase alen k.mem }
    -- `iobuf_skip`
    check .assertion (iob.ioResid ≥ alen)
    return ⟨ret, alen, ⟨iob.ioBase + alen, iob.ioOffset + alen, iob.ioResid - alen⟩⟩
  else return ⟨ret, alen, iob⟩

end Moving

section Driver

def disk0ReadBlksNolock (blkno nblks : Nat) : DiskM Unit := do
  let k ← get
  let ret ← ideReadSecs (u32 (blkno * DISK0_BLK_NSECT : Nat)) k.disk0Buffer (u32 (nblks * DISK0_BLK_NSECT : Nat))
  check .panicked (ret = 0)

def disk0WriteBlksNolock (blkno nblks : Nat) : DiskM Unit := do
  let k ← get
  let ret ← ideWriteSecs (u32 (blkno * DISK0_BLK_NSECT : Nat)) k.disk0Buffer (u32 (nblks * DISK0_BLK_NSECT : Nat))
  check .panicked (ret = 0)

def disk0WriteRound (iob : Iobuf) (resid blkno : Nat) : DiskM IobufMoved := do
  let k ← get
  let moved ← iobufMove iob k.disk0Buffer DISK0_BUFSIZE false
  check .assertion (moved.copied ≠ 0 ∧ moved.copied ≤ resid ∧ moved.copied % DISK0_BLKSIZE = 0)
  disk0WriteBlksNolock blkno (u32 (moved.copied / DISK0_BLKSIZE : Nat))
  return moved

def disk0ReadRound (iob : Iobuf) (resid blkno : Nat) : DiskM IobufMoved := do
  let k ← get
  let alen := if DISK0_BUFSIZE > resid then resid else DISK0_BUFSIZE
  disk0ReadBlksNolock blkno (u32 (alen / DISK0_BLKSIZE : Nat))
  let moved ← iobufMove iob k.disk0Buffer alen true
  check .assertion (moved.copied = alen ∧ moved.copied % DISK0_BLKSIZE = 0)
  return moved

def disk0Round (write : Bool) (iob : Iobuf) (resid blkno : Nat) : DiskM IobufMoved :=
  if write then disk0WriteRound iob resid blkno else disk0ReadRound iob resid blkno

/- The loop. A round that ends has moved something, so as many rounds as there are bytes are enough. -/
def disk0Loop (write : Bool) : Nat → Iobuf → Nat → Nat → DiskM Iobuf
  | 0, iob, _, _ => return iob
  | fuel + 1, iob, resid, blkno =>
      if resid = 0 then return iob
      else do
        let moved ← disk0Round write iob resid blkno
        let nblks := u32 (moved.copied / DISK0_BLKSIZE : Nat)
        disk0Loop write fuel moved.iob (resid - moved.copied) (u32 (blkno + nblks : Nat))

/- The returned code, and the buffer after the call. -/
def disk0Io (iob : Iobuf) (write : Bool) : DiskM (Int × Iobuf) := do
  let k ← get
  let blkno := u32 (iob.ioOffset.tdiv DISK0_BLKSIZE)
  let nblks := u32 (iob.ioResid / DISK0_BLKSIZE : Nat)
  if iob.ioOffset.tmod DISK0_BLKSIZE ≠ 0 ∨ iob.ioResid % DISK0_BLKSIZE ≠ 0 then return (-E_INVAL, iob)
  else if u32 (blkno + nblks : Nat) > k.dBlocks then return (-E_INVAL, iob)
  else if nblks = 0 then return (0, iob)
  else do
    let iob ← disk0Loop write iob.ioResid iob iob.ioResid blkno
    return (0, iob)

/- `disk0_device_init`, with the address that `kmalloc` gives for the buffer. -/
def disk0DeviceInit (mem : KernelMemory) (ide : IdeDevice) (buffer : Option Nat) : Except DiskStop Kern :=
  if ide.valid then
    match buffer with
    | some disk0Buffer => .ok ⟨mem, disk0Buffer, ide, ideDeviceSize ide / DISK0_BLK_NSECT⟩
    | none => .error .panicked
  else .error .panicked

end Driver

section Moves
variable {n m d s b : Nat} {mem mem' : KernelMemory}

/-- The same outside the `size` bytes from `b` on. -/
def SameOutside (b size : Nat) (mem mem' : KernelMemory) : Prop :=
  ∀ a, a < b ∨ b + size ≤ a → mem a = mem' a

/- Two areas that do not meet. -/
def Apart (x n y m : Nat) : Prop := x + n ≤ y ∨ y + m ≤ x

/- Through a buffer. -/
theorem moved_through {size : Nat} (fits : n ≤ size) :
    SameOutside b size (bytesMoved n d b (bytesMoved n b s mem)) (bytesMoved n d s mem) := by
  intro a outside
  unfold bytesMoved
  by_cases inside : d ≤ a ∧ a < d + n
  · rw [if_pos inside, if_pos inside, if_pos (by omega)]
    congr 1
    omega
  · rw [if_neg inside, if_neg inside, if_neg (by omega)]

/- One piece after the other. -/
theorem moved_chain {size : Nat} (first : SameOutside b size mem' (bytesMoved n d s mem))
    (source : Apart s (n + m) b size) (apart : Apart s (n + m) d (n + m)) :
    SameOutside b size (bytesMoved m (d + n) (s + n) mem') (bytesMoved (n + m) d s mem) := by
  intro a outside
  unfold Apart at source apart
  have here := first a outside
  unfold bytesMoved at here ⊢
  by_cases later : d + n ≤ a ∧ a < d + n + m
  · have there := first (s + n + (a - (d + n))) (by omega)
    unfold bytesMoved at there
    rw [if_pos later, if_pos (by omega), there, if_neg (by omega)]
    congr 1
    omega
  · rw [if_neg later, here]
    by_cases sooner : d ≤ a ∧ a < d + n
    · rw [if_pos sooner, if_pos (by omega)]
    · rw [if_neg sooner, if_neg (by omega)]

theorem same_outside_trans {size : Nat} {mem'' : KernelMemory} (first : SameOutside b size mem mem')
    (second : SameOutside b size mem' mem'') : SameOutside b size mem mem'' := by
  intro a outside
  rw [first a outside, second a outside]

end Moves

section Rounds
variable {k : Kern} {iob : Iobuf} {mem : KernelMemory} {blkno resid c : Nat}

/-- The driver is set up: its buffer and the image do not meet, and no sector of the device is beyond what the IDE
layer addresses. -/
structure Ready (k : Kern) : Prop where
  valid : k.ide.valid = true
  blocks : k.dBlocks = k.ide.size / DISK0_BLK_NSECT
  addressed : k.ide.size ≤ MAX_DISK_NSECS
  apart : Apart k.disk0Buffer DISK0_BUFSIZE k.ide.iobase (k.ide.size * SECTSIZE)

/- Where a block of the device lies. -/
def Kern.blockAt (k : Kern) (blkno : Nat) : Nat := k.ide.iobase + blkno * DISK0_BLKSIZE

theorem ready_mem (ready : Ready k) : Ready { k with mem } := ⟨ready.valid, ready.blocks, ready.addressed, ready.apart⟩

theorem ramdisk_secs {dev : IdeDevice} {secno nsecs : Nat} (inside : secno + nsecs ≤ dev.size)
    (small : dev.size ≤ MAX_DISK_NSECS) : ramdiskSecs dev secno nsecs = nsecs := by
  unfold MAX_DISK_NSECS at small
  have room : (dev.size + 2 ^ 64 - secno) % 2 ^ 64 = dev.size - secno := by omega
  unfold ramdiskSecs
  rw [room]
  exact Nat.min_eq_left (by omega)

/- The whole blocks of a chunk, as the driver passes them down. -/
structure Chunk (k : Kern) (blkno c : Nat) : Prop where
  aligned : c % DISK0_BLKSIZE = 0
  fits : c ≤ DISK0_BUFSIZE
  nonzero : c ≠ 0
  inside : blkno + c / DISK0_BLKSIZE ≤ k.dBlocks

theorem chunk_sectors (ready : Ready k) (chunk : Chunk k blkno c) :
    u32 (blkno * DISK0_BLK_NSECT : Nat) = blkno * 8 ∧
      u32 (u32 (c / DISK0_BLKSIZE : Nat) * DISK0_BLK_NSECT : Nat) = c / 512 ∧ c / 512 * SECTSIZE = c ∧
      blkno * 8 + c / 512 ≤ k.ide.size ∧ c / 512 ≤ MAX_NSECS ∧ blkno * 8 < MAX_DISK_NSECS := by
  obtain ⟨aligned, fits, nonzero, inside⟩ := chunk
  have blocks := ready.blocks
  have addressed := ready.addressed
  have sectors : DISK0_BLK_NSECT = 8 := rfl
  have bytes : DISK0_BLKSIZE = 4096 := rfl
  have sector : SECTSIZE = 512 := rfl
  have most : MAX_NSECS = 128 := rfl
  have all : MAX_DISK_NSECS = 268435456 := rfl
  have whole : DISK0_BUFSIZE = 16384 := rfl
  rw [sectors] at blocks
  rw [bytes] at aligned inside
  have count : u32 (c / 4096 : Nat) = c / 4096 := by
    apply u32_of_nat
    unfold wordSize
    omega
  have place : u32 (blkno * 8 : Nat) = blkno * 8 := by
    apply u32_of_nat
    unfold wordSize
    omega
  have size : u32 (c / 4096 * 8 : Nat) = c / 4096 * 8 := by
    apply u32_of_nat
    unfold wordSize
    omega
  rw [sectors, bytes, count, place, size, sector, most, all]
  refine ⟨rfl, ?_, ?_, ?_, ?_, ?_⟩ <;> omega

theorem read_blks_run (ready : Ready k) (chunk : Chunk k blkno c) :
    disk0ReadBlksNolock blkno (u32 (c / DISK0_BLKSIZE : Nat)) { k with mem } =
      .ok ((), { k with mem := bytesMoved c k.disk0Buffer (k.blockAt blkno) mem }) := by
  obtain ⟨place, count, bytes, inside, most, low⟩ := chunk_sectors ready chunk
  have addressed := ready.addressed
  have apart := ready.apart
  have fits := chunk.fits
  have image : k.ide.iobase + blkno * 8 * SECTSIZE = k.blockAt blkno := by
    unfold Kern.blockAt SECTSIZE DISK0_BLKSIZE
    omega
  have separate : k.disk0Buffer ≤ k.blockAt blkno ∨ k.blockAt blkno + c ≤ k.disk0Buffer := by
    unfold Apart SECTSIZE at apart
    unfold Kern.blockAt DISK0_BLKSIZE
    unfold SECTSIZE at bytes
    omega
  have sectors : ideReadSecs (blkno * 8) k.disk0Buffer (c / 512) { k with mem } =
      .ok (0, { k with mem := bytesMoved c k.disk0Buffer (k.blockAt blkno) mem }) := by
    unfold ideReadSecs ramdiskRead memcpy
    rw [run_get_bind, run_check_bind ⟨most, ready.valid⟩, run_check_bind ⟨low, inside.trans addressed⟩, run_get_bind,
      run_set_bind, ramdisk_secs inside addressed, bytes, image, move_up_moves separate]
    rfl
  unfold disk0ReadBlksNolock
  rw [run_get_bind, place, count, run_bind sectors]
  exact run_check rfl

theorem write_blks_run (ready : Ready k) (chunk : Chunk k blkno c) :
    disk0WriteBlksNolock blkno (u32 (c / DISK0_BLKSIZE : Nat)) { k with mem } =
      .ok ((), { k with mem := bytesMoved c (k.blockAt blkno) k.disk0Buffer mem }) := by
  obtain ⟨place, count, bytes, inside, most, low⟩ := chunk_sectors ready chunk
  have addressed := ready.addressed
  have apart := ready.apart
  have fits := chunk.fits
  have image : k.ide.iobase + blkno * 8 * SECTSIZE = k.blockAt blkno := by
    unfold Kern.blockAt SECTSIZE DISK0_BLKSIZE
    omega
  have separate : k.blockAt blkno ≤ k.disk0Buffer ∨ k.disk0Buffer + c ≤ k.blockAt blkno := by
    unfold Apart SECTSIZE at apart
    unfold Kern.blockAt DISK0_BLKSIZE
    unfold SECTSIZE at bytes
    omega
  have sectors : ideWriteSecs (blkno * 8) k.disk0Buffer (c / 512) { k with mem } =
      .ok (0, { k with mem := bytesMoved c (k.blockAt blkno) k.disk0Buffer mem }) := by
    unfold ideWriteSecs ramdiskWrite memcpy
    rw [run_get_bind, run_check_bind ⟨most, ready.valid⟩, run_check_bind ⟨low, inside.trans addressed⟩, run_get_bind,
      run_set_bind, ramdisk_secs inside addressed, bytes, image, move_up_moves separate]
    rfl
  unfold disk0WriteBlksNolock
  rw [run_get_bind, place, count, run_bind sectors]
  exact run_check rfl

theorem move_run {data len : Nat} {m2b : Bool} (some_left : 0 < min iob.ioResid len) :
    ∃ ret, iobufMove iob data len m2b { k with mem } =
      .ok (⟨ret, min iob.ioResid len, iob.ioBase + min iob.ioResid len, iob.ioOffset + (min iob.ioResid len : Nat),
        iob.ioResid - min iob.ioResid len⟩, { k with
          mem := bytesMoved (min iob.ioResid len) (if m2b then iob.ioBase else data) (if m2b then data else iob.ioBase)
            mem }) := by
  have least : (if iob.ioResid > len then len else iob.ioResid) = min iob.ioResid len := by
    split_ifs <;> omega
  refine ⟨if len - min iob.ioResid len = 0 then 0 else -E_NO_MEM, ?_⟩
  unfold iobufMove
  rw [least, if_pos some_left, run_modify_bind, run_check_bind (Nat.min_le_left _ _)]
  cases m2b <;> simp only [memmove_moves, if_true, if_false, Bool.false_eq_true] <;> rfl

/- Where a transfer goes to, and where it comes from. -/
def destination (k : Kern) (write : Bool) (base blkno : Nat) : Nat := if write then k.blockAt blkno else base
def origin (k : Kern) (write : Bool) (base blkno : Nat) : Nat := if write then base else k.blockAt blkno

/- One round moves a chunk through the buffer. -/
theorem round_run (write : Bool) (ready : Ready k) (chunk : Chunk k blkno c) (left : iob.ioResid = resid)
    (size : c = min resid DISK0_BUFSIZE) :
    ∃ ret mem', disk0Round write iob resid blkno { k with mem } =
        .ok (⟨ret, c, iob.ioBase + c, iob.ioOffset + (c : Nat), resid - c⟩, { k with mem := mem' }) ∧
      SameOutside k.disk0Buffer DISK0_BUFSIZE mem'
        (bytesMoved c (destination k write iob.ioBase blkno) (origin k write iob.ioBase blkno) mem) := by
  subst left
  have nonzero := chunk.nonzero
  have bounded : c ≤ iob.ioResid := by omega
  unfold disk0Round
  cases write with
  | true =>
    obtain ⟨ret, moved⟩ := @move_run k iob mem k.disk0Buffer DISK0_BUFSIZE false (by omega)
    rw [← size] at moved
    refine ⟨ret, _, ?_, moved_through chunk.fits⟩
    rw [if_pos rfl]
    unfold disk0WriteRound
    rw [run_get_bind, run_bind moved, run_check_bind ⟨nonzero, bounded, chunk.aligned⟩]
    exact run_bind (write_blks_run ready chunk)
  | false =>
    have least : (if DISK0_BUFSIZE > iob.ioResid then iob.ioResid else DISK0_BUFSIZE) = c := by
      split_ifs <;> omega
    have all : min iob.ioResid c = c := by omega
    obtain ⟨ret, moved⟩ := @move_run k iob (bytesMoved c k.disk0Buffer (k.blockAt blkno) mem) k.disk0Buffer c true
      (by omega)
    rw [all] at moved
    refine ⟨ret, _, ?_, moved_through chunk.fits⟩
    rw [if_neg (by decide)]
    unfold disk0ReadRound
    rw [run_get_bind]
    dsimp only
    rw [least, run_bind (read_blks_run ready chunk), run_bind moved, run_check_bind ⟨rfl, chunk.aligned⟩]
    rfl

/- The caller's bytes meet neither the image nor the driver's buffer. -/
structure Outside (k : Kern) (base n : Nat) : Prop where
  buffer : Apart base n k.disk0Buffer DISK0_BUFSIZE
  image : Apart base n k.ide.iobase (k.ide.size * SECTSIZE)

/- By induction on the rounds: what is left after one is moved from where that one ended. -/
theorem loop_run (write : Bool) {fuel : Nat} (ready : Ready k) (left : iob.ioResid = resid)
    (aligned : resid % DISK0_BLKSIZE = 0) (inside : blkno + resid / DISK0_BLKSIZE ≤ k.dBlocks) (enough : resid ≤ fuel)
    (outside : Outside k iob.ioBase resid) :
    ∃ mem', disk0Loop write fuel iob resid blkno { k with mem } =
        .ok (⟨iob.ioBase + resid, iob.ioOffset + (resid : Nat), 0⟩, { k with mem := mem' }) ∧
      SameOutside k.disk0Buffer DISK0_BUFSIZE mem'
        (bytesMoved resid (destination k write iob.ioBase blkno) (origin k write iob.ioBase blkno) mem) := by
  induction fuel generalizing iob resid blkno mem with
  | zero =>
    obtain rfl : resid = 0 := by omega
    refine ⟨mem, ?_, ?_⟩
    · unfold disk0Loop
      cases iob
      subst left
      simp [run_pure]
    · rw [moved_nothing]
      exact fun a _ => rfl
  | succ fuel ih =>
    unfold disk0Loop
    by_cases done : resid = 0
    · subst done
      refine ⟨mem, ?_, ?_⟩
      · cases iob
        subst left
        simp [run_pure]
      · rw [moved_nothing]
        exact fun a _ => rfl
    rw [if_neg done]
    obtain ⟨c, size⟩ : ∃ c, c = min resid DISK0_BUFSIZE := ⟨_, rfl⟩
    have blocks : DISK0_BLKSIZE = 4096 := rfl
    have whole : DISK0_BUFSIZE = 16384 := rfl
    have sectors : DISK0_BLK_NSECT = 8 := rfl
    have most : MAX_DISK_NSECS = 268435456 := rfl
    have device := ready.blocks
    have addressed := ready.addressed
    rw [blocks] at aligned inside
    rw [sectors] at device
    rw [most] at addressed
    have chunk : Chunk k blkno c := by
      constructor
      · rw [blocks]
        omega
      · omega
      · omega
      · rw [blocks]
        omega
    obtain ⟨ret, mem₁, first, moved⟩ := @round_run k iob mem blkno resid c write ready chunk left size
    have count : u32 (c / DISK0_BLKSIZE : Nat) = c / 4096 := by
      apply u32_of_nat
      rw [blocks]
      unfold wordSize
      omega
    have next : u32 (blkno + c / 4096 : Nat) = blkno + c / 4096 := by
      apply u32_of_nat
      unfold wordSize
      omega
    have behind : Outside k (iob.ioBase + c) (resid - c) := by
      obtain ⟨buffer, image⟩ := outside
      unfold Apart at buffer image
      constructor
      · unfold Apart
        omega
      · unfold Apart
        omega
    obtain ⟨mem₂, rest, later⟩ :=
      @ih ⟨iob.ioBase + c, iob.ioOffset + (c : Nat), resid - c⟩ mem₁ (blkno + c / 4096) (resid - c)
      rfl (by rw [blocks]; omega) (by rw [blocks]; omega) (by omega) behind
    have place : iob.ioBase + c + (resid - c) = iob.ioBase + resid := by omega
    have offset : iob.ioOffset + (c : Nat) + (resid - c : Nat) = iob.ioOffset + (resid : Nat) := by omega
    refine ⟨mem₂, ?_, ?_⟩
    · rw [run_bind first]
      dsimp only
      rw [count, next, rest]
      dsimp only
      rw [place, offset]
    · have split : c + (resid - c) = resid := by omega
      have shifted : k.blockAt (blkno + c / 4096) = k.blockAt blkno + c := by
        unfold Kern.blockAt
        rw [blocks]
        omega
      have image : k.blockAt blkno + resid ≤ k.ide.iobase + k.ide.size * SECTSIZE ∧ k.ide.iobase ≤ k.blockAt blkno := by
        unfold Kern.blockAt SECTSIZE
        rw [blocks]
        omega
      obtain ⟨buffer, away⟩ := outside
      have apart := ready.apart
      unfold Apart at buffer away apart
      apply same_outside_trans later
      cases write with
      | true =>
        change SameOutside _ _ (bytesMoved (resid - c) (k.blockAt (blkno + c / 4096)) (iob.ioBase + c) mem₁)
          (bytesMoved resid (k.blockAt blkno) iob.ioBase mem)
        rw [shifted]
        have chained := moved_chain (m := resid - c) moved (by rw [split]; exact buffer)
          (by unfold destination origin Apart; rw [split, if_pos rfl, if_pos rfl]; omega)
        rwa [split] at chained
      | false =>
        change SameOutside _ _ (bytesMoved (resid - c) (iob.ioBase + c) (k.blockAt (blkno + c / 4096)) mem₁)
          (bytesMoved resid iob.ioBase (k.blockAt blkno) mem)
        rw [shifted]
        have chained := moved_chain (m := resid - c) moved (by
            unfold origin Apart
            rw [split, if_neg (by decide)]
            omega)
          (by unfold destination origin Apart; rw [split, if_neg (by decide), if_neg (by decide)]; omega)
        rwa [split] at chained

end Rounds

section Requests
variable {k : Kern} {iob : Iobuf}

/-- A request is refused where it is not made of whole blocks of the device, and otherwise moves exactly its bytes. -/
def IoOutcome (k : Kern) (iob : Iobuf) (write : Bool) : Prop :=
  if iob.ioOffset % DISK0_BLKSIZE ≠ 0 ∨ iob.ioResid % DISK0_BLKSIZE ≠ 0 ∨
      (k.dBlocks * DISK0_BLKSIZE : Nat) < iob.ioOffset + iob.ioResid then
    disk0Io iob write k = .ok ((-E_INVAL, iob), k)
  else
    ∃ mem', disk0Io iob write k =
        .ok ((0, ⟨iob.ioBase + iob.ioResid, iob.ioOffset + iob.ioResid, 0⟩), { k with mem := mem' }) ∧
      SameOutside k.disk0Buffer DISK0_BUFSIZE mem' (bytesMoved iob.ioResid
        (destination k write iob.ioBase (iob.ioOffset.toNat / DISK0_BLKSIZE))
        (origin k write iob.ioBase (iob.ioOffset.toNat / DISK0_BLKSIZE)) k.mem)

/- So are the requests at the byte offsets that 32-bit block numbers address. -/
theorem io_outcome (write : Bool) (ready : Ready k) (forward : 0 ≤ iob.ioOffset)
    (addressed : iob.ioOffset + iob.ioResid < 2 ^ 44) (outside : Outside k iob.ioBase iob.ioResid) :
    IoOutcome k iob write := by
  obtain ⟨base, offset, resid⟩ := iob
  obtain ⟨start, rfl⟩ := Int.eq_ofNat_of_zero_le forward
  unfold IoOutcome
  dsimp only at addressed outside ⊢
  have blocks : DISK0_BLKSIZE = 4096 := rfl
  have below : start + resid < 2 ^ 44 := by omega
  have quotient : (start : Int).tdiv (DISK0_BLKSIZE : Nat) = (start / 4096 : Nat) := by
    rw [blocks]
    rfl
  have remainder : (start : Int).tmod (DISK0_BLKSIZE : Nat) = (start % 4096 : Nat) := by
    rw [blocks]
    rfl
  have number : u32 (start / 4096 : Nat) = start / 4096 := by
    apply u32_of_nat
    unfold wordSize
    omega
  have count : u32 (resid / 4096 : Nat) = resid / 4096 := by
    apply u32_of_nat
    unfold wordSize
    omega
  have sum : start % 4096 = 0 → u32 (start / 4096 + resid / 4096 : Nat) = start / 4096 + resid / 4096 := by
    intro aligned
    apply u32_of_nat
    unfold wordSize
    omega
  unfold disk0Io
  simp only [run_get_bind]
  rw [quotient, remainder, number, blocks, count]
  split_ifs with bad misaligned past nothing misaligned past nothing
  · rfl
  · rfl
  · rw [sum (by omega)] at past
    omega
  · rw [sum (by omega)] at past
    omega
  · omega
  · rw [sum (by omega)] at past
    omega
  · obtain rfl : resid = 0 := by omega
    refine ⟨k.mem, rfl, ?_⟩
    rw [moved_nothing]
    exact fun a _ => rfl
  · rw [sum (by omega)] at past
    have whole : resid % 4096 = 0 := by omega
    have fits : start / 4096 + resid / 4096 ≤ k.dBlocks := by omega
    obtain ⟨mem', run, moved⟩ := @loop_run k ⟨base, start, resid⟩ k.mem (start / 4096) resid write resid ready rfl whole
      fits (Nat.le_refl resid) outside
    exact ⟨mem', run_bind run, moved⟩

/- The driver as it is set up over an image of `size` bytes that does not meet its buffer. -/
theorem init_ready {mem : KernelMemory} {first size buffer : Nat} (some_there : 0 < size) (short : size < 2 ^ 32)
    (apart : Apart buffer DISK0_BUFSIZE first size) :
    ∃ k, disk0DeviceInit mem (ramdiskInit first (first + size)) (some buffer) = .ok k ∧ Ready k := by
  have bytes : u32 (first + size - first : Nat) = size := by
    rw [Nat.add_sub_cancel_left]
    exact u32_of_nat short
  have drive : ramdiskInit first (first + size) = ⟨true, size / SECTSIZE, first⟩ := by
    unfold ramdiskInit
    rw [if_neg (by omega), bytes]
  have sector : SECTSIZE = 512 := rfl
  have most : MAX_DISK_NSECS = 268435456 := rfl
  refine ⟨⟨mem, buffer, ⟨true, size / SECTSIZE, first⟩, size / SECTSIZE / DISK0_BLK_NSECT⟩, ?_, rfl, rfl, ?_, ?_⟩
  · rw [drive]
    rfl
  · dsimp only
    rw [sector, most]
    omega
  · unfold Apart at apart ⊢
    dsimp only
    rw [sector]
    omega

/- A drive of two blocks of zeros; the page of a caller holds sevens. -/
def zeroDisk : Kern := ⟨fun a => if 131072 ≤ a ∧ a < 135168 then some 7 else some 0, 16384, ⟨true, 16, 65536⟩, 2⟩

theorem zero_disk_ready : Ready zeroDisk := by
  have apart : Apart 16384 DISK0_BUFSIZE 65536 8192 := by
    unfold Apart
    decide
  obtain ⟨k, made, ready⟩ := @init_ready zeroDisk.mem 65536 8192 16384 (by decide) (by decide) apart
  obtain rfl : zeroDisk = k := Except.ok.inj made
  exact ready

theorem zero_disk_outside {mem : KernelMemory} {base : Nat} (high : 131072 ≤ base) :
    Outside { zeroDisk with mem } base 4096 := by
  constructor
  · exact .inr (Nat.le_trans (show 16384 + DISK0_BUFSIZE ≤ 131072 by decide) high)
  · exact .inr (Nat.le_trans (show 65536 + 16 * SECTSIZE ≤ 131072 by decide) high)

end Requests

section Device

/-- What may happen to the device: data written from a byte offset on or read there, a request that is refused, and
anything that leaves the image and the driver alone. -/
inductive DiskCall where
  | write (offset : Nat) (data : List UInt8)
  | read (offset : Nat) (data : List UInt8)
  | refused (offset len : Nat)
  | other

/-- Whole blocks of a device with `size` bytes. -/
def Whole (size offset len : Nat) : Prop :=
  offset % DISK0_BLKSIZE = 0 ∧ len % DISK0_BLKSIZE = 0 ∧ offset + len ≤ size

/-- An array of `size` bytes. -/
def ArrayStep (size : Nat) (d : KernelMemory) : DiskCall → KernelMemory → Prop
  | .write offset data, d' => Whole size offset data.length ∧ d' = put d offset data
  | .read offset data, d' => Whole size offset data.length ∧ Has d offset data ∧ d' = d
  | .refused offset len, d' => ¬ Whole size offset len ∧ d' = d
  | .other, d' => d' = d

/-- The bytes of the device. -/
def Kern.contents (k : Kern) : KernelMemory :=
  fun i => if i < k.dBlocks * DISK0_BLKSIZE then k.mem (k.ide.iobase + i) else none

/- A request that `disk0_io` gets: a buffer of the caller, within reach of the block numbers. -/
structure Request (k : Kern) (base offset len : Nat) : Prop where
  outside : Outside k base len
  addressed : offset + len < 2 ^ 44

def DriverStep (k : Kern) : DiskCall → Kern → Prop
  | .write offset data, k' => ∃ base iob, Request k base offset data.length ∧ Has k.mem base data ∧
      disk0Io ⟨base, offset, data.length⟩ true k = .ok ((0, iob), k')
  | .read offset data, k' => ∃ base iob, Request k base offset data.length ∧
      disk0Io ⟨base, offset, data.length⟩ false k = .ok ((0, iob), k') ∧ Has k'.mem base data
  | .refused offset len, k' => ∃ base iob write ret, Request k base offset len ∧ ret ≠ 0 ∧
      disk0Io ⟨base, offset, len⟩ write k = .ok ((ret, iob), k')
  | .other, k' => k' = { k with mem := k'.mem } ∧
      ∀ i < k.ide.size * SECTSIZE, k'.mem (k.ide.iobase + i) = k.mem (k.ide.iobase + i)

variable {k k' : Kern} {base offset len : Nat} {write : Bool} {iob : Iobuf}

/- A request that gets 0 is one for whole blocks, and has moved them. -/
theorem io_done (ready : Ready k) (request : Request k base offset len)
    (run : disk0Io ⟨base, offset, len⟩ write k = .ok ((0, iob), k')) :
    Whole (k.dBlocks * DISK0_BLKSIZE) offset len ∧ k' = { k with mem := k'.mem } ∧
      SameOutside k.disk0Buffer DISK0_BUFSIZE k'.mem (bytesMoved len
        (if write then k.ide.iobase + offset else base) (if write then base else k.ide.iobase + offset) k.mem) := by
  have outcome := @io_outcome k ⟨base, offset, len⟩ write ready (Int.natCast_nonneg offset)
    (by have := request.addressed; dsimp only; omega) request.outside
  unfold IoOutcome at outcome
  split_ifs at outcome with refused
  · rw [run] at outcome
    cases outcome
  · obtain ⟨mem', ran, moved⟩ := outcome
    rw [run] at ran
    cases ran
    have blocks : DISK0_BLKSIZE = 4096 := rfl
    have whole : Whole (k.dBlocks * DISK0_BLKSIZE) offset len := by
      unfold Whole
      rw [blocks] at refused ⊢
      dsimp only at refused
      omega
    have place : k.blockAt (offset / DISK0_BLKSIZE) = k.ide.iobase + offset := by
      unfold Kern.blockAt
      rw [Nat.div_mul_cancel (Nat.dvd_of_mod_eq_zero whole.1)]
    refine ⟨whole, rfl, ?_⟩
    unfold destination origin at moved
    rwa [Int.toNat_natCast, place] at moved

theorem io_refused {ret : Int} (ready : Ready k) (request : Request k base offset len) (failed : ret ≠ 0)
    (run : disk0Io ⟨base, offset, len⟩ write k = .ok ((ret, iob), k')) :
    ret = -E_INVAL ∧ ¬ Whole (k.dBlocks * DISK0_BLKSIZE) offset len ∧ k' = k := by
  have outcome := @io_outcome k ⟨base, offset, len⟩ write ready (Int.natCast_nonneg offset)
    (by have := request.addressed; dsimp only; omega) request.outside
  unfold IoOutcome at outcome
  split_ifs at outcome with refused
  · rw [run] at outcome
    cases outcome
    have blocks : DISK0_BLKSIZE = 4096 := rfl
    refine ⟨rfl, ?_, rfl⟩
    unfold Whole
    rw [blocks] at refused ⊢
    dsimp only at refused
    omega
  · obtain ⟨mem', ran, moved⟩ := outcome
    rw [run] at ran
    cases ran
    exact absurd rfl failed

/- Where the blocks of the device lie. -/
theorem contents_place (ready : Ready k) : k.dBlocks * DISK0_BLKSIZE ≤ k.ide.size * SECTSIZE := by
  have blocks := ready.blocks
  have sectors : DISK0_BLK_NSECT = 8 := rfl
  rw [sectors] at blocks
  unfold DISK0_BLKSIZE SECTSIZE
  omega

theorem contents_byte (frame : k' = { k with mem := k'.mem }) (i : Nat) :
    k'.contents i = if i < k.dBlocks * DISK0_BLKSIZE then k'.mem (k.ide.iobase + i) else none := by
  have blocks := congrArg Kern.dBlocks frame
  have ide := congrArg Kern.ide frame
  dsimp only at blocks ide
  unfold Kern.contents
  rw [blocks, ide]

theorem contents_after_write {data : List UInt8} (ready : Ready k) (request : Request k base offset data.length)
    (here : Has k.mem base data) (run : disk0Io ⟨base, offset, data.length⟩ true k = .ok ((0, iob), k')) :
    k'.contents = put k.contents offset data := by
  obtain ⟨whole, frame, moved⟩ := io_done ready request run
  have fits := contents_place ready
  have apart := ready.apart
  have last := whole.2.2
  unfold Apart at apart
  rw [if_pos rfl, if_pos rfl, moved_put here] at moved
  funext i
  rw [contents_byte frame]
  unfold put
  rw [contents_byte rfl]
  by_cases inside : i < k.dBlocks * DISK0_BLKSIZE
  · rw [if_pos inside, if_pos inside, moved _ (by omega)]
    unfold put
    by_cases written : offset ≤ i ∧ i < offset + data.length
    · rw [if_pos written, if_pos (by omega), Nat.add_sub_add_left]
    · rw [if_neg written, if_neg (by omega)]
  · rw [if_neg inside, if_neg inside, if_neg (by omega)]

theorem contents_after_read (ready : Ready k) (request : Request k base offset len)
    (run : disk0Io ⟨base, offset, len⟩ false k = .ok ((0, iob), k')) :
    k'.contents = k.contents ∧ ∀ j < len, k'.mem (base + j) = k.contents (offset + j) := by
  obtain ⟨whole, frame, moved⟩ := io_done ready request run
  have fits := contents_place ready
  have apart := ready.apart
  have last := whole.2.2
  obtain ⟨buffer, image⟩ := request.outside
  unfold Apart at apart buffer image
  rw [if_neg (by decide), if_neg (by decide)] at moved
  constructor
  · funext i
    rw [contents_byte frame, contents_byte rfl]
    by_cases inside : i < k.dBlocks * DISK0_BLKSIZE
    · rw [if_pos inside, if_pos inside, moved _ (by omega)]
      unfold bytesMoved
      rw [if_neg (by omega)]
    · rw [if_neg inside, if_neg inside]
  · intro j below
    rw [contents_byte rfl, if_pos (by omega), moved _ (by omega)]
    unfold bytesMoved
    rw [if_pos (by omega), Nat.add_sub_cancel_left, Nat.add_assoc]

/- One step of the driver is one of the array. -/
theorem driver_step {c : DiskCall} (ready : Ready k) (step : DriverStep k c k') :
    k' = { k with mem := k'.mem } ∧ ArrayStep (k.dBlocks * DISK0_BLKSIZE) k.contents c k'.contents := by
  cases c with
  | write offset data =>
    obtain ⟨base, iob, request, here, run⟩ := step
    obtain ⟨whole, frame, -⟩ := io_done ready request run
    exact ⟨frame, whole, contents_after_write ready request here run⟩
  | read offset data =>
    obtain ⟨base, iob, request, run, there⟩ := step
    obtain ⟨whole, frame, -⟩ := io_done ready request run
    obtain ⟨same, found⟩ := contents_after_read ready request run
    refine ⟨frame, whole, fun j below => ?_, same⟩
    rw [← found j below]
    exact there j below
  | refused offset len =>
    obtain ⟨base, iob, write, ret, request, failed, run⟩ := step
    obtain ⟨-, not_whole, rfl⟩ := io_refused ready request failed run
    exact ⟨rfl, not_whole, rfl⟩
  | other =>
    obtain ⟨frame, image⟩ := step
    refine ⟨frame, ?_⟩
    have fits := contents_place ready
    funext i
    rw [contents_byte frame, contents_byte rfl]
    by_cases inside : i < k.dBlocks * DISK0_BLKSIZE
    · rw [if_pos inside, if_pos inside]
      exact image i (by omega)
    · rw [if_neg inside, if_neg inside]

/- Nothing that happens takes the driver's set-up away. -/
theorem run_ready {cs : List DiskCall} (ready : Ready k) (run : Run DriverStep k cs k') : Ready k' := by
  apply run_invariant _ run ready
  intro k c k' ready step
  exact (driver_step ready step).1 ▸ ready_mem ready

/-- Whatever happens in between, the device is one array of bytes: a read gets what has been written last. No request
on the way stops the kernel. -/
theorem disk0_refines_array {cs : List DiskCall} (ready : Ready k) (run : Run DriverStep k cs k') :
    Run (ArrayStep (k.dBlocks * DISK0_BLKSIZE)) k.contents cs k'.contents ∧
      ∀ (iob : Iobuf) (write : Bool), 0 ≤ iob.ioOffset → iob.ioOffset + iob.ioResid < 2 ^ 44 →
        Outside k' iob.ioBase iob.ioResid →
        IoOutcome k' iob write := by
  constructor
  · induction run with
    | stop k => exact .stop _
    | call first rest ih =>
      obtain ⟨frame, step⟩ := driver_step ready first
      have blocks := congrArg Kern.dBlocks frame
      have later := ih (frame ▸ ready_mem ready)
      dsimp only at blocks
      rw [blocks] at later
      exact .call step later
  · intro iob write forward addressed outside
    exact io_outcome write (run_ready ready run) forward addressed outside

/- A request for whole blocks goes through. -/
theorem whole_served (write : Bool) (ready : Ready k) (request : Request k base offset len)
    (whole : Whole (k.dBlocks * DISK0_BLKSIZE) offset len) :
    ∃ iob mem', disk0Io ⟨base, offset, len⟩ write k = .ok ((0, iob), { k with mem := mem' }) := by
  have outcome := @io_outcome k ⟨base, offset, len⟩ write ready (Int.natCast_nonneg offset)
    (by have := request.addressed; dsimp only; omega) request.outside
  have blocks : DISK0_BLKSIZE = 4096 := rfl
  obtain ⟨start, size, last⟩ := whole
  unfold IoOutcome at outcome
  rw [blocks] at start size last outcome
  dsimp only at outcome
  rw [if_neg (by omega)] at outcome
  obtain ⟨mem', run, -⟩ := outcome
  exact ⟨_, mem', run⟩

theorem write_served {data : List UInt8} (ready : Ready k) (request : Request k base offset data.length)
    (whole : Whole (k.dBlocks * DISK0_BLKSIZE) offset data.length) (here : Has k.mem base data) :
    ∃ iob mem', disk0Io ⟨base, offset, data.length⟩ true k = .ok ((0, iob), { k with mem := mem' }) ∧
      Kern.contents { k with mem := mem' } = put k.contents offset data := by
  obtain ⟨iob, mem', run⟩ := whole_served true ready request whole
  exact ⟨iob, mem', run, contents_after_write ready request here run⟩

theorem read_served {data : List UInt8} (ready : Ready k) (request : Request k base offset data.length)
    (whole : Whole (k.dBlocks * DISK0_BLKSIZE) offset data.length) (there : Has k.contents offset data) :
    ∃ iob mem', disk0Io ⟨base, offset, data.length⟩ false k = .ok ((0, iob), { k with mem := mem' }) ∧
      Has mem' base data := by
  obtain ⟨iob, mem', run⟩ := whole_served false ready request whole
  refine ⟨iob, mem', run, fun j below => ?_⟩
  rw [← there j below]
  exact (contents_after_read ready request run).2 j below

/- A block of sevens. -/
def sevens : List UInt8 := List.replicate 4096 7

theorem sevens_length : sevens.length = 4096 := List.length_replicate

theorem zero_disk_sevens : Has zeroDisk.mem 131072 sevens := by
  intro j below
  rw [sevens_length] at below
  unfold sevens zeroDisk
  dsimp only
  rw [List.getElem?_replicate, if_pos below, if_pos (by omega)]

theorem zero_disk_request {mem : KernelMemory} {page : Nat} (high : 131072 ≤ page) :
    Request { zeroDisk with mem } page 4096 sevens.length := by
  rw [sevens_length]
  exact ⟨zero_disk_outside high, by decide⟩

/- The sevens are written to the second block, and read back to another page. -/
theorem zero_disk_serves : ∃ first second mem₁ mem₂,
    disk0Io ⟨131072, 4096, sevens.length⟩ true zeroDisk = .ok ((0, first), { zeroDisk with mem := mem₁ }) ∧
      disk0Io ⟨135168, 4096, sevens.length⟩ false { zeroDisk with mem := mem₁ } =
        .ok ((0, second), { zeroDisk with mem := mem₂ }) ∧ Has mem₂ 135168 sevens := by
  have whole : Whole (2 * DISK0_BLKSIZE) 4096 sevens.length := by
    rw [sevens_length]
    unfold Whole
    decide
  obtain ⟨first, mem₁, written, after⟩ :=
    write_served zero_disk_ready (zero_disk_request (le_refl _)) whole zero_disk_sevens
  have there : Has (Kern.contents { zeroDisk with mem := mem₁ }) 4096 sevens := by
    rw [after]
    exact put_has
  obtain ⟨second, mem₂, read, got⟩ := @read_served { zeroDisk with mem := mem₁ } 135168 4096 sevens
    (ready_mem zero_disk_ready) (zero_disk_request (by decide)) whole there
  exact ⟨first, second, mem₁, mem₂, written, read, got⟩

theorem zero_disk_runs : ∃ k', Run DriverStep zeroDisk [.write 4096 sevens, .read 4096 sevens] k' ∧
    Run (ArrayStep (zeroDisk.dBlocks * DISK0_BLKSIZE)) zeroDisk.contents [.write 4096 sevens, .read 4096 sevens] k'.contents ∧
    Has k'.mem 135168 sevens := by
  obtain ⟨first, second, mem₁, mem₂, written, read, got⟩ := zero_disk_serves
  have run : Run DriverStep zeroDisk [.write 4096 sevens, .read 4096 sevens] { zeroDisk with mem := mem₂ } :=
    .call ⟨131072, first, zero_disk_request (le_refl _), zero_disk_sevens, written⟩
      (.call ⟨135168, second, zero_disk_request (by decide), read, got⟩ (.stop _))
  exact ⟨_, run, (disk0_refines_array zero_disk_ready run).1, got⟩

end Device

section Blocks
variable {k k' : Kern} {s s' : Sfs} {buf blkno : Nat}

/-- `sfs_rwblock_nolock` with `check` = 1, over the driver. -/
def sfsRwblockNolock (blocks buf blkno : Nat) (write : Bool) : DiskM (Int × Iobuf) := do
  check .assertion (blkno ≠ 0 ∧ blkno < blocks)
  disk0Io ⟨buf, u32 (blkno * SFS_BLKSIZE : Nat), SFS_BLKSIZE⟩ write

/-- The disk of the file system is what lies in the blocks of the device. -/
structure Represents (k : Kern) (s : Sfs) : Prop where
  size : s.dBlocks = k.dBlocks
  bytes : ∀ b < k.dBlocks, ∀ i < SFS_BLKSIZE, k.contents (b * SFS_BLKSIZE + i) = some (s.disk b i)

/-- Block calls, with what they give. -/
inductive BlockCall where
  | read (blkno : Nat) (got : Except Int (List UInt8))
  | write (blkno : Nat) (data : List UInt8) (ret : Int)
  | other

def SfsStep (s : Sfs) : BlockCall → Sfs → Prop
  | .read blkno got, s' => ∃ r, sfsReadBlock blkno s = .ok (r, s') ∧
    got = r.map fun block => (List.range SFS_BLKSIZE).map block
  | .write blkno data ret, s' => sfsWriteBlock blkno (fun i => data.getD i 0) s = .ok (ret, s')
  | .other, s' => s' = s

/- The same calls on the driver, with a buffer that the caller has. -/
def BlockStep (blocks : Nat) (k : Kern) : BlockCall → Kern → Prop
  | .read blkno got, k' => ∃ buf ret iob, Outside k buf SFS_BLKSIZE ∧
      sfsRwblockNolock blocks buf blkno false k = .ok ((ret, iob), k') ∧
      if ret = 0 then ∃ data, got = .ok data ∧ data.length = SFS_BLKSIZE ∧ Has k'.mem buf data else got = .error ret
  | .write blkno data ret, k' => ∃ buf iob, Outside k buf SFS_BLKSIZE ∧ data.length = SFS_BLKSIZE ∧ Has k.mem buf data ∧
      sfsRwblockNolock blocks buf blkno true k = .ok ((ret, iob), k')
  | .other, k' => DriverStep k .other k'

/- The request for a block: at its offset in bytes, kept in 32 bits. -/
theorem block_request {ret : Int} {iob : Iobuf} {write : Bool} (outside : Outside k buf SFS_BLKSIZE)
    (run : sfsRwblockNolock s.blocks buf blkno write k = .ok ((ret, iob), k')) :
    (blkno ≠ 0 ∧ blkno < s.blocks) ∧ Request k buf (u32 (blkno * SFS_BLKSIZE : Nat)) SFS_BLKSIZE ∧
      disk0Io ⟨buf, u32 (blkno * SFS_BLKSIZE : Nat), SFS_BLKSIZE⟩ write k = .ok ((ret, iob), k') := by
  obtain ⟨allowed, run⟩ := check_ran run
  have below := u32_lt (blkno * SFS_BLKSIZE : Nat)
  refine ⟨allowed, ⟨outside, ?_⟩, run⟩
  unfold wordSize at below
  unfold SFS_BLKSIZE at below ⊢
  omega

/- The block that the offset reaches, in both. -/
theorem block_reached {o : Nat} (represents : Represents k s) (aligned : o % SFS_BLKSIZE = 0) :
    (Whole (k.dBlocks * DISK0_BLKSIZE) o SFS_BLKSIZE →
      disk0Block s o = .ok (o / SFS_BLKSIZE) ∧ o / SFS_BLKSIZE < k.dBlocks) ∧
      (¬ Whole (k.dBlocks * DISK0_BLKSIZE) o SFS_BLKSIZE → disk0Block s o = .error (-E_INVAL)) := by
  have size := represents.size
  have bytes : SFS_BLKSIZE = 4096 := rfl
  have blocks : DISK0_BLKSIZE = 4096 := rfl
  rw [bytes] at aligned
  unfold Whole disk0Block
  rw [bytes, blocks, size]
  constructor
  · intro whole
    rw [if_neg (by omega), if_neg (by omega)]
    exact ⟨rfl, by omega⟩
  · intro refused
    rw [if_neg (by omega), if_pos (by omega)]

theorem offset_aligned : u32 (blkno * SFS_BLKSIZE : Nat) % SFS_BLKSIZE = 0 := by
  have bytes : SFS_BLKSIZE = 4096 := rfl
  rw [u32_mod, bytes]
  unfold wordSize
  omega

/- Nothing has been written to the device. -/
theorem represents_kept (represents : Represents k s) (frame : k' = { k with mem := k'.mem })
    (same : k'.contents = k.contents) : Represents k' s := by
  have count := congrArg Kern.dBlocks frame
  dsimp only at count
  constructor
  · rw [count]
    exact represents.size
  · rw [count, same]
    exact represents.bytes

/- What `BlockStep` and `SfsStep` say of a read. -/
theorem block_read {got : Except Int (List UInt8)} (ready : Ready k) (represents : Represents k s)
    (step : BlockStep s.blocks k (.read blkno got) k') :
    k' = { k with mem := k'.mem } ∧ SfsStep s (.read blkno got) s ∧ Represents k' s := by
  obtain ⟨buf, ret, iob, outside, run, result⟩ := step
  obtain ⟨allowed, request, run⟩ := block_request outside run
  obtain ⟨reached, missed⟩ := block_reached represents (@offset_aligned blkno)
  split_ifs at result with done
  · subst done
    obtain ⟨data, rfl, full, there⟩ := result
    obtain ⟨whole, frame, -⟩ := io_done ready request run
    obtain ⟨same, found⟩ := contents_after_read ready request run
    obtain ⟨place, inside⟩ := reached whole
    refine ⟨frame, ⟨.ok (s.disk (u32 (blkno * SFS_BLKSIZE : Nat) / SFS_BLKSIZE)), ?_, ?_⟩,
      represents_kept represents frame same⟩
    · unfold sfsReadBlock
      rw [run_get_bind, run_check_bind allowed, place]
      rfl
    · have exact_bytes : data = (List.range SFS_BLKSIZE).map (s.disk (u32 (blkno * SFS_BLKSIZE : Nat) / SFS_BLKSIZE)) := by
        apply List.ext_getElem?
        intro j
        by_cases below : j < SFS_BLKSIZE
        · have byte := represents.bytes _ inside j below
          rw [Nat.div_mul_cancel (Nat.dvd_of_mod_eq_zero offset_aligned), ← found j below,
            there j (by rw [full]; exact below)] at byte
          rw [byte, List.getElem?_map, List.getElem?_range below]
          rfl
        · rw [List.getElem?_eq_none (by omega), List.getElem?_eq_none (by rw [List.length_map, List.length_range]; omega)]
      rw [exact_bytes]
      rfl
  · subst result
    obtain ⟨rfl, refused, rfl⟩ := io_refused ready request done run
    refine ⟨rfl, ⟨.error (-E_INVAL), ?_, rfl⟩, represents⟩
    unfold sfsReadBlock
    rw [run_get_bind, run_check_bind allowed, missed refused]
    rfl

/- The device after a block has been written is what the file system takes it for. -/
theorem represents_written {target : Nat} {data : List UInt8} (represents : Represents k s) (full : data.length = SFS_BLKSIZE)
    (frame : k' = { k with mem := k'.mem }) (after : k'.contents = put k.contents (target * SFS_BLKSIZE) data) :
    Represents k' { s with disk := Function.update s.disk target fun i => data.getD i 0 } := by
  have count := congrArg Kern.dBlocks frame
  dsimp only at count
  have bytes : SFS_BLKSIZE = 4096 := rfl
  constructor
  · rw [count]
    exact represents.size
  · intro b below i small
    rw [count] at below
    rw [after]
    dsimp only
    unfold put
    rw [bytes] at small full ⊢
    by_cases this : b = target
    · subst this
      rw [if_pos (by omega), Function.update_self, Nat.add_sub_cancel_left, List.getD_eq_getElem?_getD,
        List.getElem?_eq_getElem (by omega)]
      rfl
    · rw [if_neg (by omega), Function.update_of_ne this]
      exact represents.bytes b below i small

theorem block_write {data : List UInt8} {ret : Int} (ready : Ready k) (represents : Represents k s)
    (step : BlockStep s.blocks k (.write blkno data ret) k') :
    k' = { k with mem := k'.mem } ∧
      ∃ s', SfsStep s (.write blkno data ret) s' ∧ Represents k' s' ∧ s'.blocks = s.blocks := by
  obtain ⟨buf, iob, outside, full, here, run⟩ := step
  obtain ⟨allowed, request, run⟩ := block_request outside run
  obtain ⟨reached, missed⟩ := block_reached represents (@offset_aligned blkno)
  by_cases done : ret = 0
  · subst done
    obtain ⟨whole, frame, -⟩ := io_done ready request run
    obtain ⟨place, inside⟩ := reached whole
    have start : u32 (blkno * SFS_BLKSIZE : Nat) = u32 (blkno * SFS_BLKSIZE : Nat) / SFS_BLKSIZE * SFS_BLKSIZE :=
      (Nat.div_mul_cancel (Nat.dvd_of_mod_eq_zero offset_aligned)).symm
    have after : k'.contents = put k.contents (u32 (blkno * SFS_BLKSIZE : Nat) / SFS_BLKSIZE * SFS_BLKSIZE) data := by
      rw [← start]
      have request' : Request k buf (u32 (blkno * SFS_BLKSIZE : Nat)) data.length := by
        rw [full]
        exact request
      have run' : disk0Io ⟨buf, u32 (blkno * SFS_BLKSIZE : Nat), data.length⟩ true k = .ok ((0, iob), k') := by
        rw [full]
        exact run
      exact contents_after_write ready request' here run'
    have written : sfsWriteBlock blkno (fun i => data.getD i 0) s = .ok (0, { s with
        disk := Function.update s.disk (u32 (blkno * SFS_BLKSIZE : Nat) / SFS_BLKSIZE) fun i => data.getD i 0 }) := by
      unfold sfsWriteBlock
      rw [run_get_bind, run_check_bind allowed, place]
      rfl
    exact ⟨frame, _, written, represents_written represents full frame after, rfl⟩
  · obtain ⟨rfl, refused, rfl⟩ := io_refused ready request done run
    have failed : sfsWriteBlock blkno (fun i => data.getD i 0) s = .ok (-E_INVAL, s) := by
      unfold sfsWriteBlock
      rw [run_get_bind, run_check_bind allowed, missed refused]
      rfl
    exact ⟨rfl, s, failed, represents, rfl⟩

/- One call on the driver is one on the file system's disk. -/
theorem block_step {c : BlockCall} (ready : Ready k) (represents : Represents k s) (step : BlockStep s.blocks k c k') :
    k' = { k with mem := k'.mem } ∧ ∃ s', SfsStep s c s' ∧ Represents k' s' ∧ s'.blocks = s.blocks := by
  cases c with
  | read blkno got =>
    obtain ⟨frame, answered, still⟩ := block_read ready represents step
    exact ⟨frame, s, answered, still, rfl⟩
  | write blkno data ret => exact block_write ready represents step
  | other =>
    obtain ⟨frame, same⟩ := @driver_step k k' .other ready step
    exact ⟨frame, s, rfl, represents_kept represents frame same, rfl⟩

/-- The block device that the file system is written against is the one that the driver gives it: a run of block
calls on the driver is a run with the same results on the file system's disk. -/
theorem disk0_refines_blocks {cs : List BlockCall} (ready : Ready k) (represents : Represents k s)
    (run : Run (BlockStep s.blocks) k cs k') : ∃ s', Run SfsStep s cs s' ∧ Represents k' s' := by
  obtain ⟨blocks, fixed⟩ : ∃ blocks, blocks = s.blocks := ⟨_, rfl⟩
  rw [← fixed] at run
  induction run generalizing s with
  | stop k => exact ⟨s, .stop s, represents⟩
  | call first rest ih =>
    rw [fixed] at first
    obtain ⟨frame, t, step, still, same⟩ := block_step ready represents first
    obtain ⟨s', later, final⟩ := ih (frame ▸ ready_mem ready) still (fixed.trans same.symm)
    exact ⟨s', .call step later, final⟩

/- A volume that is larger than the drive. -/
def zeroVolume : Sfs :=
  ⟨4, 0, false, ⟨0, 0, fun _ => 0⟩, 2, fun _ _ => 0, fun _ => ⟨⟨0, .inval, 0, 0, fun _ => 0, 0⟩, false⟩⟩

theorem zero_volume_represented : Represents zeroDisk zeroVolume := by
  refine ⟨rfl, fun b below i small => ?_⟩
  have bytes : SFS_BLKSIZE = 4096 := rfl
  have blocks : DISK0_BLKSIZE = 4096 := rfl
  have two : zeroDisk.dBlocks = 2 := rfl
  have base : zeroDisk.ide.iobase = 65536 := rfl
  unfold Kern.contents
  rw [two] at below ⊢
  rw [bytes] at small ⊢
  rw [blocks, base, if_pos (by omega)]
  exact if_neg (by omega)

/- A block that the device has is written and read back, and one that it does not have is refused, in both. -/
theorem zero_disk_blocks : ∃ k' s',
    Run (BlockStep 4) zeroDisk [.write 1 sevens 0, .read 1 (.ok sevens), .read 3 (.error (-E_INVAL))] k' ∧
    Run SfsStep zeroVolume [.write 1 sevens 0, .read 1 (.ok sevens), .read 3 (.error (-E_INVAL))] s' ∧ Represents k' s' := by
  obtain ⟨first, second, mem₁, mem₂, written, read, got⟩ := zero_disk_serves
  rw [sevens_length] at written read
  have run : Run (BlockStep 4) zeroDisk [.write 1 sevens 0, .read 1 (.ok sevens), .read 3 (.error (-E_INVAL))]
      { zeroDisk with mem := mem₂ } :=
    .call ⟨131072, first, zero_disk_outside (le_refl _), sevens_length, zero_disk_sevens, written⟩
      (.call ⟨135168, 0, second, zero_disk_outside (by decide), read, sevens, rfl, sevens_length, got⟩
        (.call ⟨131072, -E_INVAL, ⟨131072, 12288, 4096⟩, zero_disk_outside (le_refl _), rfl, rfl⟩ (.stop _)))
  obtain ⟨s', volume, represents⟩ := disk0_refines_blocks zero_disk_ready zero_volume_represented run
  exact ⟨_, s', run, volume, represents⟩

end Blocks

end Ucore.Disk0
