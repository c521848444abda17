import Ucore.Mm.LoadIcode
import Ucore.Fs.Sfs.Sfs
import Ucore.Lib.Stopping
import Ucore.Lib.Intervals
import Ucore.Libs.Error

/- `load_icode` of lab8/kern/process/proc.c, which reads the binary through a descriptor and puts the
   arguments on the stack, with `mm_map`, `user_mem_check` and `copy_to_user` of mm/vmm.c. -/
namespace Ucore.Exec
open Stopping Intervals
open CowFork (PGSIZE USERBASE USERTOP USTACKTOP USTACKSIZE E_INVAL_ELF ELF_MAGIC ELF_PT_LOAD ELF_PF_X
  ELF_PF_W ELF_PF_R ProgHdr word roundDown roundUp UserAccess)

def EXEC_MAX_ARG_NUM : Nat := 32
def EXEC_MAX_ARG_LEN : Nat := 4095

def PDX0SHIFT : Nat := 21
def PDX1SHIFT : Nat := 30

/-- A file of the disk. -/
structure Binary where
  bytes : List UInt8
  fits : bytes.length ≤ SFS_MAX_FILE_SIZE

/- The bytes in the blocks that the inode has entries for. -/
def Binary.readable (file : Binary) : Nat := min file.bytes.length (maxBlocks * SFS_BLKSIZE)

/-- The bits `VM_READ`, `VM_WRITE`, `VM_EXEC` and `VM_STACK`. -/
structure VmFlags where
  read : Bool
  write : Bool
  exec : Bool
  stack : Bool

structure Vma where
  vmStart : Nat
  vmEnd : Nat
  vmFlags : VmFlags

/-- The list of an `mm_struct`. -/
structure MmStruct where
  mmapList : List Vma
  ordered : mmapList.Pairwise fun low high => low.vmEnd ≤ high.vmStart
  proper : ∀ vma ∈ mmapList, vma.vmStart < vma.vmEnd

def mmCreate : MmStruct := ⟨[], .nil, fun _ mem => nomatch mem⟩

def MmStruct.findVma (mm : MmStruct) (addr : Nat) : Option Vma :=
  mm.mmapList.find? fun vma => vma.vmStart ≤ addr ∧ addr < vma.vmEnd

/-- The bytes of a page. -/
abbrev Frame := Nat → UInt8

/-- A page that `load_icode` maps, reads into or clears, the part of it, and the VMAs of that moment. -/
structure Touch where
  vmas : List Vma
  la : Nat
  off : Nat
  size : Nat

/-- The new address space while `load_icode` runs: its VMAs, its pages, and the tables below its page directory. The
requests for memory that are to come get the frames of `memory`, whatever is in them, and then nothing; one that has
been given back may be among them. `io` has what is wrong with the next reads, 0 for nothing. -/
structure LoadState where
  mm : MmStruct
  pages : Nat → Option Frame
  tables : List (Nat × Nat)
  memory : List Frame
  io : List Int
  touches : List Touch

inductive LoadStop where
  | assertion
  | panic
  | overrun
  | pageFault
  deriving DecidableEq

abbrev LoadM (α : Type) := EStateM LoadStop LoadState α

/- The place of an address in the three levels of a page directory. -/
def entry (la : Nat) : Nat := la / PGSIZE % 2 ^ 27

def allocPage : LoadM Bool := do
  let s ← get
  set { s with memory := s.memory.tail }
  return !s.memory.isEmpty

/- Less than a page, for which `slob_alloc` needs a page at most. -/
def kmalloc : LoadM Bool := allocPage

/- The buffer of `sysfile_read` is a page, beside what `kmalloc` notes of it. -/
def kmallocIobuf : LoadM Bool := do
  if !(← kmalloc) then return false
  allocPage

def setupPgdir : LoadM Bool := allocPage

/- A level of `get_pte`: the table of the entries for `2 ^ shift` bytes, or a new one. -/
def getTable (shift la : Nat) : LoadM Bool := do
  let table := (shift, la / 2 ^ shift % 2 ^ (39 - shift))
  if table ∈ (← get).tables then return true
  if !(← allocPage) then return false
  modify fun s => { s with tables := table :: s.tables }
  return true

def getPte (la : Nat) : LoadM Bool := do
  if !(← getTable PDX1SHIFT la) then return false
  getTable PDX0SHIFT la

def touch (la off size : Nat) : LoadM Unit :=
  modify fun s => { s with touches := ⟨s.mm.mmapList, la, off, size⟩ :: s.touches }

def setPage (la : Nat) (frame : Frame) : LoadM Unit :=
  modify fun s => { s with pages := Function.update s.pages (entry la) (some frame) }

def pgdirAllocPage (la : Nat) : LoadM Bool := do
  let s ← get
  match s.memory with
  | [] => return false
  | frame :: rest =>
      set { s with memory := rest }
      if !(← getPte la) then return false
      touch la 0 PGSIZE
      setPage la frame
      return true

def LoadState.setByte (s : LoadState) (addr : Nat) (byte : UInt8) : LoadState :=
  { s with pages := fun i =>
      if i = entry addr then (s.pages i).map fun frame => Function.update frame (addr % PGSIZE) byte else s.pages i }

/- `memcpy` or `memset` to a page through the addresses of the kernel. -/
def LoadState.setBytes (s : LoadState) (addr : Nat) : List UInt8 → LoadState
  | [] => s
  | byte :: rest => (s.setByte addr byte).setBytes (addr + 1) rest

def checkVmaOverlap (prev next : Vma) : Prop :=
  prev.vmStart < prev.vmEnd ∧ prev.vmEnd ≤ next.vmStart ∧ next.vmStart < next.vmEnd

instance (prev next : Vma) : Decidable (checkVmaOverlap prev next) := inferInstanceAs (Decidable (_ ∧ _ ∧ _))

/- The VMAs that the new one comes after, and the others. -/
def MmStruct.before (mm : MmStruct) (vma : Vma) : List Vma :=
  mm.mmapList.takeWhile fun old => old.vmStart ≤ vma.vmStart

def MmStruct.after (mm : MmStruct) (vma : Vma) : List Vma :=
  mm.mmapList.dropWhile fun old => old.vmStart ≤ vma.vmStart

/-- The assertions of `insert_vma_struct`. -/
def MmStruct.Inserts (mm : MmStruct) (vma : Vma) : Prop :=
  vma.vmStart < vma.vmEnd ∧ (∀ prev ∈ (mm.before vma).getLast?, checkVmaOverlap prev vma) ∧
    ∀ next ∈ (mm.after vma).head?, checkVmaOverlap vma next

instance (mm : MmStruct) (vma : Vma) : Decidable (mm.Inserts vma) := inferInstanceAs (Decidable (_ ∧ _ ∧ _))

theorem MmStruct.inOrder (mm : MmStruct) : InOrder Vma.vmStart Vma.vmEnd mm.mmapList := ⟨mm.ordered, mm.proper⟩

theorem inserts_in_order {mm : MmStruct} {vma : Vma} (inserts : mm.Inserts vma) :
    InOrder Vma.vmStart Vma.vmEnd (mm.before vma ++ vma :: mm.after vma) :=
  mm.inOrder.place inserts.1 (fun prev mem => (inserts.2.1 prev mem).2.1) fun next mem => (inserts.2.2 next mem).2.1

def MmStruct.insert (mm : MmStruct) (vma : Vma) (inserts : mm.Inserts vma) : MmStruct where
  mmapList := mm.before vma ++ vma :: mm.after vma
  ordered := (inserts_in_order inserts).sorted
  proper := (inserts_in_order inserts).proper

def insertVmaStruct (vma : Vma) : LoadM Unit := do
  let s ← get
  if inserts : s.mm.Inserts vma then set { s with mm := s.mm.insert vma inserts } else throw .assertion

def mmMap (addr len : Nat) (vmFlags : VmFlags) : LoadM Int := do
  let start := roundDown addr
  let stop := roundUp (word (addr + len))
  if ¬ UserAccess start stop then return -E_INVAL
  match (← get).mm.findVma start with
  | some vma => if stop > vma.vmStart then return -E_INVAL
  | none => pure ()
  if !(← kmalloc) then return -E_NO_MEM
  insertVmaStruct ⟨start, stop, vmFlags⟩
  return 0

/- `sysfile_seek`, which makes the file longer where the offset is behind its end, and `sysfile_read`: a read that
ends early is an error. -/
def loadIcodeRead (file : Binary) (offset len : Nat) : LoadM Int := do
  if SFS_MAX_FILE_SIZE ≤ offset then return -E_INVAL
  let s ← get
  set { s with io := s.io.tail }
  let error := s.io.head?.getD 0
  if error ≠ 0 then return (if error < 0 then error else -1)
  check .panic (blocksFor offset ≤ max (blocksFor file.bytes.length) maxBlocks)
  if len = 0 then return 0
  if !(← kmallocIobuf) then return -E_NO_MEM
  check .panic (offset < file.bytes.length → min (offset + len) file.bytes.length ≤ maxBlocks * SFS_BLKSIZE)
  if file.bytes.length < offset + len then return -1
  return 0

/- A number in the file, its low byte first. -/
def field (file : List UInt8) (pos size : Nat) : Nat :=
  ((file.drop pos).take size).foldr (fun byte n => byte.toNat + 256 * n) 0

def eMagic (file : Binary) : Nat := field file.bytes 0 4

def eEntry (file : Binary) : Nat := field file.bytes 24 8

def ePhoff (file : Binary) : Nat := field file.bytes 32 8

def ePhnum (file : Binary) : Nat := field file.bytes 56 2

def sizeofElfhdr : Nat := 64

def sizeofProghdr : Nat := 56

def progHdr (file : Binary) (pos : Nat) : ProgHdr where
  p_type := field file.bytes pos 4
  p_flags := field file.bytes (pos + 4) 4
  p_offset := field file.bytes (pos + 8) 8
  p_va := field file.bytes (pos + 16) 8
  p_filesz := field file.bytes (pos + 32) 8
  p_memsz := field file.bytes (pos + 40) 8

/- Either loop of `load_icode` over the pages of a segment, up to the address `last`: what is done to a page
is `act`. Every turn takes a frame, and there are `fuel`. The results are `la`, `start` and `ret`, or the `ret` that it
goes to `bad_cleanup_mmap` with. -/
def fillPages (act : Nat → Nat → Nat → Nat → Int → LoadM (Except Int Int)) (last : Nat) :
    Nat → Nat → Nat → Int → LoadM (Except Int (Nat × Nat × Int))
  | 0, la, start, ret => return (if start < last then .error ret else .ok (la, start, ret))
  | fuel + 1, la, start, ret => do
      if last ≤ start then return .ok (la, start, ret)
      if !(← pgdirAllocPage la) then return .error ret
      let off := start - la
      let next := word (la + PGSIZE)
      let size := PGSIZE - off - (if last < next then next - last else 0)
      match ← act la off size start ret with
      | .error ret => return .error ret
      | .ok ret => fillPages act last fuel next (word (start + size)) ret

def fileOffset (ph : ProgHdr) (start : Nat) : Nat := word (ph.p_offset + (start - ph.p_va))

/- The result of the read stays in `ret`. -/
def readPage (file : Binary) (ph : ProgHdr) (la off size start : Nat) (_ret : Int) : LoadM (Except Int Int) := do
  touch la off size
  let ret ← loadIcodeRead file (fileOffset ph start) size
  if ret ≠ 0 then return .error ret
  modify fun s => s.setBytes (la + off) ((file.bytes.drop (fileOffset ph start)).take size)
  return .ok ret

def clearPage (la off size _start : Nat) (ret : Int) : LoadM (Except Int Int) := do
  touch la off size
  modify fun s => s.setBytes (la + off) (List.replicate size 0)
  return .ok ret

/- The BSS bytes of the page that is filled to `start`, the last one allocated. -/
def clearTail (la start last : Nat) : LoadM Nat := do
  let off := start + PGSIZE - la
  let size := PGSIZE - off
  let size := if last < la then word (size + 2 ^ 64 - (la - last)) else size
  touch (la - PGSIZE) off size
  -- a size below 0 is that of nearly all the memory, and the kernel is in it
  check .overrun (off + size ≤ PGSIZE)
  modify fun s => s.setBytes (la - PGSIZE + off) (List.replicate size 0)
  let start := word (start + size)
  check .assertion ((last < la ∧ start = last) ∨ (la ≤ last ∧ start = la))
  return start

def segmentFlags (ph : ProgHdr) : VmFlags where
  read := ph.p_flags &&& ELF_PF_R ≠ 0
  write := ph.p_flags &&& ELF_PF_W ≠ 0
  exec := ph.p_flags &&& ELF_PF_X ≠ 0
  stack := false

/- What follows the VMA of a segment. -/
def fillSegment (file : Binary) (ph : ProgHdr) : LoadM (Except Int Unit) := do
  match ← fillPages (readPage file ph) ph.fileEnd (← get).memory.length (roundDown ph.p_va) ph.p_va (-E_NO_MEM) with
  | .error ret => return .error ret
  | .ok (la, start, ret) =>
      if start < la ∧ start = ph.memEnd then return .ok ()
      let start ← if start < la then clearTail la start ph.memEnd else pure start
      let filled ← fillPages clearPage ph.memEnd (← get).memory.length la start ret
      return filled.map fun _ => ()

/- The part of `load_icode` for one program header; the error is the `ret` that it goes to `bad_cleanup_mmap` with. -/
def loadSegment (file : Binary) (ph : ProgHdr) : LoadM (Except Int Unit) := do
  if ph.p_type ≠ ELF_PT_LOAD then return .ok ()
  if ph.p_filesz > ph.p_memsz then return .error (-E_INVAL_ELF)
  let ret ← mmMap ph.p_va ph.p_memsz (segmentFlags ph)
  if ret ≠ 0 then return .error ret
  fillSegment file ph

/- The program headers from `pos` on. -/
def loadSegments (file : Binary) : Nat → Nat → LoadM (Except Int Unit)
  | 0, _ => return .ok ()
  | n + 1, pos => do
      let ret ← loadIcodeRead file pos sizeofProghdr
      if ret ≠ 0 then return .error ret
      match ← loadSegment file (progHdr file pos) with
      | .error ret => return .error ret
      | .ok _ => loadSegments file n (word (pos + sizeofProghdr))

def stackPage (i : Nat) : LoadM Unit := do
  let page ← pgdirAllocPage (USTACKTOP - i * PGSIZE)
  check .assertion (page = true)

def buildStack : LoadM Int := do
  let ret ← mmMap (USTACKTOP - USTACKSIZE) USTACKSIZE ⟨true, true, false, true⟩
  if ret ≠ 0 then return ret
  stackPage 1
  stackPage 2
  stackPage 3
  stackPage 4
  return 0

/- The loop of `user_mem_check`: every turn is in another VMA. -/
def checkRange (mm : MmStruct) (write : Bool) (stop : Nat) : Nat → Nat → Bool
  | 0, _ => false
  | fuel + 1, start =>
      if stop ≤ start then true
      else match mm.findVma start with
        | none => false
        | some vma =>
            if !(if write then vma.vmFlags.write else vma.vmFlags.read) then false
            else if write ∧ vma.vmFlags.stack ∧ start < vma.vmStart + PGSIZE then false
            else checkRange mm write stop fuel vma.vmEnd

def userMemCheck (mm : MmStruct) (addr len : Nat) (write : Bool) : Bool :=
  if ¬ UserAccess addr (word (addr + len)) then false
  else checkRange mm write (word (addr + len)) (mm.mmapList.length + 1) addr

/- A store to an address without a page is a fault in the kernel. -/
def memcpy (addr : Nat) : List UInt8 → LoadM Unit
  | [] => return ()
  | byte :: rest => do
      let s ← get
      check .pageFault ((s.pages (entry addr)).isSome)
      set (s.setByte addr byte)
      memcpy (addr + 1) rest

def copyToUser (addr : Nat) (src : List UInt8) : LoadM Bool := do
  if !userMemCheck (← get).mm addr src.length true then return false
  memcpy addr src
  return true

/- Where the copy fails, `exit_mmap` asserts that nobody uses the address space. -/
def push (addr : Nat) (src : List UInt8) : LoadM Unit := do
  let copied ← copyToUser addr src
  check .assertion (copied = true)

def uintptrBytes (n : Nat) : List UInt8 := (List.range 8).map fun i => (n / 256 ^ i).toUInt8

def userBytes (mem : Nat → UInt8) (src n : Nat) : List UInt8 := (List.range n).map fun i => mem (src + i)

/- The loop of `copy_string`, which goes over the pages of the string; `mem` is the memory of the process. -/
def copyStringFrom (mm : MmStruct) (mem : Nat → UInt8) : Nat → Nat → Nat → Nat → Option (List UInt8)
  | 0, _, _, _ => none
  | fuel + 1, src, part, maxn =>
      let part := min part maxn
      let string := (userBytes mem src part).takeWhile (· ≠ 0)
      if !userMemCheck mm src part false then none
      else if string.length < part then some string
      else if part = maxn then none
      else (copyStringFrom mm mem fuel (src + part) PGSIZE (maxn - part)).map (userBytes mem src part ++ ·)

def copyString (mm : MmStruct) (mem : Nat → UInt8) (src maxn : Nat) : Option (List UInt8) :=
  copyStringFrom mm mem maxn src (word (roundDown (word (src + PGSIZE)) + 2 ^ 64 - src)) maxn

/- The loop of `copy_kargv`; `granted` is what `kmalloc` answers. -/
def copyKargvFrom (mm : MmStruct) (mem : Nat → UInt8) (argv : Nat) : Nat → Nat → List Bool →
    Except Int (List (List UInt8))
  | 0, _, _ => .ok []
  | n + 1, i, granted =>
      if !granted.head?.getD false then .error (-E_NO_MEM)
      else match copyString mm mem (field (userBytes mem (argv + 8 * i) 8) 0 8) (EXEC_MAX_ARG_LEN + 1) with
        | none => .error (-E_INVAL)
        | some arg => (copyKargvFrom mm mem argv n (i + 1) granted.tail).map (arg :: ·)

def copyKargv (mm : MmStruct) (mem : Nat → UInt8) (argc argv : Nat) (granted : List Bool) :
    Except Int (List (List UInt8)) :=
  if !userMemCheck mm argv (8 * argc) false then .error (-E_INVAL) else copyKargvFrom mm mem argv argc 0 granted

theorem copy_string_short {mm : MmStruct} {mem : Nat → UInt8} (fuel : Nat) : ∀ {src part maxn : Nat} {arg : List UInt8},
    copyStringFrom mm mem fuel src part maxn = some arg → arg.length < maxn ∧ 0 ∉ arg := by
  induction fuel with
  | zero => nofun
  | succ fuel ih =>
    intro src part maxn arg copied
    have length : (userBytes mem src (min part maxn)).length = min part maxn := by
      unfold userBytes
      rw [List.length_map, List.length_range]
    have nonzero : 0 ∉ (userBytes mem src (min part maxn)).takeWhile (· ≠ 0) := by
      intro zero
      have kept := List.mem_takeWhile_imp zero
      simp at kept
    unfold copyStringFrom at copied
    dsimp only at copied
    split_ifs at copied with checked ends full
    · cases copied
      exact ⟨by omega, nonzero⟩
    · obtain ⟨rest, later, rfl⟩ := Option.map_eq_some_iff.mp copied
      obtain ⟨short, proper⟩ := ih later
      have whole : (userBytes mem src (min part maxn)).takeWhile (· ≠ 0) = userBytes mem src (min part maxn) :=
        (List.takeWhile_prefix _).eq_of_length_le (by omega)
      rw [whole] at nonzero
      rw [List.length_append, length, List.mem_append]
      exact ⟨by omega, fun zero => zero.elim nonzero proper⟩

theorem copy_kargv_short {mm : MmStruct} {mem : Nat → UInt8} {argv : Nat} (n : Nat) :
    ∀ {i : Nat} {granted : List Bool} {kargv : List (List UInt8)}, copyKargvFrom mm mem argv n i granted = .ok kargv →
      kargv.length = n ∧ ∀ arg ∈ kargv, arg.length ≤ EXEC_MAX_ARG_LEN ∧ 0 ∉ arg := by
  induction n with
  | zero =>
    rintro i granted kargv ⟨⟩
    exact ⟨rfl, nofun⟩
  | succ n ih =>
    intro i granted kargv copied
    unfold copyKargvFrom at copied
    split_ifs at copied
    cases string : copyString mm mem (field (userBytes mem (argv + 8 * i) 8) 0 8) (EXEC_MAX_ARG_LEN + 1) with
    | none =>
      rw [string] at copied
      cases copied
    | some arg =>
      rw [string] at copied
      cases rest : copyKargvFrom mm mem argv n (i + 1) granted.tail with
      | error e =>
        rw [rest] at copied
        cases copied
      | ok later =>
        rw [rest] at copied
        cases copied
        obtain ⟨length, each⟩ := ih rest
        obtain ⟨short, proper⟩ := copy_string_short _ string
        refine ⟨by rw [List.length_cons, length], fun old mem => ?_⟩
        rcases List.mem_cons.mp mem with rfl | old
        · exact ⟨Nat.le_of_lt_succ short, proper⟩
        · exact each _ old

theorem copy_kargv_args {mm : MmStruct} {mem : Nat → UInt8} {argc argv : Nat} {granted : List Bool}
    {kargv : List (List UInt8)} (copied : copyKargv mm mem argc argv granted = .ok kargv) :
    kargv.length = argc ∧ ∀ arg ∈ kargv, arg.length ≤ EXEC_MAX_ARG_LEN ∧ 0 ∉ arg := by
  unfold copyKargv at copied
  split_ifs at copied
  exact copy_kargv_short argc copied

/-- The strings of `copy_kargv`, which `do_execve` asks one to `EXEC_MAX_ARG_NUM` of. -/
structure ArgList where
  kargv : List (List UInt8)
  some_args : kargv ≠ []
  few : kargv.length ≤ EXEC_MAX_ARG_NUM
  short : ∀ arg ∈ kargv, arg.length ≤ EXEC_MAX_ARG_LEN ∧ 0 ∉ arg

/- The arguments that `do_execve` calls `load_icode` with. -/
def execveArgs (mm : MmStruct) (mem : Nat → UInt8) (argc argv : Nat) (granted : List Bool) : Except Int ArgList :=
  if number : 1 ≤ argc ∧ argc ≤ EXEC_MAX_ARG_NUM then
    match copied : copyKargv mm mem argc argv granted with
    | .error e => .error e
    | .ok kargv => .ok {
        kargv
        some_args := List.ne_nil_of_length_pos (number.1.trans_eq (copy_kargv_args copied).1.symm)
        few := (copy_kargv_args copied).1.trans_le number.2
        short := (copy_kargv_args copied).2 }
  else .error (-E_INVAL)

/- The strings, the last one first; the results are `sp` and `uargv`. -/
def pushStrings : List (List UInt8) → Nat → List Nat → LoadM (Nat × List Nat)
  | [], sp, uargv => return (sp, uargv)
  | arg :: rest, sp, uargv => do
      let sp := sp - (arg.length + 1)
      push sp (arg ++ [0])
      pushStrings rest sp (sp :: uargv)

def pushWords : List Nat → Nat → LoadM Nat
  | [], sp => return sp
  | n :: rest, sp => do
      let sp := sp - 8
      push sp (uintptrBytes n)
      pushWords rest sp

/-- The registers of the trap frame that the program starts with. -/
structure TrapFrame where
  sp : Nat
  a0 : Nat
  a1 : Nat
  epc : Nat

def setupArgs (args : ArgList) (entry : Nat) : LoadM TrapFrame := do
  let (sp, uargv) ← pushStrings args.kargv.reverse USTACKTOP []
  let sp := sp / 8 * 8
  let argvUser ← pushWords (0 :: uargv.reverse) sp
  -- eight bytes from `&argc` on, of which the last four are not of `argc`
  let sp ← pushWords [args.kargv.length] argvUser
  return ⟨sp, args.kargv.length, argvUser, entry⟩

def exitMmap : LoadM Unit :=
  modify fun s => { s with pages := fun i =>
    if ∃ vma ∈ s.mm.mmapList, vma.vmStart ≤ i * PGSIZE ∧ i * PGSIZE < vma.vmEnd then none else s.pages i }

/- `load_icode` up to where the process gets the new address space; the error is what it returns. Where memory runs
out behind a read, that is the 0 of the read. -/
def loadImage (file : Binary) : LoadM (Except Int Unit) := do
  if !(← kmalloc) then return .error (-E_NO_MEM)
  if !(← setupPgdir) then return .error (-E_NO_MEM)
  let ret ← loadIcodeRead file 0 sizeofElfhdr
  if ret ≠ 0 then return .error ret
  if eMagic file ≠ ELF_MAGIC then return .error (-E_INVAL_ELF)
  match ← loadSegments file (ePhnum file) (ePhoff file) with
  | .error ret =>
      exitMmap
      return .error ret
  | .ok _ =>
      let ret ← buildStack
      if ret ≠ 0 then
        exitMmap
        return .error ret
      return .ok ()

/- The result is that of `load_icode`, and the trap frame where there is a new address space. -/
def loadIcode (file : Binary) (args : ArgList) : LoadM (Int × Option TrapFrame) := do
  match ← loadImage file with
  | .error ret => return (ret, none)
  | .ok _ =>
      let tf ← setupArgs args (eEntry file)
      return (0, some tf)

/- `do_execve` of a file that it can open: the arguments are copied from the old address space. -/
def doExecve (old : MmStruct) (mem : Nat → UInt8) (argc argv : Nat) (granted : List Bool) (file : Binary) :
    LoadM (Int × Option TrapFrame) :=
  match execveArgs old mem argc argv granted with
  | .error ret => return (ret, none)
  | .ok args => loadIcode file args

/- What `mm_create` and `setup_pgdir` begin with. -/
def execState (memory : List Frame) (io : List Int) : LoadState := ⟨mmCreate, fun _ => none, [], memory, io, []⟩

end Ucore.Exec
