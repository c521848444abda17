import Ucore.Mm.FaultTrap
import Ucore.Lib.TwoRuns

/- `load_icode` of lab5/kern/process/proc.c, with `mm_map` of mm/vmm.c, over the address spaces of
   copy-on-write. Addresses are of bytes; an entry is that of a page. -/
namespace Ucore.CowFork
open Programs Transitions

def PGSIZE : Nat := 4096
def USERBASE : Nat := 0x00200000
def USERTOP : Nat := 0x80000000
def USTACKTOP : Nat := USERTOP
def USTACKSIZE : Nat := 256 * PGSIZE
def E_INVAL_ELF : Int := 8
def ELF_MAGIC : Nat := 0x464C457F
def ELF_PT_LOAD : Nat := 1
def ELF_PF_X : Nat := 1
def ELF_PF_W : Nat := 2
def ELF_PF_R : Nat := 4

/-- The fields of a `proghdr` that `load_icode` reads. -/
structure ProgHdr where
  p_type : Nat
  p_flags : Nat
  p_offset : Nat
  p_va : Nat
  p_filesz : Nat
  p_memsz : Nat

/-- A binary: the fields of its headers, and its bytes. -/
structure Elf where
  e_magic : Nat
  ph : List ProgHdr
  binary : Nat → Nat

/- A sum of addresses. -/
def word (n : Nat) : Nat := n % 2 ^ 64

def roundDown (a : Nat) : Nat := a / PGSIZE * PGSIZE

def roundUp (a : Nat) : Nat := roundDown (word (a + (PGSIZE - 1)))

def UserAccess (start stop : Nat) : Prop := USERBASE ≤ start ∧ start < stop ∧ stop ≤ USERTOP

instance (start stop : Nat) : Decidable (UserAccess start stop) := inferInstanceAs (Decidable (_ ∧ _))

def mmMap (mm addr len : Nat) (write : Bool) : CowM Int := do
  let start := roundDown addr
  let stop := roundUp (word (addr + len))
  if ¬ UserAccess start stop then return -E_INVAL
  match (← get).findVma mm (start / PGSIZE) with
  | some vma => if stop > vma.vmStart * PGSIZE then return -E_INVAL
  | none => pure ()
  if !(← kmalloc) then return -E_NO_MEM
  insertVmaStruct mm ⟨start / PGSIZE, stop / PGSIZE, write⟩
  return 0

/- `memcpy` or `memset` of `size` bytes of a page from `off` on. -/
def setBytes (page off size : Nat) (bytes : Nat → Nat) : CowM Unit :=
  modify fun s => { s with data := Function.update s.data page fun i =>
    if off ≤ i ∧ i < off + size then bytes (i - off) else s.data page i }

/- Either loop of `load_icode` over the pages of a section: the bytes from `start` to `last` are set. The
results are `la`, `start` and the page that was allocated last. -/
def fillPages (mm : Nat) (perm : Perm) (bytes : Nat → Nat) (last : Nat) :
    Nat → Nat → Nat → Nat → CowM (Option (Nat × Nat × Nat))
  | 0, _, _, _ => stop .assertion
  | fuel + 1, la, start, page => do
      if start < last then
        match ← pgdirAllocPage mm (la / PGSIZE) perm with
        | none => return none
        | some page =>
            let off := start - la
            let la := la + PGSIZE
            let size := PGSIZE - off - (if last < la then la - last else 0)
            setBytes page off size fun i => bytes (start + i)
            fillPages mm perm bytes last fuel la (start + size) page
      else return some (la, start, page)

/- The BSS bytes of the page that is filled to `start`. -/
def clearTail (page la start last : Nat) : CowM Nat := do
  let off := start + PGSIZE - la
  let size := PGSIZE - off
  -- a size below 0 is that of nearly all the memory
  check .assertion (last < la → la - last ≤ size)
  let size := size - (if last < la then la - last else 0)
  setBytes page off size fun _ => 0
  let start := start + size
  check .assertion ((last < la ∧ start = last) ∨ (la ≤ last ∧ start = la))
  return start

def ProgHdr.write (ph : ProgHdr) : Bool := ph.p_flags &&& ELF_PF_W ≠ 0

def ProgHdr.perm (ph : ProgHdr) : Perm where
  r := ph.p_flags &&& ELF_PF_R ≠ 0 || ph.write
  w := ph.write
  x := ph.p_flags &&& ELF_PF_X ≠ 0
  u := true
  cow := false

def ProgHdr.fileEnd (ph : ProgHdr) : Nat := word (ph.p_va + ph.p_filesz)

def ProgHdr.memEnd (ph : ProgHdr) : Nat := word (ph.p_va + ph.p_memsz)

/- The byte that the file has for an address of a section. -/
def Elf.fileByte (elf : Elf) (ph : ProgHdr) (a : Nat) : Nat := elf.binary (ph.p_offset + (a - ph.p_va))

/- The part of `load_icode` for one program header. -/
def loadSection (mm : Nat) (elf : Elf) (ph : ProgHdr) : CowM Int := do
  if ph.p_type ≠ ELF_PT_LOAD then return 0
  if ph.p_filesz > ph.p_memsz then return -E_INVAL_ELF
  let ret ← mmMap mm ph.p_va ph.p_memsz ph.write
  if ret ≠ 0 then return ret
  let la := roundDown ph.p_va
  match ← fillPages mm ph.perm (elf.fileByte ph) ph.fileEnd ((ph.fileEnd - la) / PGSIZE + 2) la ph.p_va 0 with
  | none => return -E_NO_MEM
  | some (la, start, page) =>
      if start < la ∧ start = ph.memEnd then return 0
      let start ← if start < la then clearTail page la start ph.memEnd else pure start
      match ← fillPages mm ph.perm (fun _ => 0) ph.memEnd ((ph.memEnd - la) / PGSIZE + 2) la start page with
      | none => return -E_NO_MEM
      | some _ => return 0

def loadSections (mm : Nat) (elf : Elf) : List ProgHdr → CowM Int
  | [] => return 0
  | ph :: rest => do
      let ret ← loadSection mm elf ph
      if ret ≠ 0 then return ret
      loadSections mm elf rest

def pteUser : Perm := ⟨true, true, true, true, false⟩

def stackPage (mm i : Nat) : CowM Unit := do
  let page ← pgdirAllocPage mm ((USTACKTOP - i * PGSIZE) / PGSIZE) pteUser
  check .assertion (page ≠ none)

def buildStack (mm : Nat) : CowM Int := do
  let ret ← mmMap mm (USTACKTOP - USTACKSIZE) USTACKSIZE true
  if ret ≠ 0 then return ret
  stackPage mm 1
  stackPage mm 2
  stackPage mm 3
  stackPage mm 4
  return 0

/- `mm_create` and `setup_pgdir` give an address space without user pages. -/
def CowState.newMm (s : CowState) (mm : Nat) : CowState :=
  { s with vmas := Function.update s.vmas mm [], pte := Function.update s.pte mm fun _ => noPte }

def loadIcode (mm : Nat) (elf : Elf) : CowM Int := do
  if !(← kmalloc) then return -E_NO_MEM
  match ← allocPage with
  | none => return -E_NO_MEM
  | some pgdir =>
      modify fun s => s.newMm mm
      if elf.e_magic ≠ ELF_MAGIC then
        freePage pgdir
        return -E_INVAL_ELF
      let ret ← loadSections mm elf elf.ph
      let ret ← if ret ≠ 0 then pure ret else buildStack mm
      if ret ≠ 0 then
        exitMmap mm
        freePage pgdir
      return ret

/- A byte that the process can read. -/
def CowState.readByte (s : CowState) (mm a : Nat) : Option Nat := s.read mm (a / PGSIZE) (a % PGSIZE)

/-- A page fault of the process, with what the allocators answer. -/
structure FaultCall where
  errorCode : Fault
  addr : Nat
  pages : List (Option Nat)
  tables : List Bool

def FaultStep (mm : Nat) (s : CowState) (c : FaultCall) (t : CowState) : Prop :=
  ∃ ret, doPgfault mm c.errorCode (c.addr / PGSIZE) { s with pages := c.pages, tables := c.tables } = .ok (ret, t)

end Ucore.CowFork
