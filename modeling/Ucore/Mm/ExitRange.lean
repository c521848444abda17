import Ucore.Mm.PageTableRuns

/- `unmap_range` and `exit_range` of lab8/kern/mm/pmm.c, and `exit_mmap` of vmm.c. A loop that takes
   more turns than it is given stops in `spin`. -/
namespace Ucore.PageTable
open Programs

def PGSIZE : Nat := 4096
def PTSIZE : Nat := 2097152
def PDSIZE : Nat := 1073741824
def USERBASE : Nat := 0x00200000
def NPTEENTRY : Nat := 512

def UserAccess (start stop : Nat) : Prop := USERBASE ≤ start ∧ start < stop ∧ stop ≤ USERTOP

instance (start stop : Nat) : Decidable (UserAccess start stop) := inferInstanceAs (Decidable (_ ∧ _))

def roundDown (a n : Nat) : Nat := a - a % n

/- A turn of the loop of `unmap_range`: the next address. -/
def unmapTurn (pgdir start : Nat) : PmmM Nat := do
  match ← getPte pgdir start false with
  | none => return roundDown (start + PTSIZE) PTSIZE
  | some (pt, i) => do
      let pte ← load pt i
      if pte ≠ 0 then pageRemovePte pt i
      return start + PGSIZE

def unmapLoop (pgdir last : Nat) : Nat → Nat → PmmM Unit
  | 0, _ => stop .spin
  | fuel + 1, start => do
      let start ← unmapTurn pgdir start
      if start ≠ 0 ∧ start < last then unmapLoop pgdir last fuel start else return ()

def unmapRange (pgdir start last : Nat) : PmmM Unit := do
  check .assertion (start % PGSIZE = 0 ∧ last % PGSIZE = 0)
  check .assertion (UserAccess start last)
  unmapLoop pgdir last ((last - start) / PGSIZE) start

/- A turn of the inner loop of `exit_range`: whether the entry was valid. -/
def exitTable (pd0 d0start : Nat) : PmmM Bool := do
  let pde0 ← load pd0 (PDX0 d0start)
  if Valid pde0 then
    let pt ← kaddr (ptePage pde0)
    let s ← get
    if ∀ i < NPTEENTRY, ¬ Valid (s.mem pt i) then
      freePage (ptePage pde0)
      store pd0 (PDX0 d0start) 0
    return true
  else return false

def exitTables (pd0 d1start last : Nat) : Nat → Nat → Bool → PmmM Bool
  | 0, _, _ => stop .spin
  | fuel + 1, d0start, free_pd0 => do
      let valid ← exitTable pd0 d0start
      let free_pd0 := free_pd0 && valid
      let d0start := d0start + PTSIZE
      if d0start ≠ 0 ∧ d0start < d1start + PDSIZE ∧ d0start < last then
        exitTables pd0 d1start last fuel d0start free_pd0
      else return free_pd0

def exitDir (pgdir last d1start d0start : Nat) : PmmM Unit := do
  let pde1 ← load pgdir (PDX1 d1start)
  if Valid pde1 then
    let pd0 ← kaddr (ptePage pde1)
    let free_pd0 ← exitTables pd0 d1start last NPTEENTRY d0start true
    if free_pd0 then
      freePage (ptePage pde1)
      store pgdir (PDX1 d1start) 0

def exitDirs (pgdir last : Nat) : Nat → Nat → Nat → PmmM Unit
  | 0, _, _ => stop .spin
  | fuel + 1, d1start, d0start => do
      exitDir pgdir last d1start d0start
      let d1start := d1start + PDSIZE
      if d1start ≠ 0 ∧ d1start < last then exitDirs pgdir last fuel d1start d1start else return ()

def exitRange (pgdir start last : Nat) : PmmM Unit := do
  check .assertion (start % PGSIZE = 0 ∧ last % PGSIZE = 0)
  check .assertion (UserAccess start last)
  exitDirs pgdir last userDirs (roundDown start PDSIZE) (roundDown start PTSIZE)

/-- A `vma_struct`, as far as `exit_mmap` reads it. -/
structure Vma where
  vmStart : Nat
  vmEnd : Nat

def unmapAll (pgdir : Nat) : List Vma → PmmM Unit
  | [] => return ()
  | vma :: list => do
      unmapRange pgdir vma.vmStart vma.vmEnd
      unmapAll pgdir list

def exitAll (pgdir : Nat) : List Vma → PmmM Unit
  | [] => return ()
  | vma :: list => do
      exitRange pgdir vma.vmStart vma.vmEnd
      exitAll pgdir list

/- `exit_mmap`, of the VMAs in `mmap_list`. -/
def exitMmap (pgdir : Nat) (list : List Vma) : PmmM Unit := do
  unmapAll pgdir list
  exitAll pgdir list

end Ucore.PageTable
