import Ucore.Mm.ExitRange

/- `copy_range` and `pgdir_alloc_page` of lab8/kern/mm/pmm.c, and `dup_mmap` of vmm.c. -/
namespace Ucore.PageTable
open Programs

def PTE_R : Nat := 0x002
def PTE_W : Nat := 0x004
def PTE_X : Nat := 0x008
def PTE_USER : Nat := PTE_R ||| PTE_W ||| PTE_X ||| PTE_U ||| PTE_V

/- `memcpy` of a page. -/
def copyPage (dst src : Nat) : PmmM Unit :=
  modify fun s => { s with mem := Function.update s.mem dst (s.mem src) }

/- A turn of the loop of `copy_range`: the next address, or nothing where it returns `-E_NO_MEM`. -/
def copyTurn (dst src start : Nat) : PmmM (Option Nat) := do
  match ← getPte src start false with
  | none => return some (roundDown (start + PTSIZE) PTSIZE)
  | some (pt, i) =>
      if ¬ Valid (← load pt i) then return some (start + PGSIZE)
      match ← getPte dst start true with
      | none => return none
      | some _ =>
          let pte ← load pt i
          let page ← kaddr (ptePage pte)
          match ← allocPage with
          | none => stop .assertion
          | some npage =>
              let src_kvaddr ← kaddr page
              let dst_kvaddr ← kaddr npage
              copyPage dst_kvaddr src_kvaddr
              let ret ← pageInsert dst npage start (pte &&& PTE_USER)
              check .assertion (ret = 0)
              return some (start + PGSIZE)

def copyLoop (dst src last : Nat) : Nat → Nat → PmmM Int
  | 0, _ => stop .spin
  | fuel + 1, start => do
      match ← copyTurn dst src start with
      | none => return -E_NO_MEM
      | some start => if start ≠ 0 ∧ start < last then copyLoop dst src last fuel start else return 0

def copyRange (dst src start last : Nat) : PmmM Int := do
  check .assertion (start % PGSIZE = 0 ∧ last % PGSIZE = 0)
  check .assertion (UserAccess start last)
  copyLoop dst src last ((last - start) / PGSIZE) start

def pgdirAllocPage (pgdir la perm : Nat) : PmmM (Option Nat) := do
  match ← allocPage with
  | none => return none
  | some page =>
      if (← pageInsert pgdir page la perm) ≠ 0 then
        freePage page
        return none
      check .assertion ((← get).ref page = 1)
      return some page

/-- A `vma_struct` with its flags. -/
structure VmaStruct extends Vma where
  vmFlags : Nat

def checkVmaOverlap (prev next : VmaStruct) : PmmM Unit := do
  check .assertion (prev.vmStart < prev.vmEnd)
  check .assertion (prev.vmEnd ≤ next.vmStart)
  check .assertion (next.vmStart < next.vmEnd)

/- `insert_vma_struct`, into the list of an `mm_struct`. -/
def insertVmaStruct (list : List VmaStruct) (vma : VmaStruct) : PmmM (List VmaStruct) := do
  check .assertion (vma.vmStart < vma.vmEnd)
  let before := list.takeWhile fun old => old.vmStart ≤ vma.vmStart
  let after := list.dropWhile fun old => old.vmStart ≤ vma.vmStart
  match before.getLast? with
  | some prev => checkVmaOverlap prev vma
  | none => pure ()
  match after.head? with
  | some next => checkVmaOverlap vma next
  | none => pure ()
  return before ++ vma :: after

/- The loop of `dup_mmap` over the VMAs, which come in the order of `list_prev`; `created` are the answers
of `vma_create`. -/
def dupVmas (dst src : Nat) : List VmaStruct → List Bool → List VmaStruct → PmmM (Int × List VmaStruct)
  | [], _, list => return (0, list)
  | vma :: vmas, created, list => do
      if created.head? ≠ some true then return (-E_NO_MEM, list)
      let list ← insertVmaStruct list vma
      let ret ← copyRange dst src vma.vmStart vma.vmEnd
      if ret ≠ 0 then return (-E_NO_MEM, list)
      dupVmas dst src vmas created.tail list

/- `dup_mmap` into an `mm_struct` with an empty list: its result and that list. -/
def dupMmap (dst src : Nat) (vmas : List VmaStruct) (created : List Bool) : PmmM (Int × List VmaStruct) :=
  dupVmas dst src vmas.reverse created []

end Ucore.PageTable
