import Ucore.Lib.Programs

/- Copy-on-write of lab5: `copy_range` with `share` and `page_insert` of kern/mm/pmm.c, and
   `do_pgfault`, `dup_mmap` and `exit_mmap` of vmm.c. The page tables are the maps from pages to
   entries that they stand for: an entry without a table is an invalid one. -/
namespace Ucore.CowFork
open Programs

def E_INVAL : Int := 3
def E_NO_MEM : Int := 4

/-- The bits of a permission word, with the software bit `PTE_COW`. -/
structure Perm where
  r : Bool
  w : Bool
  x : Bool
  u : Bool
  cow : Bool
  deriving DecidableEq

structure Pte where
  v : Bool
  page : Nat
  perm : Perm
  deriving DecidableEq

def noPerm : Perm := ⟨false, false, false, false, false⟩

def noPte : Pte := ⟨false, 0, noPerm⟩

def pteCreate (page : Nat) (perm : Perm) : Pte := ⟨true, page, perm⟩

/- The bits of `PTE_USER`, which `PTE_COW` is not one of. -/
def Perm.user (perm : Perm) : Perm := { perm with cow := false }

/-- A `vma_struct`: its pages, and `VM_WRITE`. -/
structure Vma where
  vmStart : Nat
  vmEnd : Nat
  write : Bool
  deriving DecidableEq

/-- The entries and the VMAs of the address spaces, the counts and the bytes of the frames, the free
frames, and what the allocators will answer. -/
structure CowState where
  pte : Nat → Nat → Pte
  vmas : Nat → List Vma
  ref : Nat → Int
  data : Nat → Nat → Nat
  free : Finset Nat
  pages : List (Option Nat)
  tables : List Bool

inductive CowStop where
  | assertion
  deriving DecidableEq

abbrev CowM (α : Type) := Prog CowStop CowState α

def allocPage : CowM (Option Nat) := do
  let s ← get
  set { s with pages := s.pages.tail }
  match s.pages.head? with
  | some (some page) =>
      if page ∈ s.free then
        modify fun s => { s with free := s.free.erase page }
        return some page
      else return none
  | _ => return none

def freePage (page : Nat) : CowM Unit := modify fun s => { s with free := insert page s.free }

/- Whether there is memory for a table, or for a `vma_struct`. -/
def kmalloc : CowM Bool := do
  let s ← get
  set { s with tables := s.tables.tail }
  return s.tables.head?.getD false

def load (mm la : Nat) : CowM Pte := return (← get).pte mm la

def CowState.setPte (s : CowState) (mm la : Nat) (pte : Pte) : CowState :=
  { s with pte := Function.update s.pte mm (Function.update (s.pte mm) la pte) }

def store (mm la : Nat) (pte : Pte) : CowM Unit := modify fun s => s.setPte mm la pte

def CowState.addRef (s : CowState) (page : Nat) (n : Int) : CowState :=
  { s with ref := Function.update s.ref page (s.ref page + n) }

def pageRefInc (page : Nat) : CowM Unit := modify fun s => s.addRef page 1

def pageRefDec (page : Nat) : CowM Unit := modify fun s => s.addRef page (-1)

def pageRef (page : Nat) : CowM Int := return (← get).ref page

/- `memcpy` of a page. -/
def copyPage (dst src : Nat) : CowM Unit :=
  modify fun s => { s with data := Function.update s.data dst (s.data src) }

def pageRemovePte (mm la : Nat) : CowM Unit := do
  let pte ← load mm la
  if pte.v then
    pageRefDec pte.page
    if (← pageRef pte.page) = 0 then freePage pte.page
    store mm la noPte

/- `table` tells whether `get_pte` finds a table for the address or makes one. -/
def pageInsert (mm page la : Nat) (perm : Perm) (table : Bool) : CowM Int := do
  if !table then return -E_NO_MEM
  pageRefInc page
  let pte ← load mm la
  if pte.v then
    if pte.page = page then pageRefDec page else pageRemovePte mm la
  store mm la (pteCreate page perm)
  return 0

/- A page of `copy_range` with `share`. -/
def sharePage (dst src la : Nat) : CowM Int := do
  let pte ← load src la
  if !pte.v then return 0
  let table ← kmalloc
  if !table then return -E_NO_MEM
  let perm := pte.perm.user
  if perm.w then store src la { pte with perm := { pte.perm with w := false, cow := true } }
  pageRefInc pte.page
  if !table then return -E_NO_MEM
  let ret ← pageInsert dst pte.page la
    (if perm.w then { perm with w := false, cow := true } else perm) table
  check .assertion (ret = 0)
  return 0

def copyRange (dst src start : Nat) : Nat → CowM Int
  | 0 => return 0
  | count + 1 => do
      let ret ← sharePage dst src start
      if ret ≠ 0 then return ret
      copyRange dst src (start + 1) count

def checkVmaOverlap (prev next : Vma) : CowM Unit := do
  check .assertion (prev.vmStart < prev.vmEnd)
  check .assertion (prev.vmEnd ≤ next.vmStart)
  check .assertion (next.vmStart < next.vmEnd)

def insertVmaStruct (mm : Nat) (vma : Vma) : CowM Unit := do
  check .assertion (vma.vmStart < vma.vmEnd)
  let list := (← get).vmas mm
  let prev := list.takeWhile fun old => old.vmStart ≤ vma.vmStart
  let next := list.dropWhile fun old => old.vmStart ≤ vma.vmStart
  match prev.getLast? with
  | some old => checkVmaOverlap old vma
  | none => pure ()
  match next.head? with
  | some old => checkVmaOverlap vma old
  | none => pure ()
  modify fun s => { s with vmas := Function.update s.vmas mm (prev ++ vma :: next) }

/- The list is walked from its end. -/
def dupMmap (dst src : Nat) : List Vma → CowM Int
  | [] => return 0
  | vma :: list => do
      if !(← kmalloc) then return -E_NO_MEM
      insertVmaStruct dst vma
      let ret ← copyRange dst src vma.vmStart (vma.vmEnd - vma.vmStart)
      if ret ≠ 0 then return -E_NO_MEM
      dupMmap dst src list

def unmapRange (mm start : Nat) : Nat → CowM Unit
  | 0 => return ()
  | count + 1 => do
      pageRemovePte mm start
      unmapRange mm (start + 1) count

def unmapAll (mm : Nat) : List Vma → CowM Unit
  | [] => return ()
  | vma :: list => do
      unmapRange mm vma.vmStart (vma.vmEnd - vma.vmStart)
      unmapAll mm list

def exitMmap (mm : Nat) : CowM Unit := do
  unmapAll mm ((← get).vmas mm)
  modify fun s => { s with vmas := Function.update s.vmas mm [] }

/- `copy_mm`, into an address space that `mm_create` has made. -/
def copyMm (dst src : Nat) : CowM Int := do
  let ret ← dupMmap dst src ((← get).vmas src).reverse
  if ret ≠ 0 then exitMmap dst
  return ret

inductive Fault where
  | fetch
  | load
  | store
  deriving DecidableEq

def CowState.findVma (s : CowState) (mm la : Nat) : Option Vma :=
  (s.vmas mm).find? fun vma => vma.vmStart ≤ la ∧ la < vma.vmEnd

def doPgfault (mm : Nat) (errorCode : Fault) (la : Nat) : CowM Int := do
  match (← get).findVma mm la with
  | none => return -E_INVAL
  | some _ =>
      let pte ← load mm la
      if !pte.v then
        let table ← kmalloc
        if !table then return -E_INVAL
        match ← allocPage with
        | none => return -E_INVAL
        | some page =>
            let ret ← pageInsert mm page la { noPerm with u := true, r := true, w := true } table
            if ret ≠ 0 then
              freePage page
              return ret
            return 0
      else if pte.perm.cow then
        if (← pageRef pte.page) > 1 then
          match ← allocPage with
          | none => return -E_NO_MEM
          | some npage =>
              copyPage npage pte.page
              pageRemovePte mm la
              let ret ← pageInsert mm npage la { pte.perm.user with w := true } true
              if ret ≠ 0 then
                freePage npage
                return ret
              return 0
        else
          store mm la { pte with perm := { pte.perm with cow := false, w := true } }
          return 0
      else if errorCode = .store ∧ !pte.perm.w then return -E_NO_MEM
      else return 0

def pgdirAllocPage (mm la : Nat) (perm : Perm) : CowM (Option Nat) := do
  match ← allocPage with
  | none => return none
  | some page =>
      let ret ← pageInsert mm page la perm (← kmalloc)
      if ret ≠ 0 then
        freePage page
        return none
      check .assertion ((← pageRef page) = 1)
      return some page

/- A page of `load_icode`: the page is mapped and then filled. -/
def loadPage (mm la : Nat) (perm : Perm) (bytes : Nat → Nat) : CowM Int := do
  match ← pgdirAllocPage mm la perm with
  | none => return -E_NO_MEM
  | some page =>
      modify fun s => { s with data := Function.update s.data page bytes }
      return 0

/- The byte that a load of a process finds. -/
def CowState.read (s : CowState) (mm la off : Nat) : Option Nat :=
  if (s.pte mm la).v ∧ (s.pte mm la).perm.r then
    some (s.data (s.pte mm la).page off)
  else none

def CowState.Writable (s : CowState) (mm la : Nat) : Prop :=
  (s.pte mm la).v = true ∧ (s.pte mm la).perm.w = true

def setByte (data : Nat → Nat → Nat) (page off byte : Nat) : Nat → Nat → Nat :=
  Function.update data page (Function.update (data page) off byte)

/- The memory after a store through a writable entry. -/
def CowState.write (s : CowState) (mm la off byte : Nat) : CowState :=
  { s with data := setByte s.data (s.pte mm la).page off byte }

/-- What changes the address spaces: `load_icode` maps a page, a process forks, an access faults or is
made, pages are unmapped, and a process exits. -/
inductive CowOp where
  | addVma (mm : Nat) (vma : Vma)
  | map (mm la : Nat) (perm : Perm) (bytes : Nat → Nat)
  | fork (dst src : Nat)
  | fault (mm : Nat) (errorCode : Fault) (la : Nat)
  | write (mm la off byte : Nat)
  | unmap (mm start count : Nat)
  | exit (mm : Nat)

/-- A call, with what the allocators answer in it. -/
structure CowCall where
  op : CowOp
  pages : List (Option Nat)
  tables : List Bool

/-- A child is forked into an address space that is empty, and an access is made if its entry lets it. -/
def CowOp.Possible (s : CowState) : CowOp → Prop
  | .fork dst src => dst ≠ src ∧ (∀ la, (s.pte dst la).v = false) ∧ s.vmas dst = []
  | .write mm la _ _ => s.Writable mm la
  | _ => True

def CowOp.run : CowOp → CowM Unit
  | .addVma mm vma => insertVmaStruct mm vma
  | .map mm la perm bytes => do let _ ← loadPage mm la perm.user bytes
  | .fork dst src => do let _ ← copyMm dst src
  | .fault mm errorCode la => do let _ ← doPgfault mm errorCode la
  | .write mm la off byte => modify fun s => s.write mm la off byte
  | .unmap mm start count => unmapRange mm start count
  | .exit mm => exitMmap mm

def CowStep (s : CowState) (c : CowCall) (t : CowState) : Prop :=
  c.op.Possible s ∧ c.op.run { s with pages := c.pages, tables := c.tables } = .ok ((), t)

/-- No page is mapped, and no page that is free is counted. -/
structure Fresh (s : CowState) : Prop where
  empty : ∀ mm la, s.pte mm la = noPte
  free : ∀ page, s.ref page = 0

end Ucore.CowFork
