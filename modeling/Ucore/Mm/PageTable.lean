import Ucore.Lib.Programs

/- The page tables of lab8/kern/mm/pmm.c. A page is its number, `mem` holds the words of the
   pages, tables and others, `answers` are what the allocator will answer: a page that it has, or none,
   and `returned` is what it has been given back. -/
namespace Ucore.PageTable
open Programs

def PTE_V : Nat := 0x001
def PTE_U : Nat := 0x010
def PTE_PPN_SHIFT : Nat := 10
def PTXSHIFT : Nat := 12
def PDX0SHIFT : Nat := 21
def PDX1SHIFT : Nat := 30
def USERTOP : Nat := 0x80000000
def E_NO_MEM : Int := 4

def PDX1 (la : Nat) : Nat := (la >>> PDX1SHIFT) &&& 0x1FF
def PDX0 (la : Nat) : Nat := (la >>> PDX0SHIFT) &&& 0x1FF
def PTX (la : Nat) : Nat := (la >>> PTXSHIFT) &&& 0x1FF
def PPN (la : Nat) : Nat := la >>> PTXSHIFT

def pteCreate (ppn type : Nat) : Nat := (ppn <<< PTE_PPN_SHIFT) ||| PTE_V ||| type

/-- The page of `PTE_ADDR`. -/
def ptePage (pte : Nat) : Nat := pte >>> PTE_PPN_SHIFT

def Valid (pte : Nat) : Prop := pte &&& PTE_V ≠ 0

instance (pte : Nat) : Decidable (Valid pte) := inferInstanceAs (Decidable (_ ≠ _))

structure PmmState where
  npage : Nat
  mem : Nat → Nat → Nat
  ref : Nat → Int
  free : Finset Nat
  answers : List (Option Nat)
  returned : List Nat

inductive PmmStop where
  | panic
  | assertion
  | spin
  deriving DecidableEq

abbrev PmmM (α : Type) := Prog PmmStop PmmState α

def allocPage : PmmM (Option Nat) := do
  let s ← get
  set { s with answers := s.answers.tail }
  match s.answers.head? with
  | some (some page) =>
      if page ∈ s.free then
        modify fun s => { s with free := s.free.erase page }
        return some page
      else return none
  | _ => return none

def freePage (page : Nat) : PmmM Unit :=
  modify fun s => { s with free := insert page s.free, returned := page :: s.returned }

def setPageRef (page : Nat) (val : Int) : PmmM Unit :=
  modify fun s => { s with ref := Function.update s.ref page val }

/- `KADDR` and `pa2page` of an address in a page. -/
def kaddr (page : Nat) : PmmM Nat := do
  check .panic (page < (← get).npage)
  return page

def PmmState.store (s : PmmState) (table i pte : Nat) : PmmState :=
  { s with mem := Function.update s.mem table (Function.update (s.mem table) i pte) }

def load (table i : Nat) : PmmM Nat := return (← get).mem table i

def store (table i pte : Nat) : PmmM Unit := modify fun s => s.store table i pte

def clearPage (page : Nat) : PmmM Unit :=
  modify fun s => { s with mem := Function.update s.mem page fun _ => 0 }

/- One level of `get_pte`: the table that entry `i` leads to. -/
def getTable (table i : Nat) (create : Bool) : PmmM (Option Nat) := do
  let pde ← load table i
  if ¬ Valid pde then
    if !create then return none
    match ← allocPage with
    | none => return none
    | some page =>
        setPageRef page 1
        let kva ← kaddr page
        clearPage kva
        store table i (pteCreate page (PTE_U ||| PTE_V))
  return some (← kaddr (ptePage (← load table i)))

/-- The table and the index of the entry for `la`. -/
def getPte (pgdir la : Nat) (create : Bool) : PmmM (Option (Nat × Nat)) := do
  match ← getTable pgdir (PDX1 la) create with
  | none => return none
  | some pd0 =>
      match ← getTable pd0 (PDX0 la) create with
      | none => return none
      | some pt => return some (pt, PTX la)

def getPage (pgdir la : Nat) : PmmM (Option Nat) := do
  match ← getPte pgdir la false with
  | none => return none
  | some (pt, i) =>
      let pte ← load pt i
      if Valid pte then return some (← kaddr (ptePage pte)) else return none

def pageRefDec (page : Nat) : PmmM Int := do
  let val := (← get).ref page - 1
  setPageRef page val
  return val

def pageRemovePte (pt i : Nat) : PmmM Unit := do
  let pte ← load pt i
  if Valid pte then
    let page ← kaddr (ptePage pte)
    let val ← pageRefDec page
    if val = 0 then freePage page
    store pt i 0

def pageRemove (pgdir la : Nat) : PmmM Unit := do
  match ← getPte pgdir la false with
  | none => return ()
  | some (pt, i) => pageRemovePte pt i

def pageInsert (pgdir page la perm : Nat) : PmmM Int := do
  match ← getPte pgdir la true with
  | none => return -E_NO_MEM
  | some (pt, i) =>
      setPageRef page ((← get).ref page + 1)
      let pte ← load pt i
      if Valid pte then
        let p ← kaddr (ptePage pte)
        if p = page then
          let _ ← pageRefDec page
        else pageRemovePte pt i
      store pt i (pteCreate page (PTE_V ||| perm))
      return 0

end Ucore.PageTable
