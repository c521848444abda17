import Ucore.Libs.List
import Ucore.Lib.Blocks
import Ucore.Mm.Pages

/- lab8/kern/mm/default_pmm.c. Every loop over the free list takes `fuel` steps at most:
   `none` is a failed assertion or a loop that has not returned by then. -/
namespace Ucore.DefaultPmm
open CircularList Words

structure State where
  pages : Pages
  links : ListLinks
  nrFree : Nat

def freeList : Entry := .listHead

def State.withPages (s : State) (f : Pages → Pages) : State := { s with pages := f s.pages }

def setProperty (s : State) (i : Nat) (v : Int) : State := s.withPages (·.setProperty i v)
def setPageProperty (s : State) (i : Nat) : State := s.withPages (·.setPageProperty i)
def clearPageProperty (s : State) (i : Nat) : State := s.withPages (·.clearPageProperty i)

def defaultInit (s : State) : State := { s with links := listInit s.links freeList, nrFree := 0 }

/- The address-ordered insertion loop. After inserting at the tail it does not break:
   it goes on to the entry it has just inserted. -/
def insertLoop (base : Nat) : Nat → ListLinks → Entry → Option ListLinks
  | 0, _, _ => none
  | fuel + 1, L, le =>
      match L.next le with
      | .listHead => some L
      | .link page =>
          if base < page then some (listAddBefore L (.link page) (.link base))
          else if L.next (.link page) = freeList then
            insertLoop base fuel (listAdd L (.link page) (.link base)) (.link page)
          else insertLoop base fuel L (.link page)

def insertPage (fuel : Nat) (s : State) (base : Nat) : Option State :=
  if listEmpty s.links freeList then
    some { s with links := listAdd s.links freeList (.link base) }
  else
    (insertLoop base fuel s.links freeList).map fun L => { s with links := L }

def defaultInitMemmap (fuel : Nat) (s : State) (base n : Nat) : Option State :=
  if n = 0 then none
  else do
    let pages ← initPages s.pages base n
    let s := setPageProperty (setProperty { s with pages } base n) base
    insertPage fuel { s with nrFree := u32 (s.nrFree + n) } base

/- The scan of `default_alloc_pages`: the first block of at least `n` pages. -/
def fits (s : State) (n : Nat) : Entry → Bool
  | .listHead => false
  | .link p => n ≤ (s.pages p).property

def takeBlock (s : State) (page n : Nat) : State :=
  let prev := s.links.prev (.link page)
  let s := { s with links := listDel s.links (.link page) }
  let s :=
    if (s.pages page).property > n then
      let p := page + n
      let s := setPageProperty (setProperty s p ((s.pages page).property - n)) p
      { s with links := listAdd s.links prev (.link p) }
    else s
  clearPageProperty { s with nrFree := u32 (s.nrFree - n) } page

def defaultAllocPages (fuel : Nat) (s : State) (n : Nat) : Option (Option Nat × State) :=
  if n = 0 then none
  else if n > s.nrFree then some (none, s)
  else
    match search s.links.next freeList (fits s n) fuel freeList with
    | none => none
    | some (some (.link page)) => some (some page, takeBlock s page n)
    | some _ => some (none, s)

/- Merge `base` into the block before it; the new base is returned with the state. -/
def mergePrev (s : State) (base : Nat) : Nat × State :=
  match s.links.prev (.link base) with
  | .listHead => (base, s)
  | .link p =>
      if p + (s.pages p).property = base then
        let s := setProperty s p ((s.pages p).property + (s.pages base).property)
        let s := clearPageProperty s base
        (p, { s with links := listDel s.links (.link base) })
      else (base, s)

def mergeNext (s : State) (base : Nat) : State :=
  match s.links.next (.link base) with
  | .listHead => s
  | .link p =>
      if base + (s.pages base).property = p then
        let s := setProperty s base ((s.pages base).property + (s.pages p).property)
        let s := clearPageProperty s p
        { s with links := listDel s.links (.link p) }
      else s

def defaultFreePages (fuel : Nat) (s : State) (base n : Nat) : Option State :=
  if n = 0 then none
  else do
    let pages ← releasePages s.pages base n
    let s := setPageProperty (setProperty { s with pages } base n) base
    let s ← insertPage fuel { s with nrFree := u32 (s.nrFree + n) } base
    let (base, s) := mergePrev s base
    some (mergeNext s base)

end Ucore.DefaultPmm
