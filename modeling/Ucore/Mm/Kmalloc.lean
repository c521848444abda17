import Mathlib
import Ucore.Lib.Words

/- lab8/kern/mm/kmalloc.c. Pointers are byte addresses. The answers of `alloc_pages` are a list, 0 being its lack of memory;
   `none` is a failed assertion, or that `fuel` steps or the answers are not enough. -/
namespace Ucore.Slob
open Words

def SLOB_UNIT : Nat := 16
def PAGE_SIZE : Nat := 4096

structure BigBlock where
  base : Nat
  order : Nat
  pages : Nat
  deriving DecidableEq

/-- `units` and `next` are the fields of the `struct slob_block` at an address. -/
structure Heap where
  units : Nat → Nat
  next : Nat → Nat
  slobfree : Nat
  bigblocks : List BigBlock

def slobUnits (size : Nat) : Nat := (size + SLOB_UNIT - 1) / SLOB_UNIT

/- `align` is a power of two. -/
def alignUp (addr align : Nat) : Nat := (addr + align - 1) / align * align

/- `slob_alloc` where the block at `cur` has room. -/
def takeBlock (units delta prev cur : Nat) (h : Heap) : Nat × Heap :=
  let aligned := cur + delta * SLOB_UNIT
  let (prev, cur, h) :=
    if delta = 0 then (prev, cur, h)
    else (cur, aligned, { h with
      units := Function.update (Function.update h.units aligned (h.units cur - delta)) cur delta
      next := Function.update (Function.update h.next aligned (h.next cur)) cur aligned })
  if h.units cur = units then (cur, { h with
    next := Function.update h.next prev (h.next cur)
    slobfree := prev })
  else
    let rest := cur + units * SLOB_UNIT
    let next := Function.update h.next prev rest
    (cur, { h with
      units := Function.update (Function.update h.units rest (h.units cur - units)) cur units
      next := Function.update next rest (next cur)
      slobfree := prev })

/- The reinsertion point, from `cur` on. -/
def slobFind (b : Nat) (h : Heap) : Nat → Nat → Option Nat
  | 0, _ => none
  | fuel + 1, cur =>
      if cur < b ∧ b < h.next cur ∨ h.next cur ≤ cur ∧ (cur < b ∨ b < h.next cur) then some cur
      else slobFind b h fuel (h.next cur)

/- `b` takes in the block `after` where they meet. -/
def mergeAfter (b after : Nat) (h : Heap) : Heap :=
  if b + h.units b * SLOB_UNIT = after then { h with
    units := Function.update h.units b (h.units b + h.units after)
    next := Function.update h.next b (h.next after) }
  else { h with next := Function.update h.next b after }

/- `cur` takes in `b`, or is followed by it. -/
def mergeBefore (b cur : Nat) (h : Heap) : Heap :=
  if cur + h.units cur * SLOB_UNIT = b then { h with
    units := Function.update h.units cur (h.units cur + h.units b)
    next := Function.update h.next cur (h.next b) }
  else { h with next := Function.update h.next cur b }

/- The end of `slob_free`, with `b` behind `cur`. -/
def slobMerge (b cur : Nat) (h : Heap) : Heap :=
  { mergeBefore b cur (mergeAfter b (h.next cur) h) with slobfree := cur }

def slobFree (fuel b size : Nat) (h : Heap) : Option Heap :=
  if b = 0 then some h
  else
    let h := if size ≠ 0 then { h with units := Function.update h.units b (slobUnits size) } else h
    (slobFind b h fuel h.slobfree).map fun cur => slobMerge b cur h

/- The loop of `slob_alloc`: the block and the answers that are left. -/
def slobLoop (size units align : Nat) : Nat → List Nat → Nat → Nat → Heap → Option (Option Nat × List Nat × Heap)
  | 0, _, _, _, _ => none
  | fuel + 1, answers, prev, cur, h =>
      let delta := if align ≠ 0 then (alignUp cur align - cur) / SLOB_UNIT else 0
      if units + delta ≤ h.units cur then
        let (m, h) := takeBlock units delta prev cur h
        some (some m, answers, h)
      else if cur = h.slobfree then
        if size = PAGE_SIZE then some (none, answers, h)
        else
          match answers with
          | [] => none
          | page :: answers =>
              if page = 0 then some (none, answers, h)
              else do
                let h ← slobFree fuel page PAGE_SIZE h
                slobLoop size units align fuel answers h.slobfree (h.next h.slobfree) h
      else slobLoop size units align fuel answers cur (h.next cur) h

def slobAlloc (fuel size align : Nat) (answers : List Nat) (h : Heap) : Option (Option Nat × List Nat × Heap) :=
  if size + SLOB_UNIT < PAGE_SIZE then slobLoop size (slobUnits size) align fuel answers h.slobfree (h.next h.slobfree) h
  else none

def findOrder (size : Int) : Nat := if 4096 < size then findOrder (size / 2) + 1 else 0
termination_by size.toNat
decreasing_by omega

def sizeofBigblock : Nat := 24

/- `__kmalloc`. -/
def kmalloc (fuel size : Nat) (answers : List Nat) (h : Heap) : Option (Option Nat × List Nat × Heap) := do
  if size < PAGE_SIZE - SLOB_UNIT then
    let (m, answers, h) ← slobAlloc fuel (size + SLOB_UNIT) 0 answers h
    some (m.map (· + SLOB_UNIT), answers, h)
  else
    let (bb, answers, h) ← slobAlloc fuel sizeofBigblock 0 answers h
    match bb, answers with
    | none, _ => some (none, answers, h)
    | some _, [] => none
    | some bb, pages :: answers =>
        if pages ≠ 0 then
          some (some pages, answers, { h with bigblocks := ⟨bb, findOrder (i32 size), pages⟩ :: h.bigblocks })
        else do
          let h ← slobFree fuel bb sizeofBigblock h
          some (none, answers, h)

def kfree (fuel block : Nat) (h : Heap) : Option Heap :=
  if block = 0 then some h
  else
    match if block % PAGE_SIZE = 0 then h.bigblocks.find? (·.pages = block) else none with
    | some bb => slobFree fuel bb.base sizeofBigblock { h with bigblocks := h.bigblocks.erase bb }
    | none => slobFree fuel (block - SLOB_UNIT) 0 h

end Ucore.Slob
