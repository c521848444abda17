import Ucore.Lib.Intervals
import Ucore.Mm.ExecFile

/- lab8/kern/mm/vmm.c: the VMAs of an address space with the one that was looked up last, `mm_map`,
   `user_mem_check` and `copy_string`. -/
namespace Ucore.Vmm
open Intervals
open Exec (Vma VmFlags checkVmaOverlap)
open CowFork (PGSIZE USERBASE USERTOP word roundDown roundUp UserAccess)

def KERNBASE : Nat := 0xFFFFFFFFC0200000
def KMEMSIZE : Nat := 0x7E00000
def KERNTOP : Nat := KERNBASE + KMEMSIZE

def KernAccess (start stop : Nat) : Prop := KERNBASE ≤ start ∧ start < stop ∧ stop ≤ KERNTOP

instance (start stop : Nat) : Decidable (KernAccess start stop) := inferInstanceAs (Decidable (_ ∧ _))

structure MmStruct where
  mmapList : List Vma
  mmapCache : Option Vma
  mapCount : Nat

def mmCreate : MmStruct := ⟨[], none, 0⟩

def MmStruct.lookup (mm : MmStruct) (addr : Nat) : Option Vma :=
  (mm.mmapCache.filter fun vma => vma.vmStart ≤ addr ∧ vma.vmEnd > addr).or
    (mm.mmapList.find? fun vma => vma.vmStart ≤ addr ∧ addr < vma.vmEnd)

def findVma (mm : MmStruct) (addr : Nat) : Option Vma × MmStruct :=
  (mm.lookup addr, { mm with mmapCache := (mm.lookup addr).or mm.mmapCache })

/-- The assertions of `insert_vma_struct`. -/
def MmStruct.Inserts (mm : MmStruct) (vma : Vma) : Prop :=
  vma.vmStart < vma.vmEnd ∧ (∀ prev ∈ (before Vma.vmStart vma mm.mmapList).getLast?, checkVmaOverlap prev vma) ∧
    ∀ next ∈ (after Vma.vmStart vma mm.mmapList).head?, checkVmaOverlap vma next

instance (mm : MmStruct) (vma : Vma) : Decidable (mm.Inserts vma) := inferInstanceAs (Decidable (_ ∧ _ ∧ _))

def MmStruct.insert (mm : MmStruct) (vma : Vma) : MmStruct :=
  { mm with mmapList := place Vma.vmStart vma mm.mmapList, mapCount := mm.mapCount + 1 }

/- No result where an assertion fails. -/
def insertVmaStruct (mm : MmStruct) (vma : Vma) : Option MmStruct :=
  if mm.Inserts vma then some (mm.insert vma) else none

/- `granted` is what `vma_create` gets. -/
def mmMap (mm : MmStruct) (addr len : Nat) (vmFlags : VmFlags) (granted : Bool) : Option (Int × MmStruct) :=
  let start := roundDown addr
  let stop := roundUp (word (addr + len))
  if ¬ UserAccess start stop then some (-E_INVAL, mm)
  else
    let (vma, mm) := findVma mm start
    if ∃ old ∈ vma, stop > old.vmStart then some (-E_INVAL, mm)
    else if !granted then some (-E_NO_MEM, mm)
    else (insertVmaStruct mm ⟨start, stop, vmFlags⟩).map fun mm => (0, mm)

theorem lookup_covers {mm : MmStruct} {addr : Nat} {vma : Vma} (found : mm.lookup addr = some vma) :
    vma.vmStart ≤ addr ∧ addr < vma.vmEnd := by
  rcases Option.or_eq_some_iff.mp found with cached | ⟨-, scanned⟩
  · simpa using (Option.filter_eq_some_iff.mp cached).2
  · simpa using List.find?_some scanned

def vmaAllows (vma : Vma) (write : Bool) : Bool := if write then vma.vmFlags.write else vma.vmFlags.read

/- The loop of `user_mem_check`, which goes from the end of one VMA to the next. -/
def checkVmas (write : Bool) (stop : Nat) (mm : MmStruct) (start : Nat) : Bool × MmStruct :=
  if start < stop then
    match _found : mm.lookup start with
    | none => (false, (findVma mm start).2)
    | some vma =>
        if start < vma.vmStart then (false, (findVma mm start).2)
        else if !vmaAllows vma write then (false, (findVma mm start).2)
        else if write ∧ vma.vmFlags.stack ∧ start < word (vma.vmStart + PGSIZE) then (false, (findVma mm start).2)
        else checkVmas write stop (findVma mm start).2 vma.vmEnd
  else (true, mm)
termination_by stop - start
decreasing_by
  have ends := (lookup_covers _found).2
  omega

def userMemCheck (mm : Option MmStruct) (addr len : Nat) (write : Bool) : Bool × Option MmStruct :=
  match mm with
  | none => (KernAccess addr (word (addr + len)), none)
  | some mm =>
      if ¬ UserAccess addr (word (addr + len)) then (false, some mm)
      else ((checkVmas write (word (addr + len)) mm addr).1, some (checkVmas write (word (addr + len)) mm addr).2)

def strnlen (mem : Nat → UInt8) : Nat → Nat → Nat
  | _, 0 => 0
  | s, len + 1 => if mem s = 0 then 0 else strnlen mem (s + 1) len + 1

def memcpy (mem dst : Nat → UInt8) (off src n : Nat) : Nat → UInt8 :=
  fun i => if off ≤ i ∧ i < off + n then mem (src + (i - off)) else dst i

/-- What `copy_string` does with the memory of the process and with `dst`, where offsets are from its start. -/
inductive Access where
  | check (addr len : Nat) (allowed : Bool)
  | read (addr : Nat)
  | write (off : Nat)

def readAll (src n : Nat) : List Access := (List.range n).map fun i => .read (src + i)

def copyAll (off src n : Nat) : List Access := (List.range n).flatMap fun i => [.read (src + i), .write (off + i)]

structure Copy where
  ret : Bool
  mm : Option MmStruct
  dst : Nat → UInt8
  accesses : List Access

theorem user_mem_check_pos {mm : Option MmStruct} {addr len : Nat} {write : Bool}
    (allowed : (userMemCheck mm addr len write).1 = true) : 0 < len := by
  by_contra empty
  have wraps : ¬ addr < word (addr + len) := by
    have small : word addr ≤ addr := Nat.mod_le _ _
    rw [Nat.eq_zero_of_not_pos empty, Nat.add_zero]
    omega
  cases mm with
  | none => exact wraps (of_decide_eq_true allowed).2.1
  | some mm =>
    unfold userMemCheck at allowed
    dsimp only at allowed
    rw [if_pos fun user => wraps user.2.1] at allowed
    cases allowed

/- The loop of `copy_string`, with `off` for how far `dst` has come. -/
def copyPieces (mem : Nat → UInt8) (mm : Option MmStruct) (dst : Nat → UInt8) (off src part maxn : Nat) : Copy :=
  let part := min part maxn
  let checked := userMemCheck mm src part false
  if _allowed : checked.1 = true then
    let alen := strnlen mem src part
    if alen < part then
      ⟨true, checked.2, memcpy mem dst off src (alen + 1),
        .check src part true :: (readAll src (alen + 1) ++ copyAll off src (alen + 1))⟩
    else if part = maxn then ⟨false, checked.2, dst, .check src part true :: readAll src part⟩
    else
      let rest := copyPieces mem checked.2 (memcpy mem dst off src part) (off + part) (word (src + part)) PGSIZE (maxn - part)
      { rest with accesses := .check src part true :: (readAll src part ++ copyAll off src part) ++ rest.accesses }
  else ⟨false, checked.2, dst, [.check src part false]⟩
termination_by maxn
decreasing_by
  have some_bytes := user_mem_check_pos _allowed
  omega

def copyString (mm : Option MmStruct) (mem dst : Nat → UInt8) (src maxn : Nat) : Copy :=
  copyPieces mem mm dst 0 src (word (roundDown (word (src + PGSIZE)) + 2 ^ 64 - src)) maxn

end Ucore.Vmm
