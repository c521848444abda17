import Ucore.Lib.Programs
import Ucore.Lib.Transitions

/- lab8/kern/fs/sfs/sfs_inode.c and vfs/inode.c: which inodes are in memory, while processes
   look them up, take and drop references, and wait for the lock of the file system to reclaim
   them. What an inode holds, and its `open_count`, are left to `Vfs`. -/
namespace Ucore.InodeCache
open Programs Transitions

/-- The counts of an inode in memory, of `struct inode` and `struct sfs_inode`. -/
structure CachedSin where
  ino : Nat
  refCount : Nat
  reclaimCount : Nat
  deriving DecidableEq

/-- Who holds the lock of the file system while it reads or writes the disk. -/
inductive SfsLock where
  | loading (p ino : Nat)
  | flushing (a : Nat)
  deriving DecidableEq

/-- The inodes in memory, by address, and the lists that find them. `pending` are the calls of
`sfs_reclaim` that have not got the lock, `dying` the inodes that `sfs_reclaim` has unlinked and
not freed yet, and `refs` the references that processes hold. The other fields count what has
happened to an address. -/
structure SfsCache where
  hashList : Nat → List Nat
  sins : Nat → Option CachedSin
  lock : Option SfsLock
  pending : List Nat
  dying : List Nat
  refs : List (Nat × Nat)
  created : Nat → Nat
  unlinked : Nat → Nat
  killed : Nat → Nat
  revived : Nat → Nat
  tried : Nat → Nat

inductive CacheStop where
  | assertion
  | dangling
  deriving DecidableEq

abbrev CacheM (α : Type) := Prog CacheStop SfsCache α

def bump (f : Nat → Nat) (a : Nat) : Nat → Nat := Function.update f a (f a + 1)

def sinOf (a : Nat) : CacheM CachedSin := do
  match (← get).sins a with
  | none => stop .dangling
  | some sin => return sin

def SfsCache.setSin (s : SfsCache) (a : Nat) (sin : Option CachedSin) : SfsCache :=
  { s with sins := Function.update s.sins a sin }

def SfsCache.hold (s : SfsCache) (p a : Nat) : SfsCache := { s with refs := (p, a) :: s.refs }

/- The walk along a hash list. -/
def hashWalk (sins : Nat → Option CachedSin) (ino : Nat) : List Nat → Except CacheStop (Option Nat)
  | [] => .ok none
  | a :: rest =>
      match sins a with
      | none => .error .dangling
      | some sin => if sin.ino = ino then .ok (some a) else hashWalk sins ino rest

/-- `hash` is `sin_hashfn`; the reference goes to process `p`. -/
def lookupSfsNolock (hash : Nat → Nat) (p ino : Nat) : CacheM (Option Nat) := do
  let s ← get
  match hashWalk s.sins ino (s.hashList (hash ino)) with
  | .error e => stop e
  | .ok none => return none
  | .ok (some a) => do
      let sin ← sinOf a
      modify fun s => s.setSin a (some { sin with refCount := sin.refCount + 1 })
      if sin.refCount + 1 = 1 then
        modify fun s =>
          { s.setSin a (some ⟨sin.ino, sin.refCount + 1, sin.reclaimCount + 1⟩) with
            revived := bump s.revived a }
      modify fun s => s.hold p a
      return some a

/- `sfs_load_inode` up to the disk: a miss keeps the lock. -/
def sfsLoadBegin (hash : Nat → Nat) (p ino : Nat) : CacheM Unit := do
  match ← lookupSfsNolock hash p ino with
  | some _ => return ()
  | none => modify fun s => { s with lock := some (.loading p ino) }

/- The rest of it: `sfs_create_inode` and `sfs_set_links`, unless something fails. -/
def sfsLoadEnd (hash : Nat → Nat) (p ino : Nat) (fresh : Option Nat) : CacheM Unit :=
  modify fun s =>
    match fresh with
    | none => { s with lock := none }
    | some a =>
        { (s.setSin a (some ⟨ino, 1, 1⟩)).hold p a with
          hashList := Function.update s.hashList (hash ino) (a :: s.hashList (hash ino))
          lock := none
          created := bump s.created a
          revived := Function.update s.revived a 0
          tried := Function.update s.tried a 0 }

def sinRefInc (q a : Nat) : CacheM Unit := do
  let sin ← sinOf a
  modify fun s => (s.setSin a (some { sin with refCount := sin.refCount + 1 })).hold q a

/- `inode_ref_dec`, up to `vop_reclaim`. -/
def sinRefDec (p a : Nat) : CacheM Unit := do
  let sin ← sinOf a
  check .assertion (sin.refCount > 0)
  modify fun s =>
    { s.setSin a (some { sin with refCount := sin.refCount - 1 }) with refs := s.refs.erase (p, a) }
  if sin.refCount - 1 = 0 then
    modify fun s => { s with pending := a :: s.pending }

/- `sfs_reclaim` up to the disk. -/
def sfsReclaimBegin (a : Nat) : CacheM Unit := do
  let sin ← sinOf a
  check .assertion (sin.reclaimCount > 0)
  modify fun s =>
    { s.setSin a (some { sin with reclaimCount := sin.reclaimCount - 1 }) with
      pending := s.pending.erase a
      tried := bump s.tried a }
  if sin.reclaimCount - 1 ≠ 0 ∨ sin.refCount ≠ 0 then return ()
  else modify fun s => { s with lock := some (.flushing a) }

/- `ret` is what `vop_truncate` or `vop_fsync` has returned, or 0. -/
def sfsReclaimEnd (hash : Nat → Nat) (a : Nat) (ret : Int) : CacheM Unit := do
  if ret ≠ 0 then modify fun s => { s with lock := none }
  else
    let sin ← sinOf a
    modify fun s =>
      { s with
        hashList := Function.update s.hashList (hash sin.ino) ((s.hashList (hash sin.ino)).erase a)
        lock := none
        dying := a :: s.dying
        unlinked := bump s.unlinked a }

/-- `inode_kill`. -/
def sinKill (a : Nat) : CacheM Unit := do
  let sin ← sinOf a
  check .assertion (sin.refCount = 0)
  modify fun s => { s.setSin a none with dying := s.dying.erase a, killed := bump s.killed a }

/-- What can happen next. -/
inductive CacheCall where
  | load (p ino : Nat)
  | loaded (p ino : Nat) (fresh : Option Nat)
  | refInc (p q a : Nat)
  | refDec (p a : Nat)
  | reclaim (a : Nat)
  | flushed (a : Nat) (ret : Int)
  | kill (a : Nat)

/-- The lock is free or held by the caller; memory comes from `kmalloc`; and a process takes or
drops a reference to an inode that it holds one to. -/
def CacheCall.Possible (s : SfsCache) : CacheCall → Prop
  | .load _ _ => s.lock = none
  | .loaded p ino fresh => s.lock = some (.loading p ino) ∧ ∀ a ∈ fresh, s.sins a = none
  | .refInc p _ a => (p, a) ∈ s.refs
  | .refDec p a => (p, a) ∈ s.refs
  | .reclaim a => s.lock = none ∧ a ∈ s.pending
  | .flushed a _ => s.lock = some (.flushing a)
  | .kill a => a ∈ s.dying

instance (s : SfsCache) : (c : CacheCall) → Decidable (c.Possible s)
  | .load _ _ => inferInstanceAs (Decidable (s.lock = none))
  | .loaded p ino fresh =>
      inferInstanceAs (Decidable (s.lock = some (.loading p ino) ∧ ∀ a ∈ fresh, s.sins a = none))
  | .refInc p _ a => inferInstanceAs (Decidable ((p, a) ∈ s.refs))
  | .refDec p a => inferInstanceAs (Decidable ((p, a) ∈ s.refs))
  | .reclaim a => inferInstanceAs (Decidable (s.lock = none ∧ a ∈ s.pending))
  | .flushed a _ => inferInstanceAs (Decidable (s.lock = some (.flushing a)))
  | .kill a => inferInstanceAs (Decidable (a ∈ s.dying))

def CacheCall.run (hash : Nat → Nat) : CacheCall → CacheM Unit
  | .load p ino => sfsLoadBegin hash p ino
  | .loaded p ino fresh => sfsLoadEnd hash p ino fresh
  | .refInc _ q a => sinRefInc q a
  | .refDec p a => sinRefDec p a
  | .reclaim a => sfsReclaimBegin a
  | .flushed a ret => sfsReclaimEnd hash a ret
  | .kill a => sinKill a

end Ucore.InodeCache
