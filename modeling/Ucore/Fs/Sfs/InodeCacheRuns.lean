import Mathlib.Data.List.Perm.Basic
import Ucore.Fs.Sfs.InodeCache

/- Whatever the order of lookups, references and reclaims: one inode in memory for each inode
   of the disk, and each freed once. -/
namespace Ucore.InodeCache
open Programs Transitions

/-- All that concerns one address. -/
structure SinView where
  sin : Option CachedSin
  listed : Nat → Nat
  refs : Nat
  pending : Nat
  dying : Nat
  flushing : Bool
  created : Nat
  unlinked : Nat
  killed : Nat
  revived : Nat
  tried : Nat

def SfsCache.refsTo (s : SfsCache) (a : Nat) : Nat := (s.refs.map Prod.snd).count a

def SfsCache.view (s : SfsCache) (a : Nat) : SinView where
  sin := s.sins a
  listed := fun b => (s.hashList b).count a
  refs := s.refsTo a
  pending := s.pending.count a
  dying := s.dying.count a
  flushing := s.lock = some (.flushing a)
  created := s.created a
  unlinked := s.unlinked a
  killed := s.killed a
  revived := s.revived a
  tried := s.tried a

/-- An inode that the hash list of its number holds. -/
def Linked (hash : Nat → Nat) (s : SfsCache) (a : Nat) (i : CachedSin) : Prop :=
  s.sins a = some i ∧ a ∈ s.hashList (hash i.ino)

section
variable {hash : Nat → Nat} {s t : SfsCache} {a b p q ino : Nat} {i : CachedSin}

theorem sin_of_run (here : s.sins a = some i) : sinOf a s = .ok (i, s) := by
  unfold sinOf
  rw [run_get_bind, here]
  rfl

/- A reference is dropped; `inode_ref_dec` calls for a reclaim if it was the last. -/
def SfsCache.dropped (s : SfsCache) (p a : Nat) (i : CachedSin) : SfsCache :=
  { s.setSin a (some { i with refCount := i.refCount - 1 }) with
    refs := s.refs.erase (p, a)
    pending := if i.refCount = 1 then a :: s.pending else s.pending }

theorem ref_dec_run (linked : Linked hash s a i) (positive : 0 < i.refCount) :
    sinRefDec p a s = .ok ((), s.dropped p a i) := by
  unfold sinRefDec SfsCache.dropped
  rw [run_bind (sin_of_run linked.1), run_check_bind positive, run_modify_bind]
  by_cases last : i.refCount = 1
  · rw [if_pos (by omega), if_pos last]
    rfl
  · rw [if_neg (by omega), if_neg last]
    rfl

end

end Ucore.InodeCache
