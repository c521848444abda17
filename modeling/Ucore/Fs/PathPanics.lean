import Ucore.Fs.Vfs.Opens
import Ucore.Fs.Sysfile

/- Which paths of the user stop the kernel. -/
namespace Ucore
open Programs

/-- A system call on a path that `copy_path` can read. -/
inductive PathCall where
  | openFile (openFlags : Nat)
  | chdir

def PathCall.run (path : Name) : PathCall → VfsM Int
  | .openFile openFlags => sysfileOpen (some path) openFlags
  | .chdir => sysfileChdir (some path)

/-- The file table of the process and its current directory are well kept. -/
structure UserReady (v : Vfs) (D : Set Nat) : Prop extends Stored v D where
  files_used : 0 < (v.files v.current).filesCount
  free : ∀ fd, ((v.files v.current).fdArray fd).status = .none → ((v.files v.current).fdArray fd).openCount = 0
  last : ∀ k i, (v.files v.current).pwd = some (.sfs k) → v.inodes (.sfs k) = some i → i.refCount = 1 →
    i.openCount = 0 ∧ 0 < i.reclaimCount ∧ (v.sfs.inodes k).dirty = false ∧ (v.sfs.inodes k).din.nlinks ≠ 0

section
variable {v w t : Vfs} {D : Set Nat} {n : Node} {i : Inode} {path : Name} {openFlags fd : Nat}

/- The table with the entry that is being opened. -/
def Vfs.opening (v : Vfs) (fd : Nat) : Vfs :=
  let f := v.files v.current
  let file := f.fdArray fd
  { v with files := (Function.update v.files v.current
      { f with fdArray := Function.update f.fdArray fd { file with status := .init, node := none } }) }

theorem free_entry_free {table : Nat → File} (found : freeEntry table NO_FD = .ok fd) : (table fd).status = .none := by
  unfold freeEntry at found
  rw [if_pos rfl] at found
  split at found
  · rename_i i there
    cases found
    simpa using List.find?_some there
  · cases found

theorem alloc_run (ready : UserReady v D) (found : freeEntry (v.files v.current).fdArray NO_FD = .ok fd) :
    fdArrayAlloc NO_FD v = .ok (.ok ⟨v.current, fd⟩, v.opening fd) := by
  have table : getFdArray v = .ok (v.current, v) := by
    unfold getFdArray
    rw [run_get_bind, run_check_bind ready.files_used]
    rfl
  unfold fdArrayAlloc
  rw [run_bind table, run_get_bind, found]
  dsimp only
  rw [run_check_bind (ready.free fd (free_entry_free found))]
  rfl

theorem alloc_full {e : Int} (ready : UserReady v D) (full : freeEntry (v.files v.current).fdArray NO_FD = .error e) :
    fdArrayAlloc NO_FD v = .ok (.error e, v) := by
  have table : getFdArray v = .ok (v.current, v) := by
    unfold getFdArray
    rw [run_get_bind, run_check_bind ready.files_used]
    rfl
  unfold fdArrayAlloc
  rw [run_bind table, run_get_bind, full]
  rfl

theorem entry_opened {r : FileRef} {file : File} (here : fileOf r w = .ok (file, w)) (status : file.status = .init) (pos : Int)
    (readable writable : Bool) : ∃ t, (do
      let file ← fileOf r
      setFile r { file with pos, node := some n, readable, writable }
      fdArrayOpen r
      return r.fd : VfsM Int) w = .ok ((r.fd : Int), t) := by
  rw [run_bind here]
  let f := w.files r.proc
  let t : Vfs := { w with files := (Function.update w.files r.proc
    { f with fdArray := Function.update f.fdArray r.fd { file with pos, node := some n, readable, writable } }) }
  have set : setFile r { file with pos, node := some n, readable, writable } w = .ok ((), t) := rfl
  rw [run_bind set]
  have there : fileOf r t = .ok ({ file with pos, node := some n, readable, writable }, t) := by
    refine congrArg (fun file => Except.ok (file, t)) ?_
    unfold t
    dsimp only
    rw [Function.update_self]
    exact Function.update_self _ _ _
  have opened : ∃ u, fdArrayOpen r t = .ok ((), u) := by
    unfold fdArrayOpen
    rw [run_bind there, run_check_bind ⟨status, Option.some_ne_none n⟩]
    exact ⟨_, rfl⟩
  obtain ⟨u, opened⟩ := opened
  rw [run_bind opened]
  exact ⟨u, rfl⟩

theorem not_last_run (here : w.inodes n = some i) (counted : 0 < i.refCount) (several : i.refCount ≠ 1) :
    inodeRefDec n w = .ok (i.refCount - 1, w.withInode n (some { i with refCount := i.refCount - 1 })) := by
  unfold inodeRefDec
  rw [run_bind (inode_of_run here), run_check_bind counted]
  rw [run_bind (show setInode n _ w = .ok ((), w.withInode n _) from rfl), if_neg (by omega)]
  rfl

end

end Ucore
