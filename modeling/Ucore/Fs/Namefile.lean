import Ucore.Fs.Vfs.PathLookup
import Ucore.Lib.ByteMemory

/- lab8/kern/fs/sfs/sfs_inode.c: `sfs_namefile`, with `memmove` (libs/string.c) and
   `iobuf_skip` (fs/iobuf.c). -/
namespace Ucore
open Programs ByteMemory

/- What is at each address, or `none` where nothing is mapped. -/
abbrev KernelMemory := Nat → Option UInt8

section Moves

/- The loop of `memmove` upwards, `n` bytes from `s` to `d`. -/
def moveUp : Nat → Nat → Nat → KernelMemory → KernelMemory
  | 0, _, _, mem => mem
  | n + 1, d, s, mem => moveUp n (d + 1) (s + 1) (Function.update mem d (mem s))

/- The loop downwards, from the bytes below `s` to those below `d`. -/
def moveDown : Nat → Nat → Nat → KernelMemory → KernelMemory
  | 0, _, _, mem => mem
  | n + 1, d, s, mem => moveDown n (d - 1) (s - 1) (Function.update mem (d - 1) (mem (s - 1)))

def memmove (dst src n : Nat) (mem : KernelMemory) : KernelMemory :=
  if src < dst ∧ src + n > dst then moveDown n (dst + n) (src + n) mem else moveUp n dst src mem

/-- The `n` bytes from `s` on as they were, at `d`. -/
def bytesMoved (n d s : Nat) (mem : KernelMemory) : KernelMemory :=
  fun a => if d ≤ a ∧ a < d + n then mem (s + (a - d)) else mem a

variable {n d s : Nat} {mem : KernelMemory}

theorem moved_nothing : bytesMoved 0 d s mem = mem := by
  funext a
  unfold bytesMoved
  simp

/- No byte that is still to be read has been written. -/
theorem move_up_moves (ahead : d ≤ s ∨ s + n ≤ d) : moveUp n d s mem = bytesMoved n d s mem := by
  induction n generalizing d s mem with
  | zero => exact moved_nothing.symm
  | succ n ih =>
    unfold moveUp
    rw [ih (by omega)]
    funext a
    unfold bytesMoved
    by_cases first : a = d
    · subst a
      rw [if_neg (by omega), if_pos (by omega), Function.update_self, Nat.sub_self, Nat.add_zero]
    · by_cases inside : d ≤ a ∧ a < d + (n + 1)
      · rw [if_pos (by omega), if_pos inside, Function.update_of_ne (by omega)]
        congr 1
        omega
      · rw [if_neg (by omega), if_neg inside, Function.update_of_ne first]

theorem move_down_moves (behind : s ≤ d) : moveDown n (d + n) (s + n) mem = bytesMoved n d s mem := by
  induction n generalizing mem with
  | zero => exact moved_nothing.symm
  | succ n ih =>
    unfold moveDown
    rw [← Nat.add_assoc, ← Nat.add_assoc, Nat.add_sub_cancel, Nat.add_sub_cancel, ih]
    funext a
    unfold bytesMoved
    by_cases last : a = d + n
    · subst a
      rw [if_neg (by omega), if_pos (by omega), Function.update_self, Nat.add_sub_cancel_left]
    · by_cases inside : d ≤ a ∧ a < d + (n + 1)
      · rw [if_pos (by omega), if_pos inside, Function.update_of_ne (by omega)]
      · rw [if_neg (by omega), if_neg inside, Function.update_of_ne last]

theorem memmove_moves : memmove d s n mem = bytesMoved n d s mem := by
  unfold memmove
  split_ifs with overlap
  · exact move_down_moves overlap.1.le
  · exact move_up_moves (by omega)

theorem moved_put {bytes : List UInt8} (here : Has mem s bytes) : bytesMoved bytes.length d s mem = put mem d bytes := by
  funext a
  unfold bytesMoved put
  by_cases inside : d ≤ a ∧ a < d + bytes.length
  · rw [if_pos inside, if_pos inside, here _ (by omega)]
  · rw [if_neg inside, if_neg inside]

end Moves

structure Iobuf where
  ioBase : Nat
  ioOffset : Int
  ioResid : Nat

def iobufSkip (iob : Iobuf) (n : Nat) : VfsM Iobuf := do
  check .assertion (iob.ioResid ≥ n)
  return { ioBase := iob.ioBase + n, ioOffset := iob.ioOffset + n, ioResid := iob.ioResid - n }

/- `count` slots from `slot` on. -/
def sfsDirentFindino (k ino : Nat) : Nat → Nat → SfsM (Except Int SfsDiskEntry)
  | 0, _ => return .error (-E_NOENT)
  | count + 1, slot => do
      match ← sfsDirentReadNolock k slot with
      | .error ret => return .error ret
      | .ok entry =>
          if entry.ino = ino then return .ok entry
          else sfsDirentFindino k ino count (slot + 1)

def sfsDirentFindinoNolock (k ino : Nat) : SfsM (Except Int SfsDiskEntry) := do
  let din := (← sfsInode k).din
  sfsDirentFindino k ino din.blocks 0

/-- `".."` -/
def dotDot : Name := [46, 46]

/- `failed`: the reference that the walk holds goes. -/
def sfsNamefileFailed (node : Node) (ret : Int) (mem : KernelMemory) :
    VfsM (Option (Except Int (Nat × Nat) × KernelMemory)) := do
  let _ ← inodeRefDec node
  return some (.error ret, mem)

/- The loop, with `ptr` and `resid` after it. `none` when the fuel does not reach the root. -/
def sfsNamefileLoop : Nat → Node → Nat → Nat → KernelMemory →
    VfsM (Option (Except Int (Nat × Nat) × KernelMemory))
  | 0, _, _, _, _ => return none
  | fuel + 1, node, ptr, resid, mem => do
      let ino ← sfsInfo node
      match ← sfsLookupOnce ino dotDot with
      | .error ret => sfsNamefileFailed node ret mem
      | .ok parent =>
          let _ ← inodeRefDec node
          if node = parent then
            let _ ← inodeRefDec node
            return some (.ok (ptr, resid), mem)
          else
            let sin ← sfsInfo parent
            let din := (← onSfs (sfsInode sin)).din
            check .assertion (ino ≠ sin ∧ din.type = .dir)
            match ← onSfs (sfsDirentFindinoNolock sin ino) with
            | .error ret => sfsNamefileFailed parent ret mem
            | .ok entry =>
                let alen := entry.name.length + 1
                if alen > resid then sfsNamefileFailed parent (-E_NO_MEM) mem
                else
                  let ptr := ptr - alen
                  let mem := put mem ptr entry.name
                  sfsNamefileLoop fuel parent ptr (resid - alen)
                    (Function.update mem (ptr + (alen - 1)) (some 47))

/- The returned code, and the buffer and the memory after the call. -/
def sfsNamefile (fuel : Nat) (node : Node) (iob : Iobuf) (mem : KernelMemory) :
    VfsM (Option (Int × Iobuf × KernelMemory)) := do
  if iob.ioResid ≤ 2 then return some (-E_NO_MEM, iob, mem)
  else if !(← kmalloc) then return some (-E_NO_MEM, iob, mem)
  else
    let _ ← inodeRefInc node
    match ← sfsNamefileLoop fuel node (iob.ioBase + iob.ioResid) (iob.ioResid - 2) mem with
    | none => return none
    | some (.error ret, mem) => return some (ret, iob, mem)
    | some (.ok (ptr, resid), mem) =>
        let alen := iob.ioResid - resid - 2
        let mem := memmove (iob.ioBase + 1) ptr alen mem
        let mem := Function.update mem iob.ioBase (some 47)
        let mem := Function.update mem (iob.ioBase + 1 + alen) (some 0)
        let iob ← iobufSkip iob alen
        return some (0, iob, mem)

end Ucore
