import Mathlib

/- A file as an array of bytes with a size, which may lie below the last byte stored. -/
namespace ByteFile
variable {α : Type}

/- `bytes` is indexed by position in the file. -/
def splice (old bytes : Nat → α) (lo hi : Nat) : Nat → α :=
  fun p => if lo ≤ p ∧ p < hi then bytes p else old p

/- What `[offset, offset + len)` becomes when `buf` is written there. -/
def placed (buf : Nat → α) (offset : Nat) : Nat → α := fun p => buf (p - offset)

structure File (α : Type) where
  size : Nat
  data : Nat → α

def File.write (f : File α) (buf : Nat → α) (offset len : Nat) : File α :=
  { size := if len = 0 then f.size else max f.size (offset + len)
    data := splice f.data (placed buf offset) offset (offset + len) }

/- How many bytes a read delivers, and which. -/
def File.readable (f : File α) (offset len : Nat) : Nat := min (offset + len) f.size - offset

def File.read (f : File α) (buf : Nat → α) (offset len : Nat) : Nat → α :=
  fun j => if j < f.readable offset len then f.data (offset + j) else buf j

variable {old bytes : Nat → α} {lo mid hi : Nat}

theorem splice_inside {p : Nat} (above : lo ≤ p) (below : p < hi) :
    splice old bytes lo hi p = bytes p := if_pos ⟨above, below⟩

theorem splice_outside {p : Nat} (outside : p < lo ∨ hi ≤ p) :
    splice old bytes lo hi p = old p := by
  apply if_neg
  omega

theorem splice_nothing : splice old bytes lo lo = old := by
  funext p
  apply splice_outside
  omega

theorem splice_splice (first : lo ≤ mid) (second : mid ≤ hi) :
    splice (splice old bytes lo mid) bytes mid hi = splice old bytes lo hi := by
  funext p
  unfold splice
  by_cases low : p < mid
  · by_cases above : lo ≤ p
    · rw [if_neg (by omega), if_pos ⟨above, low⟩, if_pos ⟨above, by omega⟩]
    · rw [if_neg (by omega), if_neg (by omega), if_neg (by omega)]
  · by_cases below : p < hi
    · rw [if_pos ⟨by omega, below⟩, if_pos ⟨by omega, below⟩]
    · rw [if_neg (by omega), if_neg (by omega), if_neg (by omega)]

theorem write_nothing {f : File α} {buf : Nat → α} {offset : Nat} : f.write buf offset 0 = f := by
  unfold File.write
  rw [if_pos rfl, Nat.add_zero, splice_nothing]

theorem readable_written {f : File α} {buf : Nat → α} {offset len : Nat} :
    (f.write buf offset len).readable offset len = len := by
  unfold File.readable File.write
  dsimp only
  split_ifs <;> omega

theorem read_inside {f : File α} {buf : Nat → α} {offset len j : Nat} (inside : offset + j < min (offset + len) f.size) :
    f.read buf offset len j = f.data (offset + j) := by
  unfold File.read File.readable
  rw [if_pos (by omega)]

/-- What has been written is read back. -/
theorem read_written {f : File α} {buf into : Nat → α} {offset len j : Nat} (inside : j < len) :
    (f.write buf offset len).read into offset len j = buf j := by
  unfold File.read
  rw [readable_written, if_pos inside]
  unfold File.write
  dsimp only
  rw [splice_inside (by omega) (by omega)]
  unfold placed
  rw [Nat.add_sub_cancel_left]

/-- A change of a file: `bytes`, by position, go to `[lo, hi)`, and the size is `size` after it. -/
structure Change (α : Type) where
  lo : Nat
  hi : Nat
  bytes : Nat → α
  size : Nat

/-- What a position holds after changes, the last one first: the byte last written there since the size last fell to it
or below, and 0 where there is none. -/
def lastWritten [Zero α] (start : Nat → α) : List (Change α) → Nat → α
  | [], p => start p
  | c :: earlier, p => if c.size ≤ p then 0 else splice (lastWritten start earlier) c.bytes c.lo c.hi p

theorem last_written_cons [Zero α] {start : Nat → α} {c : Change α} {earlier : List (Change α)} (p : Nat) :
    lastWritten start (c :: earlier) p = if c.size ≤ p then 0 else splice (lastWritten start earlier) c.bytes c.lo c.hi p := rfl

end ByteFile
