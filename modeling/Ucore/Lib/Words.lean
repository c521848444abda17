import Mathlib

/- Fixed-width unsigned words as natural numbers: a store into a 32-bit variable
   keeps the value modulo 2^32. -/
namespace Words

def wordSize : Nat := 4294967296

def u32 (x : Int) : Nat := (x % 4294967296).toNat

theorem u32_lt (x : Int) : u32 x < wordSize := by
  simp only [u32, wordSize]
  omega

theorem u32_exact {x : Int} {v : Nat} (value : x = v) (fits : v < wordSize) : u32 x = v := by
  simp only [u32, wordSize] at *
  omega

theorem u32_of_nat {v : Nat} (fits : v < wordSize) : u32 v = v := u32_exact rfl fits

theorem u32_mod (v : Nat) : u32 v = v % wordSize := by
  simp only [u32, wordSize]
  omega

/- A signed 32-bit variable, in two's complement. -/
def i32 (x : Int) : Int := (x + 2147483648) % 4294967296 - 2147483648

theorem i32_exact {x : Int} (lower : -2147483648 ≤ x) (upper : x < 2147483648) : i32 x = x := by
  unfold i32
  omega

end Words
