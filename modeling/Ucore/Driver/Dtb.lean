import Mathlib

/- lab8/kern/driver/dtb.c. Words are natural numbers below 2^32 or 2^64. The names of a tree lie in its strings block, and
`fuel` bounds the turns of each loop. -/
namespace Ucore.Dtb

def FDT_BEGIN_NODE : Nat := 1
def FDT_END_NODE : Nat := 2
def FDT_PROP : Nat := 3
def FDT_NOP : Nat := 4
def FDT_END : Nat := 9

abbrev Memory := Nat → UInt8

def load32 (mem : Memory) (a : Nat) : Nat :=
  (mem a).toNat + (mem (a + 1)).toNat * 2 ^ 8 + (mem (a + 2)).toNat * 2 ^ 16 + (mem (a + 3)).toNat * 2 ^ 24

def load64 (mem : Memory) (a : Nat) : Nat := load32 mem a + load32 mem (a + 4) * 2 ^ 32

def fdt32ToCpu (x : Nat) : Nat :=
  (x &&& 0xff) <<< 24 ||| ((x >>> 8) &&& 0xff) <<< 16 ||| ((x >>> 16) &&& 0xff) <<< 8 ||| ((x >>> 24) &&& 0xff)

def fdt64ToCpu (x : Nat) : Nat := fdt32ToCpu (x &&& 0xffffffff) <<< 32 ||| fdt32ToCpu (x >>> 32)

def strlen (mem : Memory) : Nat → Nat → Option Nat
  | 0, _ => none
  | fuel + 1, s => if mem s = 0 then some 0 else (strlen mem fuel (s + 1)).map (· + 1)

/- The other string of a comparison is a literal, with its NUL left out. -/
def strncmp (mem : Memory) (s1 : Nat) (s2 : List UInt8) : Nat → Int
  | 0 => 0
  | n + 1 =>
      if mem s1 ≠ 0 ∧ mem s1 = s2.headD 0 then strncmp mem (s1 + 1) s2.tail n
      else ((mem s1).toNat : Int) - (s2.headD 0).toNat

def strcmp (mem : Memory) : Nat → List UInt8 → Int
  | s1, [] => (mem s1).toNat
  | s1, c :: s2 => if mem s1 ≠ 0 ∧ mem s1 = c then strcmp mem (s1 + 1) s2 else ((mem s1).toNat : Int) - c.toNat

def bytes (s : String) : List UInt8 := s.toList.map fun ch => UInt8.ofNat ch.toNat

def memoryName : List UInt8 := bytes "memory"
def regName : List UInt8 := bytes "reg"

/- `name_len` is an `int`. -/
def nameLen (len : Nat) : Int := (len + 2147483648) % 4294967296 - 2147483648

def alignDown (a : Nat) : Nat := a / 4 * 4

/- The loop of `extract_memory_info`, up to the `reg` that it takes or its end. -/
def findReg (mem : Memory) (stringsBase : Nat) : Nat → Nat → Bool → Option (Option Nat)
  | 0, _, _ => none
  | fuel + 1, structPtr, inMemoryNode =>
      let token := fdt32ToCpu (load32 mem structPtr)
      let structPtr := structPtr + 4
      if token = FDT_BEGIN_NODE then do
        let len ← strlen mem (fuel + 1) structPtr
        let inMemoryNode := if strncmp mem structPtr memoryName 6 = 0 then true else inMemoryNode
        findReg mem stringsBase fuel (alignDown (structPtr + nameLen len + 4).toNat) inMemoryNode
      else if token = FDT_END_NODE then findReg mem stringsBase fuel structPtr false
      else if token = FDT_PROP then
        let propLen := fdt32ToCpu (load32 mem structPtr)
        let propNameoff := fdt32ToCpu (load32 mem (structPtr + 4))
        let propName := stringsBase + propNameoff
        let propData := structPtr + 8
        if inMemoryNode ∧ strcmp mem propName regName = 0 ∧ propLen ≥ 16 then some (some propData)
        else findReg mem stringsBase fuel (alignDown (propData + propLen + 3)) inMemoryNode
      else if token = FDT_NOP then findReg mem stringsBase fuel structPtr inMemoryNode
      else some none

/- `*mem_base` and `*mem_size`, or -1 for `none`. -/
def extractMemoryInfo (mem : Memory) (dtbVaddr fuel : Nat) : Option (Option (Nat × Nat)) := do
  let structOffset := fdt32ToCpu (load32 mem (dtbVaddr + 8))
  let stringsOffset := fdt32ToCpu (load32 mem (dtbVaddr + 12))
  let found ← findReg mem (dtbVaddr + stringsOffset) fuel (dtbVaddr + structOffset) false
  some (found.map fun regData => (fdt64ToCpu (load64 mem regData), fdt64ToCpu (load64 mem (regData + 8))))

section
variable {mem : Memory} {a b x fuel : Nat} {name s : List UInt8}

/- Big-endian words. -/
def be32 (mem : Memory) (a : Nat) : Nat :=
  (mem a).toNat * 2 ^ 24 + (mem (a + 1)).toNat * 2 ^ 16 + (mem (a + 2)).toNat * 2 ^ 8 + (mem (a + 3)).toNat

def be64 (mem : Memory) (a : Nat) : Nat := be32 mem a * 2 ^ 32 + be32 mem (a + 4)

/- A string, with its NUL. -/
def StringAt (mem : Memory) (a : Nat) (name : List UInt8) : Prop :=
  0 ∉ name ∧ (∀ i (inside : i < name.length), mem (a + i) = name[i]) ∧ mem (a + name.length) = 0

theorem or_apart {k : Nat} (divides : 2 ^ k ∣ x) (below : b < 2 ^ k) : x ||| b = x + b := by
  obtain ⟨q, rfl⟩ := divides
  exact (Nat.two_pow_add_eq_or_of_lt below q).symm

theorem bytes_or {b0 b1 b2 b3 : Nat} (h1 : b1 < 256) (h2 : b2 < 256) (h3 : b3 < 256) :
    b0 * 2 ^ 24 ||| b1 * 2 ^ 16 ||| b2 * 2 ^ 8 ||| b3 = b0 * 2 ^ 24 + b1 * 2 ^ 16 + b2 * 2 ^ 8 + b3 := by
  have first := @or_apart (b1 * 2 ^ 16) (b0 * 2 ^ 24) 24 (by omega) (by omega)
  have second := @or_apart (b2 * 2 ^ 8) (b0 * 2 ^ 24 + b1 * 2 ^ 16) 16 (by omega) (by omega)
  have third := @or_apart b3 (b0 * 2 ^ 24 + b1 * 2 ^ 16 + b2 * 2 ^ 8) 8 (by omega) (by omega)
  rw [first, second, third]

theorem byte_lt (mem : Memory) (a : Nat) : (mem a).toNat < 256 := (mem a).toNat_lt

theorem load32_lt (mem : Memory) (a : Nat) : load32 mem a < 2 ^ 32 := by
  have := byte_lt mem a
  have := byte_lt mem (a + 1)
  have := byte_lt mem (a + 2)
  have := byte_lt mem (a + 3)
  unfold load32
  omega

theorem fdt32_swaps (mem : Memory) (a : Nat) : fdt32ToCpu (load32 mem a) = be32 mem a := by
  have b0 := byte_lt mem a
  have b1 := byte_lt mem (a + 1)
  have b2 := byte_lt mem (a + 2)
  have b3 := byte_lt mem (a + 3)
  have mask : ∀ y, y &&& 0xff = y % 256 := fun y => Nat.and_two_pow_sub_one_eq_mod y 8
  have first : load32 mem a % 256 = (mem a).toNat := by unfold load32; omega
  have second : (load32 mem a >>> 8) % 256 = (mem (a + 1)).toNat := by
    rw [Nat.shiftRight_eq_div_pow]
    unfold load32
    omega
  have third : (load32 mem a >>> 16) % 256 = (mem (a + 2)).toNat := by
    rw [Nat.shiftRight_eq_div_pow]
    unfold load32
    omega
  have fourth : (load32 mem a >>> 24) % 256 = (mem (a + 3)).toNat := by
    rw [Nat.shiftRight_eq_div_pow]
    unfold load32
    omega
  unfold fdt32ToCpu be32
  rw [mask, mask, mask, mask, first, second, third, fourth, Nat.shiftLeft_eq, Nat.shiftLeft_eq, Nat.shiftLeft_eq]
  exact bytes_or b1 b2 b3

theorem fdt64_swaps (mem : Memory) (a : Nat) : fdt64ToCpu (load64 mem a) = be64 mem a := by
  have low := load32_lt mem a
  have mask : load64 mem a &&& 0xffffffff = load32 mem a := by
    have mask : load64 mem a &&& 0xffffffff = load64 mem a % 4294967296 := Nat.and_two_pow_sub_one_eq_mod (load64 mem a) 32
    rw [mask]
    unfold load64
    omega
  have high : load64 mem a >>> 32 = load32 mem (a + 4) := by
    rw [Nat.shiftRight_eq_div_pow]
    unfold load64
    omega
  have below : be32 mem (a + 4) < 2 ^ 32 := by
    have := byte_lt mem (a + 4)
    have := byte_lt mem (a + 4 + 1)
    have := byte_lt mem (a + 4 + 2)
    have := byte_lt mem (a + 4 + 3)
    unfold be32
    omega
  unfold fdt64ToCpu be64
  rw [mask, high, fdt32_swaps, fdt32_swaps, Nat.shiftLeft_eq, @or_apart _ _ 32 ⟨_, Nat.mul_comm _ _⟩ below]

theorem string_tail {c : UInt8} (here : StringAt mem a (c :: name)) : mem a = c ∧ c ≠ 0 ∧ StringAt mem (a + 1) name := by
  obtain ⟨nonzero, bytes, ends⟩ := here
  have next : ∀ i, a + 1 + i = a + (i + 1) := by omega
  refine ⟨bytes 0 (Nat.succ_pos _), fun zero => nonzero (zero ▸ List.mem_cons_self), fun mem => nonzero (List.mem_cons_of_mem _ mem),
    fun i inside => ?_, ?_⟩
  · rw [next]
    exact bytes (i + 1) (Nat.succ_lt_succ inside)
  · rw [next]
    exact ends

theorem strlen_string (here : StringAt mem a name) (enough : name.length < fuel) : strlen mem fuel a = some name.length := by
  induction name generalizing fuel a with
  | nil =>
    obtain ⟨fuel, rfl⟩ : ∃ m, fuel = m + 1 := ⟨fuel - 1, by rw [List.length_nil] at enough; omega⟩
    exact if_pos here.2.2
  | cons c name ih =>
    obtain ⟨first, nonzero, rest⟩ := string_tail here
    rw [List.length_cons] at enough
    obtain ⟨fuel, rfl⟩ : ∃ m, fuel = m + 1 := ⟨fuel - 1, by omega⟩
    rw [strlen, if_neg (first ▸ nonzero), ih rest (by omega)]
    rfl

theorem byte_eq_of_diff {c d : UInt8} (same : (c.toNat : Int) - d.toNat = 0) : c = d := UInt8.toNat_inj.mp (by omega)

theorem strncmp_leads (here : StringAt mem a name) (plain : 0 ∉ s) : strncmp mem a s s.length = 0 ↔ s <+: name := by
  induction s generalizing a name with
  | nil => exact iff_of_true rfl List.nil_prefix
  | cons c s ih =>
    have nonzero : c ≠ 0 := fun zero => plain (zero ▸ List.mem_cons_self)
    rw [List.length_cons, strncmp]
    cases name with
    | nil =>
      have ends : mem a = 0 := here.2.2
      rw [if_neg fun both => both.1 ends]
      refine iff_of_false (fun same => nonzero ?_) fun prefixed => by simp at prefixed
      exact (byte_eq_of_diff same).symm.trans ends
    | cons d name =>
      obtain ⟨first, _, rest⟩ := string_tail here
      rw [List.cons_prefix_cons]
      by_cases same : c = d
      · rw [if_pos ⟨first ▸ same ▸ nonzero, first.trans same.symm⟩, List.tail_cons, ih rest fun mem => plain (List.mem_cons_of_mem _ mem)]
        exact (and_iff_right same).symm
      · rw [if_neg fun both => same (both.2.symm.trans first)]
        exact iff_of_false (fun diff => same ((byte_eq_of_diff diff).symm.trans first)) fun both => same both.1

theorem strcmp_same (here : StringAt mem a name) (plain : 0 ∉ s) : strcmp mem a s = 0 ↔ name = s := by
  induction s generalizing a name with
  | nil =>
    cases name with
    | nil => exact iff_of_true (by simp [strcmp, show mem a = 0 from here.2.2]) rfl
    | cons d name =>
      obtain ⟨first, nonzero, _⟩ := string_tail here
      refine iff_of_false (fun zero => nonzero ?_) (List.cons_ne_nil _ _)
      rw [strcmp, first] at zero
      exact byte_eq_of_diff (by simpa using zero)
  | cons c s ih =>
    have nonzero : c ≠ 0 := fun zero => plain (zero ▸ List.mem_cons_self)
    rw [strcmp]
    cases name with
    | nil =>
      have ends : mem a = 0 := here.2.2
      rw [if_neg fun both => both.1 ends]
      exact iff_of_false (fun same => nonzero ((byte_eq_of_diff same).symm.trans ends)) (List.cons_ne_nil _ _).symm
    | cons d name =>
      obtain ⟨first, _, rest⟩ := string_tail here
      rw [List.cons.injEq]
      by_cases same : d = c
      · rw [if_pos ⟨first ▸ same ▸ nonzero, first.trans same⟩, ih rest fun mem => plain (List.mem_cons_of_mem _ mem)]
        exact (and_iff_right same).symm
      · rw [if_neg fun both => same (first.symm.trans both.2)]
        exact iff_of_false (fun diff => same (first.symm.trans (byte_eq_of_diff diff))) fun both => same both.1

end
end Ucore.Dtb
