import Ucore.Libs.Error
import Mathlib

/- lab8/kern/fs/sfs/bitmap.c: a set bit is a free index. -/
namespace Ucore

structure Bitmap where
  nbits : Nat
  nwords : Nat
  map : Nat → BitVec 32

/-- The mask `1 << offset` of a bit. -/
def wordMask (offset : Nat) : BitVec 32 := 1#32 <<< offset

/- `none` is the `assert(0)` behind the inner loop. -/
def bitmapAlloc (b : Bitmap) : Option (Except Int (Nat × Bitmap)) :=
  match (List.range b.nwords).find? fun ix => b.map ix ≠ 0 with
  | none => some (.error (-E_NO_MEM))
  | some ix =>
      match (List.range 32).find? fun offset => b.map ix &&& wordMask offset ≠ 0 with
      | none => none
      | some offset =>
          some (.ok (ix * 32 + offset,
            { b with map := Function.update b.map ix (b.map ix ^^^ wordMask offset) }))

/- `none` is a failed assertion. -/
def bitmapTest (b : Bitmap) (index : Nat) : Option Bool :=
  if index < b.nbits then some (b.map (index / 32) &&& wordMask (index % 32) ≠ 0) else none

def bitmapFree (b : Bitmap) (index : Nat) : Option Bitmap :=
  if index < b.nbits ∧ b.map (index / 32) &&& wordMask (index % 32) = 0 then
    some { b with
      map := Function.update b.map (index / 32) (b.map (index / 32) ||| wordMask (index % 32)) }
  else none

def Bitmap.bit (b : Bitmap) (i : Nat) : Bool := (b.map (i / 32)).getLsbD (i % 32)

def Bitmap.freeCount (b : Bitmap) : Nat := ((List.range (b.nwords * 32)).filter b.bit).length

section
variable {b : Bitmap} {i j : Nat}

theorem word_mask_bit (offset i : Nat) (inside : i < 32) :
    (wordMask offset).getLsbD i = decide (i = offset) := by
  unfold wordMask
  rw [BitVec.getLsbD_shiftLeft, BitVec.getLsbD_one]
  simp only [inside, decide_true, Bool.and_eq_decide]
  by_cases same : i = offset
  · simp [same]
  · by_cases low : i < offset
    · simp [low, same]
    · have : i - offset ≠ 0 := by omega
      simp [low, same, this]

theorem masked_iff (word : BitVec 32) {offset : Nat} (inside : offset < 32) :
    word &&& wordMask offset ≠ 0 ↔ word.getLsbD offset = true := by
  constructor
  · intro nonzero
    by_contra clear
    apply nonzero
    apply BitVec.eq_of_getLsbD_eq
    intro i low
    rw [BitVec.getLsbD_and, word_mask_bit offset i low]
    by_cases same : i = offset
    · subst i
      simpa using clear
    · simp [same]
  · intro set zero
    have := congrArg (fun w => BitVec.getLsbD w offset) zero
    simp [BitVec.getLsbD_and, word_mask_bit offset offset inside, set] at this

theorem bitmap_test_bit (inside : i < b.nbits) : bitmapTest b i = some (b.bit i) := by
  unfold bitmapTest Bitmap.bit
  rw [if_pos inside]
  have := masked_iff (b.map (i / 32)) (Nat.mod_lt i (show 0 < 32 by decide))
  cases set : (b.map (i / 32)).getLsbD (i % 32)
  · simp [set] at this
    simp [this]
  · simp [set] at this
    simp [this]

theorem word_nonzero_iff (word : BitVec 32) : word ≠ 0 ↔ ∃ offset < 32, word.getLsbD offset = true := by
  constructor
  · intro nonzero
    by_contra clear
    apply nonzero
    apply BitVec.eq_of_getLsbD_eq
    intro i low
    simp only [not_exists, not_and, Bool.not_eq_true] at clear
    simp [clear i low]
  · intro ⟨offset, _, set⟩ zero
    simp [zero] at set

theorem no_word_set (full : ∀ i < b.nwords * 32, b.bit i = false) {ix : Nat} (inside : ix < b.nwords) :
    b.map ix = 0 := by
  by_contra nonzero
  obtain ⟨offset, low, set⟩ := (word_nonzero_iff _).mp nonzero
  have clear := full (ix * 32 + offset) (by omega)
  unfold Bitmap.bit at clear
  rw [show (ix * 32 + offset) / 32 = ix by omega, show (ix * 32 + offset) % 32 = offset by omega,
    set] at clear
  cases clear

theorem bitmap_alloc_full (full : ∀ i < b.nwords * 32, b.bit i = false) :
    bitmapAlloc b = some (.error (-E_NO_MEM)) := by
  have none_found : (List.range b.nwords).find? (fun ix => b.map ix ≠ 0) = none := by
    rw [List.find?_range_eq_none]
    intro ix inside
    simp [no_word_set full inside]
  unfold bitmapAlloc
  rw [none_found]

theorem flipped_bit {ix offset : Nat} (inside : offset < 32)
    (set : (b.map ix).getLsbD offset = true) (j : Nat) :
    Bitmap.bit { b with map := Function.update b.map ix (b.map ix ^^^ wordMask offset) } j =
      if j = ix * 32 + offset then false else b.bit j := by
  unfold Bitmap.bit
  by_cases word : j / 32 = ix
  · have low : j % 32 < 32 := Nat.mod_lt j (by decide)
    simp only [word, Function.update_self, BitVec.getLsbD_xor, word_mask_bit offset _ low]
    by_cases same : j = ix * 32 + offset
    · rw [if_pos same, show j % 32 = offset by omega, set]
      simp
    · have : j % 32 ≠ offset := by omega
      simp [same, this]
  · have : j ≠ ix * 32 + offset := by omega
    simp [Function.update_of_ne word, this]

/-- The allocator takes the lowest free index. -/
theorem bitmap_alloc_lowest (some_free : ∃ i < b.nwords * 32, b.bit i = true) :
    ∃ i b', bitmapAlloc b = some (.ok (i, b')) ∧ i < b.nwords * 32 ∧ b.bit i = true ∧
      (∀ j < i, b.bit j = false) ∧ b'.nbits = b.nbits ∧ b'.nwords = b.nwords ∧
      ∀ j, b'.bit j = if j = i then false else b.bit j := by
  obtain ⟨ix, found⟩ : ∃ ix, (List.range b.nwords).find? (fun ix => b.map ix ≠ 0) = some ix := by
    obtain ⟨i, inside, free⟩ := some_free
    rw [← Option.isSome_iff_exists, List.find?_isSome]
    refine ⟨i / 32, List.mem_range.mpr (by omega), ?_⟩
    simp only [decide_eq_true_eq]
    exact (word_nonzero_iff _).mpr ⟨i % 32, Nat.mod_lt i (by decide), free⟩
  obtain ⟨nonzero, inside, lower⟩ := List.find?_range_eq_some.mp found
  simp only [decide_eq_true_eq, List.mem_range, Bool.not_eq_true', decide_eq_false_iff_not,
    not_not] at nonzero inside lower
  obtain ⟨offset, taken⟩ : ∃ offset, (List.range 32).find?
      (fun offset => b.map ix &&& wordMask offset ≠ 0) = some offset := by
    obtain ⟨offset, low, set⟩ := (word_nonzero_iff _).mp nonzero
    rw [← Option.isSome_iff_exists, List.find?_isSome]
    refine ⟨offset, List.mem_range.mpr low, ?_⟩
    simp only [decide_eq_true_eq]
    exact (masked_iff _ low).mpr set
  obtain ⟨masked, low, earlier⟩ := List.find?_range_eq_some.mp taken
  simp only [decide_eq_true_eq, List.mem_range, Bool.not_eq_true', decide_eq_false_iff_not,
    not_not] at masked low earlier
  have set := (masked_iff _ low).mp masked
  refine ⟨ix * 32 + offset,
    { b with map := Function.update b.map ix (b.map ix ^^^ wordMask offset) },
    ?_, by omega, ?_, ?_, rfl, rfl, flipped_bit low set⟩
  · unfold bitmapAlloc
    rw [found]
    simp only
    rw [taken]
  · unfold Bitmap.bit
    rwa [show (ix * 32 + offset) / 32 = ix by omega, show (ix * 32 + offset) % 32 = offset by omega]
  · intro j before
    unfold Bitmap.bit
    by_cases word : j / 32 = ix
    · by_contra setJ
      rw [word] at setJ
      have nonzeroJ := (masked_iff (b.map ix) (Nat.mod_lt j (show 0 < 32 by decide))).mpr (by simpa using setJ)
      exact nonzeroJ (earlier (j % 32) (by omega))
    · simp [lower (j / 32) (by omega)]

theorem free_count_take {b' : Bitmap} (inside : i < b.nwords * 32) (free : b.bit i = true)
    (words : b'.nwords = b.nwords) (bits : ∀ j, b'.bit j = if j = i then false else b.bit j) :
    b'.freeCount + 1 = b.freeCount := by
  unfold Bitmap.freeCount
  rw [words]
  have mem : i ∈ (List.range (b.nwords * 32)).filter b.bit := by simp [inside, free]
  have nodup : ((List.range (b.nwords * 32)).filter b.bit).Nodup := List.nodup_range.filter _
  have erased : (List.range (b.nwords * 32)).filter b'.bit =
      ((List.range (b.nwords * 32)).filter b.bit).erase i := by
    rw [nodup.erase_eq_filter, List.filter_filter]
    apply List.filter_congr
    intro j _
    rw [bits j]
    by_cases same : j = i
    · simp [same]
    · simp [same]
  rw [erased, List.length_erase_of_mem mem]
  have := List.length_pos_of_mem mem
  omega

theorem free_count_zero (empty : b.freeCount = 0) : ∀ i < b.nwords * 32, b.bit i = false := by
  intro i inside
  unfold Bitmap.freeCount at empty
  rw [List.length_eq_zero_iff, List.filter_eq_nil_iff] at empty
  simpa using empty i (List.mem_range.mpr inside)

/-- Freeing an index that is in use sets its bit. -/
theorem bitmap_free_used (inside : i < b.nbits) (used : b.bit i = false) :
    ∃ b', bitmapFree b i = some b' ∧ b'.nbits = b.nbits ∧ b'.nwords = b.nwords ∧
      ∀ j, b'.bit j = if j = i then true else b.bit j := by
  have low : i % 32 < 32 := Nat.mod_lt i (by decide)
  have clear : b.map (i / 32) &&& wordMask (i % 32) = 0 := by
    by_contra nonzero
    have set := (masked_iff _ low).mp nonzero
    unfold Bitmap.bit at used
    rw [used] at set
    cases set
  refine ⟨_, if_pos ⟨inside, clear⟩, rfl, rfl, ?_⟩
  intro j
  unfold Bitmap.bit
  by_cases word : j / 32 = i / 32
  · have lowJ : j % 32 < 32 := Nat.mod_lt j (by decide)
    simp only [word, Function.update_self, BitVec.getLsbD_or, word_mask_bit _ _ lowJ]
    by_cases same : j = i
    · simp [same]
    · have : j % 32 ≠ i % 32 := by omega
      simp [same, this]
  · have : j ≠ i := by
      intro same
      exact word (by rw [same])
    simp [Function.update_of_ne word, this]

theorem free_count_pos (some_free : 0 < b.freeCount) : ∃ i < b.nwords * 32, b.bit i = true := by
  obtain ⟨i, mem⟩ := List.exists_mem_of_length_pos some_free
  simp only [List.mem_filter, List.mem_range] at mem
  exact ⟨i, mem⟩

end

end Ucore
