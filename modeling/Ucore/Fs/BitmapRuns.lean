import Ucore.Fs.Sfs.SfsMount
import Ucore.Lib.Transitions

/- Sequences of calls after `bitmap_create`. -/
namespace Ucore
open Transitions

/-- `used` are the indices that were allocated and not freed since; the code does not keep them. -/
structure BitmapUse where
  bitmap : Bitmap
  used : Finset Nat

inductive BitmapCall where
  | alloc
  | free (index : Nat)
  | test (index : Nat)

inductive BitmapStep : BitmapUse → BitmapCall → BitmapUse → Prop
  | alloc {s : BitmapUse} {i : Nat} {b : Bitmap} (done : bitmapAlloc s.bitmap = some (.ok (i, b))) :
      BitmapStep s .alloc ⟨b, insert i s.used⟩
  | full {s : BitmapUse} {ret : Int} (done : bitmapAlloc s.bitmap = some (.error ret)) : BitmapStep s .alloc s
  | free {s : BitmapUse} {i : Nat} {b : Bitmap} (mem : i ∈ s.used) (done : bitmapFree s.bitmap i = some b) :
      BitmapStep s (.free i) ⟨b, s.used.erase i⟩
  | test {s : BitmapUse} {i : Nat} {v : Bool} (done : bitmapTest s.bitmap i = some v) : BitmapStep s (.test i) s

def Bitmap.Free (b : Bitmap) (i : Nat) : Prop := i < b.nwords * 32 ∧ b.bit i = true

/-- The free indices are those that are not used, the least of them is the next to be allocated, and a release frees one. -/
structure BitmapRight (nbits : Nat) (s : BitmapUse) : Prop where
  free_iff : ∀ i, s.bitmap.Free i ↔ i < nbits ∧ i ∉ s.used
  test : ∀ i < nbits, bitmapTest s.bitmap i = some (decide (i ∉ s.used))
  least : (∃ i < nbits, i ∉ s.used) →
    ∃ i b, bitmapAlloc s.bitmap = some (.ok (i, b)) ∧ IsLeast {i | i < nbits ∧ i ∉ s.used} i
  full : (∀ i < nbits, i ∈ s.used) → bitmapAlloc s.bitmap = some (.error (-E_NO_MEM))
  frees : ∀ i ∈ s.used, ∃ b, bitmapFree s.bitmap i = some b ∧ ∀ j, b.Free j ↔ s.bitmap.Free j ∨ j = i

/-- What holds between the calls: the bits above `nbits` are in use as well. -/
structure BitmapInv (nbits : Nat) (s : BitmapUse) : Prop where
  size : s.bitmap.nbits = nbits
  words : nbits ≤ s.bitmap.nwords * 32
  below : ∀ i ∈ s.used, i < nbits
  bits : ∀ i < s.bitmap.nwords * 32, s.bitmap.bit i = true ↔ i < nbits ∧ i ∉ s.used

section
variable {nbits i j start count : Nat} {b : Bitmap} {s t : BitmapUse} {call : BitmapCall} {calls : List BitmapCall}
  {kmalloc : Nat → Bool}

/- The loop of `bitmap_create` flips each bit once. -/
theorem flips_bit (word : BitVec 32) (inside : i < 32) :
    ((List.range' start count).foldl (fun word offset => word ^^^ wordMask offset) word).getLsbD i =
      (word.getLsbD i ^^ decide (start ≤ i ∧ i < start + count)) := by
  induction count generalizing start word with
  | zero =>
    have none_there : ¬ (start ≤ i ∧ i < start + 0) := by omega
    rw [List.range'_zero, List.foldl_nil, decide_eq_false none_there, Bool.xor_false]
  | succ count ih =>
    rw [List.range'_succ, List.foldl_cons, ih, BitVec.getLsbD_xor, word_mask_bit start i inside, Bool.xor_assoc]
    congr 1
    by_cases here : i = start
    · have later : ¬ (start + 1 ≤ i ∧ i < start + 1 + count) := by omega
      have there : start ≤ i ∧ i < start + (count + 1) := by omega
      rw [decide_eq_true here, decide_eq_false later, decide_eq_true there, Bool.xor_false]
    · have same : start + 1 ≤ i ∧ i < start + 1 + count ↔ start ≤ i ∧ i < start + (count + 1) := by omega
      rw [decide_eq_false here, Bool.false_xor, decide_eq_decide]
      exact same

theorem created_bits (created : bitmapCreate nbits kmalloc = some (some b)) :
    b.nbits = nbits ∧ nbits ≤ b.nwords * 32 ∧ ∀ i < b.nwords * 32, b.bit i = true ↔ i < nbits := by
  unfold bitmapCreate at created
  dsimp only at created
  split_ifs at created with none_there lack whole bad
  · cases Option.some.inj created
  · obtain rfl := Option.some.inj (Option.some.inj created)
    refine ⟨rfl, whole.le, fun i inside => iff_of_true ?_ (inside.trans_eq whole.symm)⟩
    unfold Bitmap.bit
    rw [BitVec.getLsbD_allOnes]
    exact decide_eq_true (Nat.mod_lt i (by decide))
  · obtain rfl := Option.some.inj (Option.some.inj created)
    refine ⟨rfl, by dsimp only; omega, fun i inside => ?_⟩
    dsimp only at inside
    have low : i % 32 < 32 := Nat.mod_lt i (by decide)
    unfold Bitmap.bit
    dsimp only
    by_cases last : i / 32 = (nbits + 31) / 32 - 1
    · rw [last, Function.update_self, flips_bit _ low, BitVec.getLsbD_allOnes, decide_eq_true low, Bool.true_xor,
        Bool.not_eq_true', decide_eq_false_iff_not]
      omega
    · rw [Function.update_of_ne last, BitVec.getLsbD_allOnes, decide_eq_true low]
      exact iff_of_true rfl (by omega)

theorem create_asserts (positive : 1 ≤ nbits) : bitmapCreate nbits kmalloc ≠ none := by
  unfold bitmapCreate
  dsimp only
  split_ifs with none_there lack whole bad
  · omega
  · exact Option.some_ne_none _
  · exact Option.some_ne_none _
  · omega
  · exact Option.some_ne_none _

theorem created_inv (created : bitmapCreate nbits kmalloc = some (some b)) : BitmapInv nbits ⟨b, ∅⟩ := by
  obtain ⟨size, words, bits⟩ := created_bits created
  refine ⟨size, words, fun i mem => absurd mem (Finset.notMem_empty i), fun i inside => (bits i inside).trans ?_⟩
  exact (and_iff_left (Finset.notMem_empty i)).symm

theorem BitmapInv.alloc_least (inv : BitmapInv nbits s) (some_free : ∃ i < nbits, i ∉ s.used) :
    ∃ i b, bitmapAlloc s.bitmap = some (.ok (i, b)) ∧ IsLeast {i | i < nbits ∧ i ∉ s.used} i ∧
      BitmapInv nbits ⟨b, insert i s.used⟩ := by
  have words := inv.words
  obtain ⟨k, inside, out⟩ := some_free
  obtain ⟨i, b, done, low, free, first, size, more, bits⟩ :=
    bitmap_alloc_lowest ⟨k, by omega, (inv.bits k (by omega)).mpr ⟨inside, out⟩⟩
  obtain ⟨below, fresh⟩ := (inv.bits i low).mp free
  refine ⟨i, b, done, ⟨⟨below, fresh⟩, fun j ⟨lowJ, outJ⟩ => ?_⟩, size.trans inv.size, ?_, fun j mem => ?_, fun j lowJ => ?_⟩
  · by_contra less
    have taken := first j (Nat.lt_of_not_le less)
    rw [(inv.bits j (by omega)).mpr ⟨lowJ, outJ⟩] at taken
    cases taken
  · dsimp only
    rw [more]
    exact words
  · rcases Finset.mem_insert.mp mem with rfl | old
    · exact below
    · exact inv.below j old
  · dsimp only at lowJ ⊢
    rw [more] at lowJ
    rw [bits, Finset.mem_insert, not_or]
    split_ifs with here
    · exact iff_of_false (by simp) fun both => both.2.1 here
    · rw [inv.bits j lowJ]
      exact and_congr_right fun _ => (and_iff_right here).symm

theorem BitmapInv.alloc_full (inv : BitmapInv nbits s) (full : ∀ i < nbits, i ∈ s.used) :
    bitmapAlloc s.bitmap = some (.error (-E_NO_MEM)) := by
  apply bitmap_alloc_full
  intro i inside
  by_contra free
  obtain ⟨low, out⟩ := (inv.bits i inside).mp (Bool.eq_true_of_not_eq_false free)
  exact out (full i low)

theorem BitmapInv.free_one (inv : BitmapInv nbits s) (mem : i ∈ s.used) : ∃ b, bitmapFree s.bitmap i = some b ∧
    (∀ j, b.Free j ↔ s.bitmap.Free j ∨ j = i) ∧ BitmapInv nbits ⟨b, s.used.erase i⟩ := by
  have low := inv.below i mem
  have words := inv.words
  have taken : s.bitmap.bit i = false := by
    by_contra free
    exact ((inv.bits i (by omega)).mp (Bool.eq_true_of_not_eq_false free)).2 mem
  obtain ⟨b, done, size, more, bits⟩ := bitmap_free_used (low.trans_eq inv.size.symm) taken
  refine ⟨b, done, fun j => ?_, size.trans inv.size, ?_, fun j there => inv.below j (Finset.mem_of_mem_erase there),
    fun j lowJ => ?_⟩
  · unfold Bitmap.Free
    rw [more, bits]
    split_ifs with here
    · exact iff_of_true ⟨by omega, rfl⟩ (.inr here)
    · exact (or_iff_left here).symm
  · dsimp only
    rw [more]
    exact words
  · dsimp only at lowJ ⊢
    rw [more] at lowJ
    rw [bits, Finset.mem_erase, not_and']
    split_ifs with here
    · exact iff_of_true rfl ⟨here ▸ low, fun _ other => other here⟩
    · rw [inv.bits j lowJ]
      exact and_congr_right fun _ => ⟨fun out there => absurd there out, fun out there => out there here⟩

theorem bitmap_step_inv (inv : BitmapInv nbits s) (step : BitmapStep s call t) : BitmapInv nbits t := by
  cases step with
  | @alloc i b done =>
    by_cases some_free : ∃ i < nbits, i ∉ s.used
    · obtain ⟨i', b', done', _, inv'⟩ := inv.alloc_least some_free
      rw [done] at done'
      obtain ⟨rfl, rfl⟩ := Prod.mk.inj (Except.ok.inj (Option.some.inj done'))
      exact inv'
    · push Not at some_free
      rw [inv.alloc_full some_free] at done
      cases done
  | full done => exact inv
  | @free i b mem done =>
    obtain ⟨b', done', _, inv'⟩ := inv.free_one mem
    rw [done] at done'
    obtain rfl := Option.some.inj done'
    exact inv'
  | test done => exact inv

theorem BitmapInv.right (inv : BitmapInv nbits s) : BitmapRight nbits s := by
  have words := inv.words
  refine ⟨fun i => ?_, fun i low => ?_, fun some_free => ?_, inv.alloc_full, fun i mem => ?_⟩
  · exact ⟨fun ⟨inside, free⟩ => (inv.bits i inside).mp free, fun out => ⟨by omega, (inv.bits i (by omega)).mpr out⟩⟩
  · rw [bitmap_test_bit (low.trans_eq inv.size.symm)]
    congr 1
    exact Bool.eq_iff_iff.mpr ((inv.bits i (by omega)).trans ((and_iff_right low).trans decide_eq_true_iff.symm))
  · obtain ⟨i, b, done, least, _⟩ := inv.alloc_least some_free
    exact ⟨i, b, done, least⟩
  · obtain ⟨b, done, one, _⟩ := inv.free_one mem
    exact ⟨b, done, one⟩

theorem bitmap_allocates_right (positive : 1 ≤ nbits) : bitmapCreate nbits kmalloc ≠ none ∧
    ∀ b calls s, bitmapCreate nbits kmalloc = some (some b) → Run BitmapStep ⟨b, ∅⟩ calls s → BitmapRight nbits s := by
  refine ⟨create_asserts positive, fun b calls s created run => ?_⟩
  have keep : ∀ s c t, BitmapInv nbits s → BitmapStep s c t → BitmapInv nbits t := fun _ _ _ => bitmap_step_inv
  exact (run_invariant keep run (created_inv created)).right

end

/- Of 33 indices the first is allocated, freed and allocated again. -/
theorem first_index_again : ∃ b calls s, bitmapCreate 33 (fun _ => true) = some (some b) ∧
    Run BitmapStep ⟨b, ∅⟩ calls s ∧ calls.length = 3 ∧ BitmapRight 33 s := by
  obtain ⟨b, created⟩ : ∃ b, bitmapCreate 33 (fun _ => true) = some (some b) := ⟨_, rfl⟩
  have start := created_inv created
  obtain ⟨i, b₁, done₁, _, inv₁⟩ := start.alloc_least ⟨0, by decide, Finset.notMem_empty 0⟩
  have mem : i ∈ insert i (∅ : Finset Nat) := Finset.mem_insert_self i ∅
  obtain ⟨b₂, done₂, _, inv₂⟩ := inv₁.free_one mem
  have empty : (insert i (∅ : Finset Nat)).erase i = ∅ := Finset.erase_insert (Finset.notMem_empty i)
  obtain ⟨j, b₃, done₃, _⟩ := inv₂.alloc_least ⟨0, by decide, by rw [empty]; exact Finset.notMem_empty 0⟩
  have run := Run.call (BitmapStep.alloc done₁) (.call (.free mem done₂) (.call (.alloc done₃) (.stop _)))
  exact ⟨b, _, _, created, run, rfl, (bitmap_allocates_right (by decide)).2 b _ _ created run⟩

end Ucore
