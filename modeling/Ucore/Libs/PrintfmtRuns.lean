import Ucore.Libs.Printfmt

/- Formatting ends, and does not depend on where the characters go. -/
namespace Ucore.Printfmt
open Words

/- The conversions of a format, each with the argument that it takes. -/
def conversions (fmt : List Char) (args : Args) : Nat → Nat → Nat → List (Char × Slot)
  | 0, _, _ => []
  | fuel + 1, i, arg =>
      match charAt fmt i with
      | none => []
      | some ch =>
          if ch = '\x00' then []
          else if ch ≠ '%' then conversions fmt args fuel (i + 1) arg
          else
            match reswitch fmt args (fmt.length + 1) (i + 1) {} arg with
            | none => []
            | some c => (c.ch, args c.arg) :: (resume fmt c).elim [] fun i => conversions fmt args fuel i c.rest

section
variable {σ τ : Type} {put : Char → σ → σ} {put' : Char → τ → τ} {h : σ → τ} {fmt : List Char} {args : Args}
  {fuel i arg n base num : Nat} {width precision : Int} {ch padc : Char} {f : Flags} {a : Slot} {s : σ} {p : List Char}
  {nested : List Char → Args → σ → Option σ} {nested' : List Char → Args → τ → Option τ}

/- What is put does not depend on the state that it is put into. -/
section
variable (hom : ∀ ch s, h (put ch s) = put' ch (h s))
include hom

theorem put_many_hom : h (putMany put ch n s) = putMany put' ch n (h s) := by
  induction n generalizing s with
  | zero => rfl
  | succ n ih => rw [putMany, putMany, ih, hom]

theorem printnum_hom : (printnum put base padc fuel num width s).map h = printnum put' base padc fuel num width (h s) := by
  induction fuel generalizing num width with
  | zero => rfl
  | succ fuel ih =>
    unfold printnum
    split_ifs with large
    · rw [← ih]
      cases printnum put base padc fuel (num / base) (i32 (width - 1)) s with
      | none => rfl
      | some t => exact congrArg some (hom _ t)
    · simp only [Option.bind_eq_bind, Option.bind_some, Option.map_some, hom, put_many_hom hom]

theorem put_string_hom {altflag : Bool} : putString put' altflag p precision width (h s) =
    ((putString put altflag p precision width s).1, h (putString put altflag p precision width s).2) := by
  induction p generalizing precision width s with
  | nil => rfl
  | cons ch p ih =>
    unfold putString
    by_cases more : precision < 0 ∨ precision - 1 ≥ 0
    · have first : h (if altflag ∧ (ch < ' ' ∨ '~' < ch) then put '?' s else put ch s) =
          if altflag ∧ (ch < ' ' ∨ '~' < ch) then put' '?' (h s) else put' ch (h s) := by
        split_ifs
        · exact hom '?' s
        · exact hom ch s
      rw [if_pos more, if_pos more]
      dsimp only
      rw [← first]
      exact ih
    · rw [if_neg more, if_neg more]

theorem convert_string_hom : h (convertString put a f s) = convertString put' a f (h s) := by
  have pads : ∀ n s, putMany put' f.padc n (h s) = h (putMany put f.padc n s) := fun n s => (put_many_hom hom).symm
  unfold convertString
  dsimp only
  by_cases padded : f.width > 0 ∧ f.padc ≠ '-'
  · rw [if_pos padded, if_pos padded]
    dsimp only
    rw [put_many_hom hom, pads, put_string_hom hom]
  · rw [if_neg padded, if_neg padded]
    dsimp only
    rw [put_many_hom hom, put_string_hom hom]

theorem number_hom (num : BitVec 64) : (number put num base f s).map h = number put' num base f (h s) := printnum_hom hom

theorem convert_signed_hom : (convertSigned put a f s).map h = convertSigned put' a f (h s) := by
  unfold convertSigned
  dsimp only
  split_ifs with negative
  · rw [number_hom hom, hom]
  · exact number_hom hom _

theorem convert_hom (nest : ∀ fmt args s, (nested fmt args s).map h = nested' fmt args (h s)) :
    (convert put nested ch f a s).map h = convert put' nested' ch f a (h s) := by
  have error : (convertError nested a s).map h = convertError nested' a (h s) := by
    unfold convertError
    dsimp only
    generalize (if a.int < 0 then i32 (-a.int) else a.int) = err
    split_ifs with high low
    · exact nest _ _ s
    · rfl
    · cases errorString err.toNat with
      | none => exact nest _ _ s
      | some text => exact nest _ _ s
  unfold convert
  split_ifs
  · exact congrArg some (hom _ s)
  · exact error
  · exact congrArg some (convert_string_hom hom)
  · exact convert_signed_hom hom
  · exact number_hom hom _
  · exact number_hom hom _
  · rw [number_hom hom, hom, hom]
  · exact number_hom hom _
  · exact congrArg some (hom _ s)

theorem format_loop_hom (nest : ∀ fmt args s, (nested fmt args s).map h = nested' fmt args (h s)) :
    (formatLoop put nested fmt args fuel i arg s).map h = formatLoop put' nested' fmt args fuel i arg (h s) := by
  induction fuel generalizing i arg s with
  | zero => rfl
  | succ fuel ih =>
    unfold formatLoop
    cases charAt fmt i with
    | none => rfl
    | some ch =>
      simp only [Option.bind_eq_bind, Option.bind_some]
      split_ifs with ends plain
      · rfl
      · rw [ih, hom]
      · cases reswitch fmt args (fmt.length + 1) (i + 1) {} arg with
        | none => rfl
        | some c =>
          simp only [Option.bind_some]
          rw [← convert_hom hom nest]
          cases convert put nested c.ch c.flags (args c.arg) s with
          | none => rfl
          | some t =>
            cases resume fmt c with
            | none => rfl
            | some j => exact ih

theorem vprintfmt_deep_hom {depth : Nat} :
    (vprintfmtDeep put depth fmt args s).map h = vprintfmtDeep put' depth fmt args (h s) := by
  induction depth generalizing fmt args s with
  | zero => rfl
  | succ depth ih => exact format_loop_hom hom fun fmt args s => ih

end

/- The characters of the text are put one after the other. -/
theorem vprintfmt_text : vprintfmt put fmt args s = (text fmt args).map fun t => t.foldl (fun s ch => put ch s) s := by
  have hom : ∀ (ch : Char) (t : List Char), (putText ch t).foldl (fun s ch => put ch s) s =
      put ch (t.foldl (fun s ch => put ch s) s) := by
    intro ch t
    rw [putText, List.foldl_append]
    rfl
  exact (@vprintfmt_deep_hom _ _ _ _ (fun t : List Char => t.foldl (fun s ch => put ch s) s) fmt args [] hom 2).symm

theorem char_inside (inside : i ≤ fmt.length) : charAt fmt i = some (fmt.getD i '\x00') := if_pos inside

theorem char_before (here : charAt fmt i = some ch) (more : ch ≠ '\x00') : i < fmt.length := by
  unfold charAt at here
  split_ifs at here with inside
  by_contra beyond
  rw [List.getD_eq_default _ _ (Nat.le_of_not_lt beyond)] at here
  exact more (Option.some.inj here).symm

theorem width_field_ends (inside : i ≤ fmt.length) (enough : fmt.length < fuel + i) :
    ∃ width k, widthField fmt fuel i ch precision = some (width, k) ∧ i ≤ k ∧ k ≤ fmt.length := by
  induction fuel generalizing i ch precision with
  | zero => omega
  | succ fuel ih =>
    have here := char_inside inside
    unfold widthField
    rw [here]
    simp only [Option.bind_eq_bind, Option.bind_some]
    split_ifs with last
    · exact ⟨_, i, rfl, Nat.le_refl i, inside⟩
    · have digit : fmt.getD i '\x00' ≠ '\x00' := by
        intro nul
        rw [nul] at last
        exact last (.inl (by decide))
      have before := char_before here digit
      obtain ⟨width, k, done, above, below⟩ := ih (show i + 1 ≤ fmt.length by omega) (by omega)
      exact ⟨width, k, done, by omega, below⟩

/- The flags end, before the end of the format or at its NUL. -/
theorem reswitch_ends (inside : i ≤ fmt.length) (enough : fmt.length < fuel + i) :
    ∃ c, reswitch fmt args fuel i f arg = some c ∧ i < c.next ∧ c.next ≤ fmt.length + 1 ∧
      (c.ch ≠ '\x00' → c.next ≤ fmt.length) := by
  induction fuel generalizing i f arg with
  | zero => omega
  | succ fuel ih =>
    have here := char_inside inside
    have flag : ∀ f arg, fmt.getD i '\x00' ≠ '\x00' → ∃ c, reswitch fmt args fuel (i + 1) f arg = some c ∧ i < c.next ∧
        c.next ≤ fmt.length + 1 ∧ (c.ch ≠ '\x00' → c.next ≤ fmt.length) := by
      intro f arg more
      have before := char_before here more
      obtain ⟨c, done, above, rest⟩ := @ih (i + 1) arg f (by omega) (by omega)
      exact ⟨c, done, by omega, rest⟩
    unfold reswitch
    rw [here]
    simp only [Option.bind_eq_bind, Option.bind_some]
    split_ifs with right zero digit star point unset sharp long
    · exact flag _ _ (right ▸ by decide)
    · exact flag _ _ (zero ▸ by decide)
    · have more : fmt.getD i '\x00' ≠ '\x00' := by
        intro nul
        rw [nul] at digit
        exact absurd digit.1 (by decide)
      have before := char_before here more
      obtain ⟨width, k, done, above, below⟩ := @width_field_ends fmt (fmt.length + 1) (i + 1) 0 (fmt.getD i '\x00')
        (by omega) (by omega)
      obtain ⟨c, rest, next, bounds⟩ := @ih k arg (processPrecision f width) below (by omega)
      rw [done]
      exact ⟨c, rest, by omega, bounds⟩
    · exact flag _ _ (star ▸ by decide)
    · exact flag _ _ (point ▸ by decide)
    · exact flag _ _ (point ▸ by decide)
    · exact flag _ _ (sharp ▸ by decide)
    · exact flag _ _ (long ▸ by decide)
    · exact ⟨_, rfl, Nat.lt_succ_self i, Nat.succ_le_succ inside, fun more => char_before here more⟩

theorem scan_back_ends {k : Nat} (there : charAt fmt k = some '%') (below : k < n) (inside : n ≤ fmt.length + 1) :
    ∃ m, scanBack fmt n = some m ∧ k < m ∧ m ≤ n := by
  induction n with
  | zero => omega
  | succ n ih =>
    unfold scanBack
    rw [char_inside (show n ≤ fmt.length by omega)]
    simp only [Option.bind_eq_bind, Option.bind_some]
    split_ifs with found
    · exact ⟨n + 1, rfl, below, Nat.le_refl _⟩
    · have other : k ≠ n := by
        rintro rfl
        rw [char_inside (show k ≤ fmt.length by omega)] at there
        exact found (Option.some.inj there)
      obtain ⟨m, done, above, least⟩ := ih (by omega) (by omega)
      exact ⟨m, done, above, by omega⟩

/- After a conversion the format goes on behind its `%`. -/
theorem resume_ends {c : Conversion} (there : charAt fmt i = some '%') (above : i + 1 < c.next) (inside : c.next ≤ fmt.length + 1)
    (before : c.ch ≠ '\x00' → c.next ≤ fmt.length) : ∃ j, resume fmt c = some j ∧ i < j ∧ j ≤ fmt.length := by
  unfold resume
  split_ifs with known
  · have more : c.ch ≠ '\x00' := by
      intro nul
      rw [nul] at known
      exact absurd known (by decide)
    exact ⟨c.next, rfl, by omega, before more⟩
  · obtain ⟨m, done, below, least⟩ := scan_back_ends there (show i < c.next - 1 by omega) (by omega)
    exact ⟨m, done, below, by omega⟩

theorem printnum_ends (two : 2 ≤ base) (fits : num < base ^ (fuel + 1)) :
    ∃ t, printnum put base padc (fuel + 1) num width s = some t := by
  induction fuel generalizing num width with
  | zero =>
    have small : num < base := by simpa using fits
    rw [printnum, if_neg (by omega)]
    exact ⟨_, rfl⟩
  | succ fuel ih =>
    rw [printnum]
    split_ifs with large
    · have rest : num / base < base ^ (fuel + 1) := by
        rw [Nat.div_lt_iff_lt_mul (by omega)]
        exact fits
      obtain ⟨t, done⟩ := @ih (num / base) (i32 (width - 1)) rest
      rw [done]
      exact ⟨_, rfl⟩
    · exact ⟨_, rfl⟩

theorem number_ends (num : BitVec 64) (two : 2 ≤ base) : ∃ t, number put num base f s = some t := by
  have more : 2 ^ (64 + 1) ≤ base ^ (64 + 1) := Nat.pow_le_pow_left two (64 + 1)
  exact printnum_ends two (by omega)

/- Only a `%e` may fail. -/
theorem convert_ends_iff {Good : Slot → Prop} (errors : ∀ a s, (∃ t, convertError nested a s = some t) ↔ Good a) :
    (∃ t, convert put nested ch f a s = some t) ↔ (ch = 'e' → Good a) := by
  unfold convert
  split_ifs with c e string d u o p x
  · exact iff_of_true ⟨_, rfl⟩ fun error => absurd (c.symm.trans error) (by decide)
  · exact (errors a s).trans ⟨fun good _ => good, fun good => good e⟩
  · exact iff_of_true ⟨_, rfl⟩ fun error => absurd error e
  · refine iff_of_true ?_ fun error => absurd error e
    unfold convertSigned
    dsimp only
    split_ifs with negative
    · exact number_ends _ (by decide)
    · exact number_ends _ (by decide)
  · exact iff_of_true (number_ends _ (by decide)) fun error => absurd error e
  · exact iff_of_true (number_ends _ (by decide)) fun error => absurd error e
  · exact iff_of_true (number_ends _ (by decide)) fun error => absurd error e
  · exact iff_of_true (number_ends _ (by decide)) fun error => absurd error e
  · exact iff_of_true ⟨_, rfl⟩ fun error => absurd error e

theorem format_loop_ends_iff {Good : Slot → Prop} (errors : ∀ a s, (∃ t, convertError nested a s = some t) ↔ Good a)
    (inside : i ≤ fmt.length) (enough : fmt.length < fuel + i) :
    (∃ t, formatLoop put nested fmt args fuel i arg s = some t) ↔
      ∀ c ∈ conversions fmt args fuel i arg, c.1 = 'e' → Good c.2 := by
  induction fuel generalizing i arg s with
  | zero => omega
  | succ fuel ih =>
    have here := char_inside inside
    unfold formatLoop conversions
    rw [here]
    simp only [Option.bind_eq_bind, Option.bind_some]
    split_ifs with ends plain
    · exact iff_of_true ⟨s, rfl⟩ fun c mem => absurd mem List.not_mem_nil
    · have before := char_before here ends
      exact ih (by omega) (by omega)
    · have percent : charAt fmt i = some '%' := here.trans (congrArg some (not_ne_iff.mp plain))
      have before := char_before here ends
      obtain ⟨c, flags, above, below, last⟩ := @reswitch_ends fmt args (fmt.length + 1) (i + 1) arg {} (by omega) (by omega)
      obtain ⟨j, resumed, later, within⟩ := resume_ends percent above below last
      have one := @convert_ends_iff _ put c.ch c.flags (args c.arg) s nested Good errors
      rw [flags]
      simp only [Option.bind_some, resumed, Option.elim_some, List.forall_mem_cons]
      rw [← one]
      constructor
      · rintro ⟨t, whole⟩
        obtain ⟨t', converted, rest⟩ := Option.bind_eq_some_iff.mp whole
        exact ⟨⟨t', converted⟩, (ih within (by omega)).mp ⟨t, rest⟩⟩
      · rintro ⟨⟨t', converted⟩, rest⟩
        obtain ⟨t, done⟩ := (@ih j c.rest t' within (by omega)).mpr rest
        exact ⟨t, by rw [converted]; exact done⟩

theorem no_error_nested (a : Slot) (s : σ) : (∃ t, convertError (fun _ _ _ => none) a s = some t) ↔ False := by
  have stuck : convertError (fun _ _ (_ : σ) => none) a s = none := by
    unfold convertError
    dsimp only
    generalize (if a.int < 0 then i32 (-a.int) else a.int) = err
    split_ifs with high low
    · rfl
    · rfl
    · cases errorString err.toNat with
      | none => rfl
      | some p => rfl
  rw [stuck]
  exact iff_of_false (fun ⟨t, done⟩ => by cases done) id

/- The two formats for the texts of errors have no `%e` themselves. -/
theorem error_formats_end (a : Slot) (s : σ) : (∃ t, vprintfmtDeep put 1 "error %d".toList (fun _ => a) s = some t) ∧
    ∃ t, vprintfmtDeep put 1 "%s".toList (fun _ => a) s = some t := by
  have number : conversions "error %d".toList (fun _ => a) ("error %d".toList.length + 1) 0 0 = [('d', a)] := rfl
  have string : conversions "%s".toList (fun _ => a) ("%s".toList.length + 1) 0 0 = [('s', a)] := rfl
  constructor
  · apply (format_loop_ends_iff no_error_nested (Nat.zero_le _) (by omega)).mpr
    rw [number]
    simp
  · apply (format_loop_ends_iff no_error_nested (Nat.zero_le _) (by omega)).mpr
    rw [string]
    simp

theorem slot_int_range (a : Slot) : -2147483648 ≤ a.int ∧ a.int < 2147483648 :=
  ⟨@BitVec.le_toInt 32 (a.word.setWidth 32), @BitVec.toInt_lt 32 (a.word.setWidth 32)⟩

/- The least `int` stays negative, and `error_string` is read in front of its beginning. -/
theorem convert_error_ends_iff (a : Slot) (s : σ) :
    (∃ t, convertError (vprintfmtDeep put 1) a s = some t) ↔ a.int ≠ -2147483648 := by
  obtain ⟨lowest, highest⟩ := slot_int_range a
  unfold convertError
  dsimp only
  by_cases least : a.int = -2147483648
  · have stays : (if a.int < 0 then i32 (-a.int) else a.int) = -2147483648 := by
      rw [least]
      decide
    rw [stays, if_neg (by decide), if_pos (by decide)]
    exact iff_of_false (fun ⟨t, done⟩ => by cases done) (not_not_intro least)
  refine iff_of_true ?_ least
  have positive : ¬ (if a.int < 0 then i32 (-a.int) else a.int) < 0 := by
    split_ifs with negative
    · rw [i32_exact (by omega) (by omega)]
      omega
    · exact negative
  generalize (if a.int < 0 then i32 (-a.int) else a.int) = err at positive ⊢
  rw [if_neg positive]
  split_ifs with high
  · exact (error_formats_end _ s).1
  · cases errorString err.toNat with
    | none => exact (error_formats_end _ s).1
    | some p => exact (error_formats_end _ s).2

theorem vprintfmt_ends_iff : (∃ t, vprintfmt put fmt args s = some t) ↔
    ∀ c ∈ conversions fmt args (fmt.length + 1) 0 0, c.1 = 'e' → c.2.int ≠ -2147483648 :=
  format_loop_ends_iff convert_error_ends_iff (Nat.zero_le _) (by omega)

end

/-- The result, the buffer and the memory around it, for every size. -/
def BoundedRight (fmt : List Char) (args : Args) : Prop :=
  ∃ t, text fmt args = some t ∧ ∀ mem str size, 0 < str → 1 ≤ size → str + size ≤ 18446744073709551616 →
    ∃ mem', vsnprintf mem str size fmt args = some ((t.length : Int), mem') ∧
      (∀ addr, addr < str ∨ str + size ≤ addr → mem' addr = mem addr) ∧
      (∀ i, i < min t.length (size - 1) → mem' (str + i) = t.getD i '\x00') ∧
      mem' (str + min t.length (size - 1)) = '\x00'

section
variable {fmt : List Char} {args : Args} {t : List Char} {b : Sprintbuf} {mem : Nat → Char} {str size : Nat}

def stored (str size : Nat) (mem : Nat → Char) (t : List Char) : Sprintbuf :=
  t.foldl (fun b ch => sprintputch ch b) ⟨str, str + size - 1, 0, mem⟩

theorem i32_count (n : Nat) : i32 (i32 n + 1) = i32 ((n + 1 : Nat) : Int) := by
  unfold i32
  omega

theorem stored_concat (ch : Char) : stored str size mem (t ++ [ch]) = sprintputch ch (stored str size mem t) := by
  unfold stored
  rw [List.foldl_append]
  rfl

/- What is in the buffer after the characters of a text. -/
theorem stored_text (positive : 1 ≤ size) : (stored str size mem t).buf = str + min t.length (size - 1) ∧
    (stored str size mem t).ebuf = str + size - 1 ∧ (stored str size mem t).cnt = i32 t.length ∧
    ∀ addr, (stored str size mem t).mem addr =
      if str ≤ addr ∧ addr < str + min t.length (size - 1) then t.getD (addr - str) '\x00' else mem addr := by
  induction t using List.reverseRecOn with
  | nil =>
    refine ⟨by simp [stored], rfl, by simp [stored, i32], fun addr => ?_⟩
    rw [if_neg (by simp)]
    rfl
  | append_singleton t ch ih =>
    obtain ⟨buf, ebuf, cnt, bytes⟩ := ih
    have counted : i32 ((stored str size mem t).cnt + 1) = i32 ((t ++ [ch]).length : Nat) := by
      rw [cnt, List.length_append, List.length_singleton]
      exact i32_count t.length
    have kept : ∀ addr, str ≤ addr → addr < str + t.length → (t ++ [ch]).getD (addr - str) '\x00' = t.getD (addr - str) '\x00' :=
      fun addr low high => List.getD_append _ _ _ _ (by omega)
    rw [stored_concat]
    unfold sprintputch
    dsimp only
    rw [buf, ebuf, counted, List.length_append, List.length_singleton]
    by_cases room : t.length < size - 1
    · rw [if_pos (by omega)]
      refine ⟨by dsimp only; omega, rfl, rfl, fun addr => ?_⟩
      dsimp only
      by_cases last : addr = str + min t.length (size - 1)
      · rw [last, Function.update_self, if_pos (by omega)]
        have place : str + min t.length (size - 1) - str = t.length := by omega
        rw [place, List.getD_append_right _ _ _ _ (Nat.le_refl _), Nat.sub_self]
        rfl
      · rw [Function.update_of_ne last, bytes]
        by_cases within : str ≤ addr ∧ addr < str + min t.length (size - 1)
        · rw [if_pos within, if_pos (by omega), kept addr within.1 (by omega)]
        · rw [if_neg within, if_neg (by omega)]
    · rw [if_neg (by omega)]
      refine ⟨by dsimp only; omega, rfl, rfl, fun addr => ?_⟩
      dsimp only
      rw [bytes]
      by_cases within : str ≤ addr ∧ addr < str + min t.length (size - 1)
      · rw [if_pos within, if_pos (by omega), kept addr within.1 (by omega)]
      · rw [if_neg within, if_neg (by omega)]

theorem vsnprintf_text (some_text : text fmt args = some t) (buffer : 0 < str) (positive : 1 ≤ size)
    (inside : str + size ≤ 18446744073709551616) : vsnprintf mem str size fmt args =
      some (i32 t.length, Function.update (stored str size mem t).mem (str + min t.length (size - 1)) '\x00') := by
  have last : (str + size - 1) % 18446744073709551616 = str + size - 1 := Nat.mod_eq_of_lt (by omega)
  obtain ⟨buf, _, cnt, _⟩ := @stored_text t mem str size positive
  unfold vsnprintf
  dsimp only
  rw [last, if_neg (by omega), vprintfmt_text, some_text, ← buf, ← cnt]
  rfl

theorem bounded_right (some_text : text fmt args = some t) (short : t.length < 2147483648) : BoundedRight fmt args := by
  refine ⟨t, some_text, fun mem str size buffer positive inside => ?_⟩
  obtain ⟨_, _, _, bytes⟩ := @stored_text t mem str size positive
  have answer := @vsnprintf_text fmt args t mem str size some_text buffer positive inside
  rw [i32_exact (by omega) (by omega)] at answer
  refine ⟨_, answer, fun addr outside => ?_, fun i below => ?_, Function.update_self _ _ _⟩
  · rw [Function.update_of_ne (by omega), bytes, if_neg (by omega)]
  · rw [Function.update_of_ne (by omega), bytes, if_pos (by omega), Nat.add_sub_cancel_left]

/- The least `int` as an error, or a text that is too long for the count. -/
theorem bounded_iff : BoundedRight fmt args ↔
    (∀ c ∈ conversions fmt args (fmt.length + 1) 0 0, c.1 = 'e' → c.2.int ≠ -2147483648) ∧
      ∀ t, text fmt args = some t → t.length < 2147483648 := by
  have ends := @vprintfmt_ends_iff _ putText fmt args []
  constructor
  · rintro ⟨t, some_text, right⟩
    refine ⟨ends.mp ⟨t, some_text⟩, fun t' same => ?_⟩
    obtain rfl := Option.some.inj (some_text.symm.trans same)
    have fits : 1 + 1 ≤ 18446744073709551616 := by omega
    obtain ⟨mem', answer, _⟩ := right (fun _ => '\x00') 1 1 Nat.one_pos (Nat.le_refl 1) fits
    rw [vsnprintf_text some_text Nat.one_pos (Nat.le_refl 1) fits] at answer
    have count := (Prod.mk.inj (Option.some.inj answer)).1
    unfold i32 at count
    omega
  · rintro ⟨errors, short⟩
    obtain ⟨t, some_text⟩ := ends.mpr errors
    exact bounded_right some_text (short t some_text)

/- `vsnprintf(str, size, "%e", INT_MIN)`. -/
theorem least_error_outside : text "%e".toList (fun _ => ⟨0x80000000, []⟩) = none ∧
    ¬ BoundedRight "%e".toList (fun _ => ⟨0x80000000, []⟩) := by
  have stuck : text "%e".toList (fun _ => ⟨0x80000000, []⟩) = none := by decide
  exact ⟨stuck, fun ⟨t, some_text, _⟩ => by cases stuck.symm.trans some_text⟩

end
end Ucore.Printfmt
