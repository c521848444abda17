import Ucore.Libs.Printfmt

/- `strtol` of lab8/libs/string.c, and the numbers of `vprintfmt` read back. -/
namespace Ucore.Printfmt
open Words

def strtolDigit (ch : Char) : Option Nat :=
  if '0' ≤ ch ∧ ch ≤ '9' then some (ch.toNat - '0'.toNat)
  else if 'a' ≤ ch ∧ ch ≤ 'z' then some (ch.toNat - 'a'.toNat + 10)
  else if 'A' ≤ ch ∧ ch ≤ 'Z' then some (ch.toNat - 'A'.toNat + 10)
  else none

/- The value so far, and what is not read. -/
def strtolDigits (base : Nat) : List Char → BitVec 64 → BitVec 64 × List Char
  | [], val => (val, [])
  | ch :: s, val =>
      match strtolDigit ch with
      | none => (val, ch :: s)
      | some dig =>
          if dig ≥ base then (val, ch :: s)
          else strtolDigits base s (val * BitVec.ofNat 64 base + BitVec.ofNat 64 dig)

def strtolSign : List Char → Bool × List Char
  | '+' :: s => (false, s)
  | '-' :: s => (true, s)
  | s => (false, s)

def strtolBase (base : Nat) (s : List Char) : Nat × List Char :=
  if (base = 0 ∨ base = 16) ∧ s.take 2 = ['0', 'x'] then (16, s.drop 2)
  else if base = 0 ∧ s.take 1 = ['0'] then (8, s.drop 1)
  else if base = 0 then (10, s)
  else (base, s)

/- The result, and what stands from `*endptr` on. -/
def strtol (s : List Char) (base : Nat) : BitVec 64 × List Char :=
  let s := s.dropWhile fun ch => ch = ' ' ∨ ch = '\t'
  let (neg, s) := strtolSign s
  let (base, s) := strtolBase base s
  let (val, s) := strtolDigits base s 0
  (if neg then -val else val, s)

/- The digits of a number, with no zero before them. -/
def shortest (base num : Nat) : List Char := if num = 0 then ['0'] else ((Nat.digits base num).map digitChar).reverse

inductive NumberConversion where
  | signed
  | unsigned
  | octal
  | pointer
  | hexadecimal
  deriving DecidableEq, Repr

def NumberConversion.ch : NumberConversion → Char
  | .signed => 'd'
  | .unsigned => 'u'
  | .octal => 'o'
  | .pointer => 'p'
  | .hexadecimal => 'x'

def NumberConversion.base : NumberConversion → Nat
  | .signed => 10
  | .unsigned => 10
  | .octal => 8
  | .pointer => 16
  | .hexadecimal => 16

/- The argument as its type has it, widened to 64 bits. -/
def NumberConversion.word (c : NumberConversion) (a : Slot) (f : Flags) : BitVec 64 :=
  match c with
  | .signed => getint a f.lflag
  | .pointer => a.word
  | _ => getuint a f.lflag

def NumberConversion.value (c : NumberConversion) (a : Slot) (f : Flags) : Int :=
  if c = .signed then (c.word a f).toInt else (c.word a f).toNat

/- What stands before the padding. -/
def NumberConversion.lead (c : NumberConversion) (a : Slot) (f : Flags) : List Char :=
  if c.value a f < 0 then ['-'] else if c = .pointer then ['0', 'x'] else []

def NumberConversion.digits (c : NumberConversion) (a : Slot) (f : Flags) : List Char :=
  shortest c.base (c.value a f).natAbs

/-- The padding and the digits are put, and `strtol` reads the value back and stops at the end if there is no padding, or
nothing but blanks. -/
structure NumberRight (c : NumberConversion) (a : Slot) (f : Flags) : Prop where
  printed : ∀ printfmt, convert putText printfmt c.ch f a [] =
    some (c.lead a f ++ List.replicate (f.width - (c.digits a f).length).toNat f.padc ++ c.digits a f)
  read : f.width ≤ (c.digits a f).length ∨ f.padc = ' ' ∧ c.lead a f = [] → ∀ printfmt out,
    convert putText printfmt c.ch f a [] = some out → strtol out c.base = (c.word a f, [])

section
variable {base num fuel d : Nat} {padc ch : Char} {width : Int} {s t : List Char} {v w : BitVec 64}
  {c : NumberConversion} {a : Slot} {f : Flags}

theorem shortest_small (small : num < base) : shortest base num = [digitChar num] := by
  unfold shortest
  by_cases zero : num = 0
  · rw [if_pos zero, zero]
    rfl
  · rw [if_neg zero, Nat.digits_of_lt base num zero small]
    rfl

theorem shortest_step (two : 2 ≤ base) (large : base ≤ num) :
    shortest base num = shortest base (num / base) ++ [digitChar (num % base)] := by
  have zero : num ≠ 0 := by omega
  have high : num / base ≠ 0 := (Nat.div_pos large (by omega)).ne'
  unfold shortest
  rw [if_neg zero, if_neg high, Nat.digits_eq_cons_digits_div two zero, List.map_cons, List.reverse_cons]

theorem put_many_text (n : Nat) : putMany putText ch n s = s ++ List.replicate n ch := by
  induction n generalizing s with
  | zero => exact (List.append_nil s).symm
  | succ n ih => rw [putMany, ih, putText, List.append_assoc, List.replicate_succ, List.singleton_append]

theorem i32_step (width : Int) (n : Nat) : i32 (i32 (width - 1) - n) = i32 (width - (n + 1 : Nat)) := by
  unfold i32
  omega

theorem printnum_text (two : 2 ≤ base) (fits : num < base ^ (fuel + 1)) :
    printnum putText base padc (fuel + 1) num width s =
      some (s ++ List.replicate (i32 (width - (shortest base num).length)).toNat padc ++ shortest base num) := by
  induction fuel generalizing num width with
  | zero =>
    have small : num < base := by simpa using fits
    rw [printnum, if_neg (by omega), shortest_small small, put_many_text, Nat.mod_eq_of_lt small]
    rfl
  | succ fuel ih =>
    by_cases large : base ≤ num
    · have rest : num / base < base ^ (fuel + 1) := by
        rw [Nat.div_lt_iff_lt_mul (by omega)]
        exact fits
      rw [printnum, if_pos large, ih rest, shortest_step two large, i32_step, List.length_append, List.length_singleton]
      simp only [Option.bind_eq_bind, Option.bind_some, putText, List.append_assoc]
    · have small : num < base := by omega
      rw [printnum, if_neg large, shortest_small small, put_many_text, Nat.mod_eq_of_lt small]
      rfl

theorem digit_char_read : ∀ d < 16, strtolDigit (digitChar d) = some d := by decide

theorem digit_char_plain : ∀ d < 16, digitChar d ≠ ' ' ∧ digitChar d ≠ '\t' ∧ digitChar d ≠ '+' ∧ digitChar d ≠ '-' ∧
    digitChar d ≠ 'x' := by decide

theorem shortest_chars (two : 2 ≤ base) (small : base ≤ 16) : ∀ ch ∈ shortest base num, ∃ d < 16, ch = digitChar d := by
  intro ch mem
  unfold shortest at mem
  split_ifs at mem with zero
  · exact ⟨0, by decide, List.mem_singleton.mp mem⟩
  · obtain ⟨d, inside, rfl⟩ := List.mem_map.mp (List.mem_reverse.mp mem)
    exact ⟨d, (Nat.digits_lt_base two inside).trans_le small, rfl⟩

theorem shortest_nonempty : shortest base num ≠ [] := by
  unfold shortest
  split_ifs with zero
  · exact List.cons_ne_nil _ _
  · intro empty
    have := List.map_eq_nil_iff.mp (List.reverse_eq_nil_iff.mp empty)
    exact zero (Nat.digits_eq_nil_iff_eq_zero.mp this)

/- A digit more. -/
theorem strtol_digits_concat (whole : strtolDigits base s v = (w, [])) (digit : strtolDigit ch = some d) (below : d < base) :
    strtolDigits base (s ++ [ch]) v = (w * BitVec.ofNat 64 base + BitVec.ofNat 64 d, []) := by
  induction s generalizing v with
  | nil =>
    obtain rfl : v = w := congrArg Prod.fst whole
    rw [List.nil_append, strtolDigits, digit]
    dsimp only
    rw [if_neg (by omega), strtolDigits]
  | cons c s ih =>
    rw [strtolDigits] at whole
    rw [List.cons_append, strtolDigits]
    cases first : strtolDigit c with
    | none =>
      rw [first] at whole
      cases whole
    | some dig =>
      rw [first] at whole
      dsimp only at whole ⊢
      by_cases high : dig ≥ base
      · rw [if_pos high] at whole
        cases whole
      · rw [if_neg high] at whole ⊢
        exact ih whole

theorem strtol_shortest (two : 2 ≤ base) (small : base ≤ 16) (num : Nat) :
    strtolDigits base (shortest base num) 0 = (BitVec.ofNat 64 num, []) := by
  induction num using Nat.strongRecOn with
  | ind num ih =>
    by_cases large : base ≤ num
    · have less : num / base < num := Nat.div_lt_self (by omega) two
      have below : num % base < base := Nat.mod_lt num (by omega)
      have value : BitVec.ofNat 64 (num / base) * BitVec.ofNat 64 base + BitVec.ofNat 64 (num % base) = BitVec.ofNat 64 num := by
        rw [← BitVec.ofNat_mul, ← BitVec.ofNat_add, Nat.div_add_mod']
      rw [shortest_step two large, strtol_digits_concat (ih _ less) (digit_char_read _ (by omega)) below, value]
    · have below : num < base := by omega
      have one := @strtol_digits_concat base (num) (digitChar num) [] 0 0 rfl (digit_char_read num (by omega)) below
      rw [shortest_small below]
      simpa using one

theorem blanks_skipped (n : Nat) (plain : ∀ ch ∈ s.head?, ch ≠ ' ' ∧ ch ≠ '\t') :
    (List.replicate n ' ' ++ s).dropWhile (fun ch => ch = ' ' ∨ ch = '\t') = s := by
  induction n with
  | zero =>
    cases s with
    | nil => rfl
    | cons ch s =>
      have first := plain ch rfl
      rw [List.replicate_zero, List.nil_append, List.dropWhile_cons_of_neg (by simpa using first)]
  | succ n ih =>
    rw [List.replicate_succ, List.cons_append, List.dropWhile_cons_of_pos (by decide)]
    exact ih

/- The digits are not taken for the prefix `0x`. -/
theorem base_kept (two : 2 ≤ base) (small : base ≤ 16) : strtolBase base (shortest base num) = (base, shortest base num) := by
  have zero : base ≠ 0 := by omega
  unfold strtolBase
  rw [if_neg, if_neg (fun both => zero both.1), if_neg zero]
  rintro ⟨_, prefixed⟩
  have mem : 'x' ∈ shortest base num := List.mem_of_mem_take (prefixed ▸ (by decide : 'x' ∈ ['0', 'x']))
  obtain ⟨d, below, same⟩ := shortest_chars two small 'x' mem
  exact (digit_char_plain d below).2.2.2.2 same.symm

theorem shortest_cons (two : 2 ≤ base) (small : base ≤ 16) : ∃ d < 16, ∃ s, shortest base num = digitChar d :: s := by
  obtain ⟨ch, s, whole⟩ := List.exists_cons_of_ne_nil (@shortest_nonempty base num)
  obtain ⟨d, below, rfl⟩ := shortest_chars two small ch (whole ▸ List.mem_cons_self)
  exact ⟨d, below, s, whole⟩

theorem sign_plain (two : 2 ≤ base) (small : base ≤ 16) : strtolSign (shortest base num) = (false, shortest base num) := by
  obtain ⟨d, below, s, whole⟩ := @shortest_cons base num two small
  obtain ⟨_, _, plus, minus, _⟩ := digit_char_plain d below
  rw [whole]
  unfold strtolSign
  split
  · exact absurd (List.cons.inj ‹_›).1 plus
  · exact absurd (List.cons.inj ‹_›).1 minus
  · rfl

theorem strtol_eq {text : List Char} {neg : Bool} (blanks : text.dropWhile (fun ch => ch = ' ' ∨ ch = '\t') = s)
    (sign : strtolSign s = (neg, t)) {b : Nat} {r rest : List Char} (prefixed : strtolBase base t = (b, r))
    (digits : strtolDigits b r 0 = (v, rest)) : strtol text base = (if neg then -v else v, rest) := by
  unfold strtol
  rw [blanks]
  dsimp only
  rw [sign]
  dsimp only
  rw [prefixed]
  dsimp only
  rw [digits]

theorem strtol_blanks (two : 2 ≤ base) (small : base ≤ 16) (n : Nat) :
    strtol (List.replicate n ' ' ++ shortest base num) base = (BitVec.ofNat 64 num, []) := by
  have skipped : (List.replicate n ' ' ++ shortest base num).dropWhile (fun ch => ch = ' ' ∨ ch = '\t') = shortest base num := by
    apply blanks_skipped
    intro ch first
    obtain ⟨d, below, s, whole⟩ := @shortest_cons base num two small
    obtain rfl : digitChar d = ch := by simpa [whole] using first
    exact ⟨(digit_char_plain d below).1, (digit_char_plain d below).2.1⟩
  exact strtol_eq skipped (sign_plain two small) (base_kept two small) (strtol_shortest two small num)

theorem strtol_minus (two : 2 ≤ base) (small : base ≤ 16) :
    strtol ('-' :: shortest base num) base = (-BitVec.ofNat 64 num, []) := by
  have kept : ('-' :: shortest base num).dropWhile (fun ch => ch = ' ' ∨ ch = '\t') = '-' :: shortest base num :=
    List.dropWhile_cons_of_neg (by decide)
  exact strtol_eq kept rfl (base_kept two small) (strtol_shortest two small num)

theorem strtol_hex_lead : strtol ('0' :: 'x' :: shortest 16 num) 16 = (BitVec.ofNat 64 num, []) := by
  have kept : ('0' :: 'x' :: shortest 16 num).dropWhile (fun ch => ch = ' ' ∨ ch = '\t') = '0' :: 'x' :: shortest 16 num :=
    List.dropWhile_cons_of_neg (by decide)
  have taken : strtolBase 16 ('0' :: 'x' :: shortest 16 num) = (16, shortest 16 num) := by
    unfold strtolBase
    rw [if_pos ⟨.inr rfl, rfl⟩]
    rfl
  exact strtol_eq kept rfl taken (strtol_shortest (by decide) (by decide) num)

theorem conversion_base (c : NumberConversion) : 2 ≤ c.base ∧ c.base ≤ 16 := by
  cases c <;> exact ⟨by decide, by decide⟩

theorem magnitude (w : BitVec 64) : w.toInt.natAbs = if w.toInt < 0 then (-w).toNat else w.toNat := by
  have sign := @BitVec.msb_eq_toInt 64 w
  split_ifs with negative
  · rw [decide_eq_true negative] at sign
    have value := BitVec.toInt_eq_neg_toNat_neg_of_msb_true sign
    omega
  · rw [decide_eq_false negative] at sign
    have value := BitVec.toInt_eq_toNat_of_msb sign
    omega

/- The digits are those of what `printnum` is called with. -/
theorem convert_number (c : NumberConversion) (a : Slot) (f : Flags) (printfmt : List Char → Args → List Char → Option (List Char)) :
    convert putText printfmt c.ch f a [] = some (c.lead a f ++
      List.replicate (i32 (f.width - (c.digits a f).length)).toNat f.padc ++ c.digits a f) := by
  obtain ⟨two, small⟩ := conversion_base c
  have put : ∀ (num : BitVec 64) (base : Nat) (s : List Char), 2 ≤ base → number putText num base f s =
      some (s ++ List.replicate (i32 (f.width - (shortest base num.toNat).length)).toNat f.padc ++ shortest base num.toNat) := by
    intro num base s two
    have fits : num.toNat < base ^ (64 + 1) := by
      have bits := num.isLt
      have more : 2 ^ (64 + 1) ≤ base ^ (64 + 1) := Nat.pow_le_pow_left two (64 + 1)
      omega
    exact printnum_text two fits
  have natural : c ≠ .signed → (c.value a f).natAbs = (c.word a f).toNat ∧ ¬ c.value a f < 0 := by
    intro other
    unfold NumberConversion.value
    rw [if_neg other]
    omega
  unfold NumberConversion.digits NumberConversion.lead
  cases c with
  | signed =>
    have value : NumberConversion.signed.value a f = (getint a f.lflag).toInt := rfl
    change convertSigned putText a f [] = _
    unfold convertSigned
    dsimp only
    rw [value, magnitude]
    by_cases negative : (getint a f.lflag).toInt < 0
    · rw [if_pos negative, if_pos negative, if_pos negative]
      exact put _ 10 ['-'] two
    · rw [if_neg negative, if_neg negative, if_neg negative]
      exact put _ 10 [] two
  | unsigned =>
    obtain ⟨same, sign⟩ := natural (by decide)
    rw [same, if_neg sign]
    exact put _ 10 [] two
  | octal =>
    obtain ⟨same, sign⟩ := natural (by decide)
    rw [same, if_neg sign]
    exact put _ 8 [] two
  | pointer =>
    obtain ⟨same, sign⟩ := natural (by decide)
    rw [same, if_neg sign]
    exact put _ 16 ['0', 'x'] two
  | hexadecimal =>
    obtain ⟨same, sign⟩ := natural (by decide)
    rw [same, if_neg sign]
    exact put _ 16 [] two

/- The sign and the digits, or the digits behind blanks. -/
theorem conversion_read (n : Nat) (plain : n = 0 ∨ c.lead a f = []) :
    strtol (c.lead a f ++ List.replicate n ' ' ++ c.digits a f) c.base = (c.word a f, []) := by
  obtain ⟨two, small⟩ := conversion_base c
  by_cases negative : c.value a f < 0
  · have lead : c.lead a f = ['-'] := if_pos negative
    obtain rfl : n = 0 := plain.resolve_right (by rw [lead]; exact List.cons_ne_nil _ _)
    have signed : c = .signed := by
      by_contra other
      unfold NumberConversion.value at negative
      rw [if_neg other] at negative
      omega
    have value : c.value a f = (c.word a f).toInt := if_pos signed
    have back : -BitVec.ofNat 64 (c.value a f).natAbs = c.word a f := by
      rw [value, magnitude, if_pos (value ▸ negative), BitVec.ofNat_toNat, BitVec.setWidth_eq, BitVec.neg_neg]
    have read := @strtol_minus c.base (c.value a f).natAbs two small
    rw [back] at read
    rw [lead]
    exact read
  have value : BitVec.ofNat 64 (c.value a f).natAbs = c.word a f := by
    unfold NumberConversion.value at negative ⊢
    split_ifs at negative ⊢ with signed
    · rw [magnitude, if_neg negative, BitVec.ofNat_toNat, BitVec.setWidth_eq]
    · rw [Int.natAbs_natCast, BitVec.ofNat_toNat, BitVec.setWidth_eq]
  by_cases pointer : c = .pointer
  · have lead : c.lead a f = ['0', 'x'] := (if_neg negative).trans (if_pos pointer)
    obtain rfl : n = 0 := plain.resolve_right (by rw [lead]; exact List.cons_ne_nil _ _)
    have read := @strtol_hex_lead (c.value a f).natAbs
    rw [value] at read
    unfold NumberConversion.digits
    rw [lead, pointer]
    rw [pointer] at read
    exact read
  · have lead : c.lead a f = [] := (if_neg negative).trans (if_neg pointer)
    have read := @strtol_blanks c.base (c.value a f).natAbs two small n
    rw [value] at read
    rw [lead]
    exact read

theorem width_kept (low : -2147483648 ≤ width - s.length) (high : width < 2147483648) :
    i32 (width - s.length) = width - s.length := i32_exact low (by omega)

theorem number_right (low : -2147483648 ≤ f.width - (c.digits a f).length) (high : f.width < 2147483648) :
    NumberRight c a f where
  printed printfmt := by
    rw [convert_number, width_kept low high]
  read plain printfmt out done := by
    rw [convert_number, width_kept low high] at done
    obtain rfl := Option.some.inj done
    rcases plain with narrow | ⟨blank, bare⟩
    · have none_there : (f.width - (c.digits a f).length).toNat = 0 := by omega
      have read := @conversion_read c a f 0 (.inl rfl)
      rw [none_there]
      exact read
    · rw [blank]
      exact conversion_read _ (.inr bare)

/- The width is counted down past the least `int`. -/
theorem number_wrong (lowest : -2147483648 ≤ f.width) (low : f.width - (c.digits a f).length < -2147483648)
    (short : (c.digits a f).length < 2147483648) : ¬ NumberRight c a f := by
  intro right
  have printed := right.printed fun _ _ _ => none
  rw [convert_number] at printed
  have lengths := congrArg List.length (Option.some.inj printed)
  have wrapped : i32 (f.width - (c.digits a f).length) = f.width - (c.digits a f).length + 4294967296 := by
    unfold i32
    omega
  simp only [List.length_append, List.length_replicate, wrapped] at lengths
  omega

theorem shortest_length (two : 2 ≤ base) (fits : num < 2 ^ 64) : (shortest base num).length ≤ 64 := by
  have bound : (Nat.digits base num).length ≤ 64 :=
    (Nat.digits_length_le_iff two num).mpr (fits.trans_le (Nat.pow_le_pow_left two 64))
  unfold shortest
  split_ifs with zero
  · decide
  · rw [List.length_reverse, List.length_map]
    exact bound

theorem digits_length (c : NumberConversion) (a : Slot) (f : Flags) : (c.digits a f).length ≤ 64 := by
  apply shortest_length (conversion_base c).1
  have unsigned := (c.word a f).isLt
  have negated := (-c.word a f).isLt
  unfold NumberConversion.value
  split_ifs with signed
  · rw [magnitude]
    split_ifs
    · exact negated
    · exact unsigned
  · rw [Int.natAbs_natCast]
    exact unsigned

theorem numbers_read_back (lowest : -2147483648 ≤ f.width) (high : f.width < 2147483648) :
    NumberRight c a f ↔ -2147483648 + (c.digits a f).length ≤ f.width := by
  have short := digits_length c a f
  refine ⟨fun right => ?_, fun low => number_right (by omega) high⟩
  by_contra low
  exact number_wrong lowest (by omega) (by omega) right

/- The least number. -/
theorem least_number_read : ∃ a : Slot, NumberConversion.signed.value a { lflag := 2 } = -9223372036854775808 ∧
    (NumberRight .signed a { lflag := 2 } ↔ -2147483648 + (NumberConversion.signed.digits a { lflag := 2 }).length ≤ (-1 : Int)) :=
  ⟨⟨BitVec.intMin 64, []⟩, by decide, numbers_read_back (by decide) (by decide)⟩

/- A width of `INT_MIN` is the argument of a `*`. -/
theorem least_width_pads : ∃ a : Slot, a.int = 5 ∧ ¬ NumberRight .signed a { width := -2147483648 } := by
  have length := digits_length .signed ⟨5, []⟩ { width := -2147483648 }
  have some_digit : NumberConversion.signed.digits ⟨5, []⟩ { width := -2147483648 } ≠ [] := shortest_nonempty
  have positive := List.length_pos_of_ne_nil some_digit
  refine ⟨⟨5, []⟩, by decide, number_wrong (Int.le_refl _) ?_ (by omega)⟩
  dsimp only
  omega

end
end Ucore.Printfmt
