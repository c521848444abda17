import Ucore.User.Sh

/- The words of a line, and the strings that `runcmd` passes on for them. -/
namespace Ucore.Sh

/- What is read off a line: `run` are the characters of a word as they stand on the line, `rest` is what follows. -/
structure Lexeme where
  token : Char
  run : List Char
  rest : List Char

def spanWord : Bool → List Char → List Char × List Char
  | _, [] => ([], [])
  | quoted, c :: cs =>
      if quoted ∨ c ∉ WHITESPACE ++ SYMBOLS then
        let (run, rest) := spanWord (if c = '"' then !quoted else quoted) cs
        (c :: run, rest)
      else ([], c :: cs)

def lex (line : List Char) : Option Lexeme :=
  match line.dropWhile (· ∈ WHITESPACE) with
  | [] => none
  | c :: cs =>
      if c ∈ SYMBOLS then some ⟨c, [], cs⟩
      else some ⟨'w', (spanWord false (c :: cs)).1, (spanWord false (c :: cs)).2⟩

inductive Use where
  | reopen (fd : Nat) (filename : Lexeme)
  | cd (dir : Lexeme)
  | testfile (name : Lexeme)
  | exec (found : Bool) (name : Lexeme) (args : List Lexeme)

def commandUses (system : System) (left : Nat) : List Lexeme → List Use
  | [] => []
  | name :: args =>
      if name.run = ['c', 'd'] then
        match args with
        | [dir] => [.cd dir]
        | _ => []
      else .testfile name ::
        match system.testfile left with
        | .found => [.exec true name args]
        | .noent => [.exec false name args]
        | .error => []

def redirectUses (system : System) (next : List Char → List Use) (fd : Nat) (line : List Char) : List Use :=
  match lex line with
  | none => []
  | some name =>
      if name.token ≠ 'w' then []
      else .reopen fd name :: if system.reopen name.rest.length then next name.rest else []

/- The words that a line is to pass on, with the answers of the system. -/
def uses (system : System) : Nat → List Char → List Lexeme → List Use
  | 0, _, _ => []
  | fuel + 1, line, argv =>
      match lex line with
      | none => commandUses system line.length argv
      | some w =>
          if w.token = 'w' then
            if argv.length = EXEC_MAX_ARG_NUM then [] else uses system fuel w.rest (argv ++ [w])
          else if w.token = '<' then redirectUses system (uses system fuel · argv) 0 w.rest
          else if w.token = '>' then redirectUses system (uses system fuel · argv) 1 w.rest
          else if w.token = '|' then
            (if system.pipeParent w.rest.length then commandUses system w.rest.length argv else []) ++
              if system.pipeChild w.rest.length then uses system fuel w.rest [] else []
          else if w.token = ';' then
            if system.fork w.rest.length then commandUses system w.rest.length argv ++ uses system fuel w.rest [] else []
          else []

/- A use with the strings that stand for its words; a name that is not found is looked for at the root. -/
def Use.passed (filename word : Lexeme → List Char) : Use → Passed
  | .reopen fd w => .reopen fd (filename w)
  | .cd w => .cd (word w)
  | .testfile w => .testfile (word w)
  | .exec found w args => .exec (if found then word w else rooted (word w)) (args.map word)

def Use.onLine (u : Use) : Passed := u.passed Lexeme.run Lexeme.run

/- The quotes are blanks in the buffer. -/
def blanked (run : List Char) : List Char := run.map fun c => if c = '"' then ' ' else c

/- The end of a file name is not marked when it is used. -/
def Use.seen (u : Use) : Passed := u.passed (fun w => blanked w.run ++ w.rest) (fun w => blanked w.run)

/-- The strings have no quotes, and a file name is the last on its line. -/
def Use.Plain : Use → Prop
  | .reopen _ w => '"' ∉ w.run ∧ w.rest = []
  | .cd w => '"' ∉ w.run
  | .testfile w => '"' ∉ w.run
  | .exec found w args => '"' ∉ (if found then w.run else rooted w.run) ∧ ∀ w ∈ args, '"' ∉ w.run

section
variable {n s t fuel : Nat} {buf buf' : Buffer} {run rest line xs ys : List Char} {quoted : Bool} {u : Use}

theorem blanked_same : blanked run = run ↔ '"' ∉ run := by
  induction run with
  | nil => exact iff_of_true rfl List.not_mem_nil
  | cons c run ih =>
    rw [List.mem_cons, not_or, ← ih]
    unfold blanked
    rw [List.map_cons, List.cons.injEq]
    refine and_congr_left fun _ => ?_
    by_cases quote : c = '"'
    · rw [if_pos quote, quote]
      decide
    · rw [if_neg quote]
      exact iff_of_true rfl (Ne.symm quote)

theorem blanked_rooted : rooted (blanked run) = blanked (rooted run) := by
  unfold rooted blanked
  rw [List.map_take, List.map_cons]
  rfl

theorem plain_iff : u.seen = u.onLine ↔ u.Plain := by
  unfold Use.seen Use.onLine
  cases u with
  | reopen fd w =>
    unfold Use.passed Use.Plain
    dsimp only
    rw [Passed.reopen.injEq, and_iff_right rfl, ← blanked_same]
    constructor
    · intro same
      have lengths := congrArg List.length same
      rw [List.length_append, blanked, List.length_map] at lengths
      have last : w.rest = [] := List.eq_nil_of_length_eq_zero (by omega)
      rw [last, List.append_nil] at same
      exact ⟨same, last⟩
    · rintro ⟨same, last⟩
      rw [same, last, List.append_nil]
  | cd w =>
    unfold Use.passed Use.Plain
    rw [Passed.cd.injEq, blanked_same]
  | testfile w =>
    unfold Use.passed Use.Plain
    rw [Passed.testfile.injEq, blanked_same]
  | exec found w args =>
    unfold Use.passed Use.Plain
    rw [Passed.exec.injEq, List.map_inj_left]
    refine and_congr ?_ (forall₂_congr fun w _ => blanked_same)
    cases found with
    | true => exact blanked_same
    | false =>
      change rooted (blanked w.run) = rooted w.run ↔ '"' ∉ rooted w.run
      rw [blanked_rooted]
      exact blanked_same

/- The rest of the line is in the buffer, unchanged. -/
def Holds (n : Nat) (buf : Buffer) : Nat → List Char → Prop
  | s, [] => s = n ∧ buf n = '\x00'
  | s, c :: rest => buf s = c ∧ c ≠ '\x00' ∧ Holds n buf (s + 1) rest

def Segment (buf : Buffer) : Nat → List Char → Prop
  | _, [] => True
  | s, c :: xs => buf s = c ∧ c ≠ '\x00' ∧ Segment buf (s + 1) xs

theorem holds_length (held : Holds n buf s rest) : s + rest.length = n := by
  induction rest generalizing s with
  | nil => exact held.1
  | cons c rest ih =>
    have := ih held.2.2
    rw [List.length_cons]
    omega

theorem holds_frame (same : ∀ i ≥ s, buf' i = buf i) (held : Holds n buf s rest) : Holds n buf' s rest := by
  induction rest generalizing s with
  | nil =>
    obtain ⟨rfl, ends⟩ := held
    exact ⟨rfl, (same s (Nat.le_refl s)).trans ends⟩
  | cons c rest ih =>
    exact ⟨(same s (Nat.le_refl s)).trans held.1, held.2.1, ih (fun i above => same i (by omega)) held.2.2⟩

theorem segment_frame (same : ∀ i, s ≤ i → i < s + xs.length → buf' i = buf i) (held : Segment buf s xs) : Segment buf' s xs := by
  induction xs generalizing s with
  | nil => trivial
  | cons c xs ih =>
    rw [List.length_cons] at same
    exact ⟨(same s (Nat.le_refl s) (by omega)).trans held.1, held.2.1,
      ih (fun i above below => same i (by omega) (by omega)) held.2.2⟩

theorem char_here (inside : s ≤ n) : charAt n buf s = some (buf s) := if_pos inside

theorem cstring_segment (held : Segment buf t xs) (inside : t + xs.length ≤ n)
    (rest : ∀ fuel, n < fuel + (t + xs.length) → cstring n buf fuel (t + xs.length) = some ys) (enough : n < fuel + t) :
    cstring n buf fuel t = some (xs ++ ys) := by
  induction xs generalizing t fuel with
  | nil => exact rest fuel enough
  | cons c xs ih =>
    rw [List.length_cons] at inside rest
    obtain ⟨fuel, rfl⟩ : ∃ m, fuel = m + 1 := ⟨fuel - 1, by omega⟩
    obtain ⟨here, nonzero, later⟩ := held
    have place : t + 1 + xs.length = t + (xs.length + 1) := by omega
    have tail := @ih (t + 1) fuel later (by omega) (place ▸ rest) (by omega)
    rw [cstring, char_here (by omega), here]
    simp only [Option.bind_eq_bind, Option.bind_some]
    rw [if_neg nonzero, tail]
    rfl

theorem cstring_nul (inside : t ≤ n) (ends : buf t = '\x00') (enough : n < fuel + t) : cstring n buf fuel t = some [] := by
  obtain ⟨fuel, rfl⟩ : ∃ m, fuel = m + 1 := ⟨fuel - 1, by omega⟩
  rw [cstring, char_here inside, ends]
  rfl

theorem segment_of_holds (held : Holds n buf s rest) : Segment buf s rest := by
  induction rest generalizing s with
  | nil => trivial
  | cons c rest ih => exact ⟨held.1, held.2.1, ih held.2.2⟩

theorem holds_nul (held : Holds n buf s rest) : buf n = '\x00' := by
  induction rest generalizing s with
  | nil => exact held.2
  | cons c rest ih => exact ih held.2.2

theorem cstring_rest (held : Holds n buf s rest) (enough : n < fuel + s) : cstring n buf fuel s = some rest := by
  have length := holds_length held
  have ends : buf (s + rest.length) = '\x00' := by
    rw [length]
    exact holds_nul held
  have whole := @cstring_segment n s fuel buf rest [] (segment_of_holds held) (by omega)
    (fun fuel enough => cstring_nul (by omega) ends enough) enough
  rw [List.append_nil] at whole
  exact whole

/- A word is read without what follows if its end is marked, and with it if not. -/
theorem cstring_word (held : Segment buf t xs) (inside : t + xs.length ≤ n) (ends : buf (t + xs.length) = '\x00') :
    cstring n buf (n + 1) t = some xs := by
  have whole := @cstring_segment n t (n + 1) buf xs [] held inside (fun fuel enough => cstring_nul inside ends enough) (by omega)
  rw [List.append_nil] at whole
  exact whole

theorem cstring_open (held : Segment buf t xs) (follows : Holds n buf (t + xs.length) rest) :
    cstring n buf (n + 1) t = some (xs ++ rest) := by
  have length := holds_length follows
  exact cstring_segment held (by omega) (fun fuel enough => cstring_rest follows enough) (by omega)

theorem strchr_iff (set : List Char) (c : Char) : strchr set c = true ↔ c ∈ set := by
  unfold strchr
  exact List.contains_iff_mem

theorem skip_blanks_run (held : Holds n buf s line) (enough : n < fuel + s) : ∃ buf' s',
    skipBlanks n fuel buf s = some (buf', s') ∧ Holds n buf' s' (line.dropWhile (· ∈ WHITESPACE)) ∧ s ≤ s' ∧
      (∀ i < s, buf' i = buf i) ∧ ∀ i, s ≤ i → i < s' → buf' i = '\x00' := by
  induction line generalizing s buf fuel with
  | nil =>
    obtain ⟨fuel, rfl⟩ : ∃ m, fuel = m + 1 := ⟨fuel - 1, by have := held.1; omega⟩
    obtain ⟨rfl, ends⟩ := held
    refine ⟨buf, s, ?_, ⟨rfl, ends⟩, Nat.le_refl s, fun _ _ => rfl, fun i low high => by omega⟩
    rw [skipBlanks, char_here (Nat.le_refl s), ends]
    rfl
  | cons c line ih =>
    have length := holds_length held
    rw [List.length_cons] at length
    obtain ⟨fuel, rfl⟩ : ∃ m, fuel = m + 1 := ⟨fuel - 1, by omega⟩
    rw [skipBlanks, char_here (by omega), held.1]
    simp only [Option.bind_eq_bind, Option.bind_some, strchr_iff]
    by_cases blank : c ∈ WHITESPACE
    · have kept : ∀ i ≥ s + 1, Function.update buf s '\x00' i = buf i := fun i above => Function.update_of_ne (by omega) _ _
      obtain ⟨buf', s', run, rest, above, below, zeros⟩ := @ih (s + 1) fuel (Function.update buf s '\x00')
        (holds_frame kept held.2.2) (by omega)
      have skipped : (c :: line).dropWhile (· ∈ WHITESPACE) = line.dropWhile (· ∈ WHITESPACE) :=
        List.dropWhile_cons_of_pos (by simpa using blank)
      rw [if_pos blank, skipped]
      refine ⟨buf', s', run, rest, by omega, fun i low => ?_, fun i low high => ?_⟩
      · exact (below i (by omega)).trans (Function.update_of_ne (by omega) _ _)
      · by_cases first : i = s
        · rw [first, below s (by omega), Function.update_self]
        · exact zeros i (by omega) high
    · have kept : (c :: line).dropWhile (· ∈ WHITESPACE) = c :: line := List.dropWhile_cons_of_neg (by simpa using blank)
      rw [if_neg blank, kept]
      exact ⟨buf, s, rfl, held, Nat.le_refl s, fun _ _ => rfl, fun i low high => by omega⟩

theorem scan_word_run (held : Holds n buf s line) (enough : n < fuel + s) : ∃ buf',
    scanWord n fuel buf s quoted = some (buf', s + (spanWord quoted line).1.length) ∧
      Segment buf' s (blanked (spanWord quoted line).1) ∧
      Holds n buf' (s + (spanWord quoted line).1.length) (spanWord quoted line).2 ∧ ∀ i < s, buf' i = buf i := by
  induction line generalizing s buf fuel quoted with
  | nil =>
    obtain ⟨fuel, rfl⟩ : ∃ m, fuel = m + 1 := ⟨fuel - 1, by have := held.1; omega⟩
    obtain ⟨rfl, ends⟩ := held
    refine ⟨buf, ?_, trivial, ⟨rfl, ends⟩, fun _ _ => rfl⟩
    rw [scanWord, char_here (Nat.le_refl s), ends]
    rfl
  | cons c line ih =>
    have length := holds_length held
    obtain ⟨here, nonzero, later⟩ := held
    rw [List.length_cons] at length
    obtain ⟨fuel, rfl⟩ : ∃ m, fuel = m + 1 := ⟨fuel - 1, by omega⟩
    have goes : c ≠ '\x00' ∧ (quoted = true ∨ strchr (WHITESPACE ++ SYMBOLS) c = false) ↔
        quoted = true ∨ c ∉ WHITESPACE ++ SYMBOLS := by
      rw [and_iff_right nonzero, ← strchr_iff, Bool.not_eq_true]
    rw [scanWord, char_here (by omega), here]
    simp only [Option.bind_eq_bind, Option.bind_some]
    by_cases more : quoted = true ∨ c ∉ WHITESPACE ++ SYMBOLS
    · obtain ⟨next, is_next⟩ : ∃ next, next = if c = '"' then !quoted else quoted := ⟨_, rfl⟩
      have span : spanWord quoted (c :: line) = (c :: (spanWord next line).1, (spanWord next line).2) := by
        rw [spanWord, if_pos more, is_next]
      obtain ⟨buf₁, step, put, others⟩ : ∃ buf₁, (if c = '"' then scanWord n fuel (Function.update buf s ' ') (s + 1) (!quoted)
          else scanWord n fuel buf (s + 1) quoted) = scanWord n fuel buf₁ (s + 1) next ∧
          buf₁ s = (if c = '"' then ' ' else c) ∧ ∀ i, i ≠ s → buf₁ i = buf i := by
        rw [is_next]
        by_cases quote : c = '"'
        · rw [if_pos quote, if_pos quote, if_pos quote]
          exact ⟨_, rfl, Function.update_self _ _ _, fun i other => Function.update_of_ne other _ _⟩
        · rw [if_neg quote, if_neg quote, if_neg quote]
          exact ⟨buf, rfl, here, fun _ _ => rfl⟩
      have after := holds_frame (fun i above => others i (by omega)) later
      obtain ⟨buf', run, word, rest, below⟩ := @ih (s + 1) fuel buf₁ next after (by omega)
      have place : s + 1 + (spanWord next line).1.length = s + ((spanWord next line).1.length + 1) := by omega
      rw [place] at run rest
      rw [if_pos (goes.mpr more), step, span]
      refine ⟨buf', run, ⟨(below s (by omega)).trans put, ?_, word⟩, rest, fun i low => ?_⟩
      · change (if c = '"' then ' ' else c) ≠ '\x00'
        split_ifs
        · decide
        · exact nonzero
      · exact (below i (by omega)).trans (others i (by omega))
    · have stop : spanWord quoted (c :: line) = ([], c :: line) := by rw [spanWord, if_neg more]
      rw [if_neg fun both => more (goes.mp both), stop]
      exact ⟨buf, rfl, trivial, ⟨here, nonzero, later⟩, fun _ _ => rfl⟩

/- A word ends at the end of the line, or in front of a blank or a symbol. -/
def Boundary : List Char → Prop
  | [] => True
  | c :: _ => c ∈ WHITESPACE ++ SYMBOLS

theorem span_boundary : Boundary (spanWord quoted line).2 := by
  induction line generalizing quoted with
  | nil => trivial
  | cons c line ih =>
    rw [spanWord]
    by_cases more : quoted = true ∨ c ∉ WHITESPACE ++ SYMBOLS
    · rw [if_pos more]
      exact ih
    · rw [if_neg more]
      exact not_not.mp fun other => more (.inr other)

/- `cmd` stands at `s`, or is NULL at the end. -/
def CmdAt (n : Nat) (cmd : Option Nat) (s : Nat) (rest : List Char) : Prop := cmd = some s ∨ cmd = none ∧ s = n ∧ rest = []

theorem cmd_left {cmd : Option Nat} (here : CmdAt n cmd s rest) (held : Holds n buf s rest) : left n cmd = rest.length := by
  have length := holds_length held
  rcases here with rfl | ⟨rfl, rfl, rfl⟩
  · exact (show n - s = rest.length by omega)
  · rfl

/- What a call leaves: the rest of the line, nothing changed in front of it, and a mark where a word had ended. -/
structure Fetched (n : Nat) (buf : Buffer) (s : Nat) (line : List Char) (tok : Token) (s' : Nat) (rest : List Char) : Prop where
  cmd : CmdAt n tok.p1 s' rest
  holds : Holds n tok.buf s' rest
  before : ∀ i < s, tok.buf i = buf i
  mark : Boundary line → tok.buf s = '\x00'

theorem cmd_next (held : Holds n buf s rest) : CmdAt n (if buf s ≠ '\x00' then some s else none) s rest := by
  cases rest with
  | nil =>
    obtain ⟨rfl, ends⟩ := held
    rw [if_neg (not_not_intro ends)]
    exact .inr ⟨rfl, rfl, rfl⟩
  | cons c rest =>
    rw [if_pos (held.1 ▸ held.2.1)]
    exact .inl rfl

theorem gettoken_end {cmd : Option Nat} (here : CmdAt n cmd s line) (held : Holds n buf s line) (none_left : lex line = none) :
    ∃ tok, gettoken n buf cmd t = some tok ∧ tok.token = '\x00' ∧ left n tok.p1 = line.length ∧ (∀ i < s, tok.buf i = buf i) ∧
      tok.buf s = '\x00' := by
  rcases here with rfl | ⟨rfl, rfl, rfl⟩
  · have blanks : line.dropWhile (· ∈ WHITESPACE) = [] := by
      unfold lex at none_left
      split at none_left
      · assumption
      · split_ifs at none_left
    obtain ⟨buf', s', run, rest, above, below, zeros⟩ := skip_blanks_run held (show n < n + 1 + s by omega)
    rw [blanks] at rest
    obtain ⟨rfl, ends⟩ := rest
    refine ⟨⟨'\x00', some s, t, buf'⟩, ?_, rfl, cmd_left (.inl rfl) held, below, ?_⟩
    · simp only [gettoken, run, Option.bind_eq_bind, Option.bind_some, char_here (Nat.le_refl _), ends, if_true]
    · rcases above.lt_or_eq with before | rfl
      · exact zeros s (Nat.le_refl s) before
      · exact ends
  · exact ⟨⟨'\x00', none, t, buf⟩, rfl, rfl, rfl, fun _ _ => rfl, held.2⟩

/- In front of the next token the blanks have been cleared. -/
structure Skipped (n : Nat) (buf : Buffer) (s : Nat) (line : List Char) (buf₁ : Buffer) (s₁ : Nat) : Prop where
  run : skipBlanks n (n + 1) buf s = some (buf₁, s₁)
  rest : Holds n buf₁ s₁ (line.dropWhile (· ∈ WHITESPACE))
  above : s ≤ s₁
  below : ∀ i < s, buf₁ i = buf i
  zeros : ∀ i, s ≤ i → i < s₁ → buf₁ i = '\x00'

theorem skipped_blanks (held : Holds n buf s line) : ∃ buf₁ s₁, Skipped n buf s line buf₁ s₁ := by
  obtain ⟨buf₁, s₁, run, rest, above, below, zeros⟩ := skip_blanks_run held (show n < n + 1 + s by omega)
  exact ⟨buf₁, s₁, run, rest, above, below, zeros⟩

theorem skipped_char {buf₁ : Buffer} {s₁ : Nat} {c : Char} {cs : List Char} (skipped : Skipped n buf s line buf₁ s₁)
    (words : line.dropWhile (· ∈ WHITESPACE) = c :: cs) :
    charAt n buf₁ s₁ = some c ∧ c ≠ '\x00' ∧ c ∉ WHITESPACE ∧ Holds n buf₁ (s₁ + 1) cs ∧ s₁ + 1 ≤ n := by
  have rest := skipped.rest
  rw [words] at rest
  have length := holds_length rest
  rw [List.length_cons] at length
  obtain ⟨char, nonzero, later⟩ := rest
  have front := List.head?_dropWhile_not (fun c => decide (c ∈ WHITESPACE)) line
  rw [words] at front
  exact ⟨(char_here (by omega)).trans (congrArg some char), nonzero, by simpa using front, later, by omega⟩

theorem gettoken_symbol {buf₁ : Buffer} {s₁ : Nat} {c : Char} {cs : List Char} (skipped : Skipped n buf s line buf₁ s₁)
    (words : line.dropWhile (· ∈ WHITESPACE) = c :: cs) (symbol : c ∈ SYMBOLS) :
    ∃ tok s', gettoken n buf (some s) t = some tok ∧ tok.token = c ∧ s < s' ∧ Fetched n buf s line tok s' cs := by
  obtain ⟨read, nonzero, _, later, inside⟩ := skipped_char skipped words
  have above := skipped.above
  have kept := @holds_frame n (s₁ + 1) buf₁ (Function.update buf₁ s₁ '\x00') cs
    (fun i high => Function.update_of_ne (by omega) _ _) later
  refine ⟨⟨c, if Function.update buf₁ s₁ '\x00' (s₁ + 1) ≠ '\x00' then some (s₁ + 1) else none, s₁, Function.update buf₁ s₁ '\x00'⟩,
    s₁ + 1, ?_, rfl, by omega, ⟨cmd_next kept, kept, fun i low => ?_, fun _ => ?_⟩⟩
  · simp only [gettoken, skipped.run, Option.bind_eq_bind, Option.bind_some, read, if_neg nonzero, strchr_iff, if_pos symbol,
      char_here inside]
  · exact (Function.update_of_ne (by omega) _ _).trans (skipped.below i low)
  · dsimp only
    rcases above.lt_or_eq with before | rfl
    · rw [Function.update_of_ne (by omega)]
      exact skipped.zeros s (Nat.le_refl s) before
    · exact Function.update_self _ _ _

theorem gettoken_word {buf₁ : Buffer} {s₁ : Nat} {c : Char} {cs : List Char} (skipped : Skipped n buf s line buf₁ s₁)
    (held : Holds n buf s line) (words : line.dropWhile (· ∈ WHITESPACE) = c :: cs) (symbol : c ∉ SYMBOLS) :
    ∃ tok s', gettoken n buf (some s) t = some tok ∧ tok.token = 'w' ∧ s < s' ∧
      Fetched n buf s line tok s' (spanWord false (c :: cs)).2 ∧ s ≤ tok.p2 ∧
      Segment tok.buf tok.p2 (blanked (spanWord false (c :: cs)).1) ∧ tok.p2 + (spanWord false (c :: cs)).1.length = s' := by
  obtain ⟨read, nonzero, plain, later, inside⟩ := skipped_char skipped words
  have above := skipped.above
  have rest := skipped.rest
  rw [words] at rest
  have ordinary : c ∉ WHITESPACE ++ SYMBOLS := by
    rw [List.mem_append]
    exact fun some_set => some_set.elim plain symbol
  obtain ⟨buf', scan, word, after, before⟩ := @scan_word_run n s₁ (n + 1) buf₁ (c :: cs) false rest (by omega)
  have positive : 0 < (spanWord false (c :: cs)).1.length := by
    rw [spanWord, if_pos (.inr ordinary)]
    exact Nat.succ_pos _
  have within := holds_length after
  refine ⟨⟨'w', if buf' (s₁ + (spanWord false (c :: cs)).1.length) ≠ '\x00' then
      some (s₁ + (spanWord false (c :: cs)).1.length) else none, s₁, buf'⟩,
    s₁ + (spanWord false (c :: cs)).1.length, ?_, rfl, by omega,
    ⟨cmd_next after, after, fun i low => (before i (by omega)).trans (skipped.below i low), fun boundary => ?_⟩, above, word, rfl⟩
  · simp only [gettoken, skipped.run, Option.bind_eq_bind, Option.bind_some, read, if_neg nonzero, strchr_iff, if_neg symbol,
      scan, Option.map_some, char_here (show s₁ + (spanWord false (c :: cs)).1.length ≤ n by omega)]
  · dsimp only
    rcases above.lt_or_eq with ahead | rfl
    · rw [before s ahead]
      exact skipped.zeros s (Nat.le_refl s) ahead
    · have suffix : c :: cs <:+ line := words ▸ List.dropWhile_suffix _
      have whole : c :: cs = line := suffix.eq_of_length (Nat.add_left_cancel ((holds_length rest).trans (holds_length held).symm))
      rw [← whole] at boundary
      exact absurd boundary ordinary

theorem gettoken_lexeme {cmd : Option Nat} {w : Lexeme} (here : CmdAt n cmd s line) (held : Holds n buf s line)
    (first : lex line = some w) : ∃ tok s', gettoken n buf cmd t = some tok ∧ tok.token = w.token ∧ s < s' ∧
      Fetched n buf s line tok s' w.rest ∧
      (w.token = 'w' → s ≤ tok.p2 ∧ Segment tok.buf tok.p2 (blanked w.run) ∧ tok.p2 + w.run.length = s' ∧ Boundary w.rest) := by
  rcases here with rfl | ⟨rfl, rfl, rfl⟩
  swap
  · cases first
  obtain ⟨buf₁, s₁, skipped⟩ := skipped_blanks held
  unfold lex at first
  cases words : line.dropWhile (· ∈ WHITESPACE) with
  | nil =>
    rw [words] at first
    cases first
  | cons c cs =>
    rw [words] at first
    dsimp only at first
    by_cases symbol : c ∈ SYMBOLS
    · rw [if_pos symbol] at first
      obtain rfl := Option.some.inj first
      obtain ⟨tok, s', got, token, later, fetched⟩ := @gettoken_symbol n s t buf line _ _ _ _ skipped words symbol
      refine ⟨tok, s', got, token, later, fetched, fun word => ?_⟩
      dsimp only at word
      rw [word] at symbol
      exact absurd symbol (by decide)
    · rw [if_neg symbol] at first
      obtain rfl := Option.some.inj first
      obtain ⟨tok, s', got, token, later, fetched, above, word, ends⟩ :=
        @gettoken_word n s t buf line _ _ _ _ skipped held words symbol
      exact ⟨tok, s', got, token, later, fetched, fun _ => ⟨above, word, ends, span_boundary⟩⟩

/- A word that was fetched: its end is marked, or it is where the line goes on. -/
structure Kept (buf : Buffer) (s : Nat) (line : List Char) (t : Nat) (w : Lexeme) : Prop where
  segment : Segment buf t (blanked w.run)
  ended : t + w.run.length < s ∧ buf (t + w.run.length) = '\x00' ∨ t + w.run.length = s ∧ Boundary line

theorem blanked_length : (blanked run).length = run.length := List.length_map _

theorem kept_segment {w : Lexeme} (kept : Kept buf s line t w) (before : ∀ i < s, buf' i = buf i) :
    Segment buf' t (blanked w.run) := by
  apply segment_frame _ kept.segment
  intro i _ below
  rw [blanked_length] at below
  rcases kept.ended with ⟨ended, _⟩ | ⟨ended, _⟩ <;> exact before i (by omega)

/- The next call marks the end. -/
theorem kept_mark {w : Lexeme} {tok : Token} {s' : Nat} (kept : Kept buf s line t w) (later : s < s')
    (fetched : Fetched n buf s line tok s' rest) : t + w.run.length < s' ∧ tok.buf (t + w.run.length) = '\x00' := by
  rcases kept.ended with ⟨ended, mark⟩ | ⟨ended, boundary⟩
  · exact ⟨by omega, (fetched.before _ ended).trans mark⟩
  · exact ⟨by omega, ended ▸ fetched.mark boundary⟩

theorem kept_fetched {w : Lexeme} {tok : Token} {s' : Nat} (kept : Kept buf s line t w) (later : s < s')
    (fetched : Fetched n buf s line tok s' rest) : Kept tok.buf s' rest t w :=
  ⟨kept_segment kept fetched.before, .inl (kept_mark kept later fetched)⟩

theorem kept_string {w : Lexeme} (segment : Segment buf t (blanked w.run)) (inside : t + w.run.length ≤ n)
    (mark : buf (t + w.run.length) = '\x00') : cstring n buf (n + 1) t = some (blanked w.run) :=
  cstring_word segment (by rw [blanked_length]; exact inside) (by rw [blanked_length]; exact mark)

theorem strings_read {argv : List Nat} {words : List Lexeme}
    (each : List.Forall₂ (fun t w => cstring n buf (n + 1) t = some (blanked w.run)) argv words) :
    argv.mapM (cstring n buf (n + 1)) = some (words.map fun w => blanked w.run) := by
  induction each with
  | nil => rfl
  | cons first _ ih =>
    rw [List.mapM_cons, first, ih]
    rfl

/- All words that were fetched are strings once the end of the last is marked. -/
theorem kept_strings {argv : List Nat} {words : List Lexeme} (kept : List.Forall₂ (Kept buf s line) argv words) (inside : s ≤ n)
    (before : ∀ i < s, buf' i = buf i) (mark : Boundary line → buf' s = '\x00') :
    argv.mapM (cstring n buf' (n + 1)) = some (words.map fun w => blanked w.run) := by
  refine strings_read (kept.imp fun t w word => ?_)
  rcases word.ended with ⟨ended, done⟩ | ⟨ended, boundary⟩
  · exact kept_string (kept_segment word before) (by omega) ((before _ ended).trans done)
  · exact kept_string (kept_segment word before) (by omega) (ended ▸ mark boundary)

theorem cd_name : blanked run = ['c', 'd'] ↔ run = ['c', 'd'] := by
  constructor
  · intro same
    have plain : blanked run = run := by
      rw [blanked_same]
      intro quote
      have blank : ' ' ∈ blanked run := List.mem_map.mpr ⟨'"', quote, rfl⟩
      rw [same] at blank
      exact absurd blank (by decide)
    exact plain.symm.trans same
  · rintro rfl
    rfl

theorem runit_uses (system : System) (left : Nat) (words : List Lexeme) :
    runit system left (words.map fun w => blanked w.run) = (commandUses system left words).map Use.seen := by
  cases words with
  | nil => rfl
  | cons name args =>
    rw [List.map_cons]
    unfold runit commandUses
    dsimp only
    by_cases cd : name.run = ['c', 'd']
    · rw [if_pos (cd_name.mpr cd), if_pos cd]
      match args with
      | [] => rfl
      | [_] => rfl
      | _ :: _ :: _ => rfl
    · rw [if_neg fun same => cd (cd_name.mp same), if_neg cd]
      cases system.testfile left <;> rfl

theorem redirect_uses (system : System) {cmd : Option Nat} {fd : Nat}
    {next : Buffer → Option Nat → Nat → Option (List Passed)} {nextUses : List Char → List Use} (here : CmdAt n cmd s line)
    (held : Holds n buf s line) (same : ∀ tok s' name, s < s' → Fetched n buf s line tok s' name.rest →
      next tok.buf tok.p1 tok.p2 = some ((nextUses (Lexeme.rest name)).map Use.seen)) :
    redirect system n next fd buf cmd t = some ((redirectUses system nextUses fd line).map Use.seen) := by
  unfold redirect redirectUses
  cases first : lex line with
  | none =>
    obtain ⟨⟨token, p1, p2, buf'⟩, got, rfl, _⟩ := @gettoken_end n s t buf line cmd here held first
    rw [got]
    rfl
  | some name =>
    obtain ⟨⟨token, p1, p2, buf'⟩, s', got, rfl, later, fetched, word⟩ := @gettoken_lexeme n s t buf line cmd name here held first
    have after := same ⟨name.token, p1, p2, buf'⟩ s' name later fetched
    rw [got]
    simp only [Option.bind_eq_bind, Option.bind_some]
    by_cases is_word : name.token = 'w'
    · obtain ⟨_, segment, ends, _⟩ := word is_word
      have follows : Holds n buf' (p2 + (blanked name.run).length) name.rest := by
        rw [blanked_length, ends]
        exact fetched.holds
      rw [if_neg (not_not_intro is_word), if_neg (not_not_intro is_word), cstring_open segment follows,
        cmd_left fetched.cmd fetched.holds]
      simp only [Option.bind_some]
      cases system.reopen name.rest.length with
      | false => rfl
      | true =>
        rw [if_pos rfl, if_pos rfl, after]
        rfl
    · rw [if_pos is_word, if_pos is_word]
      rfl

theorem lexeme_token {w : Lexeme} (first : lex line = some w) : w.token ≠ '\x00' := by
  have nul : '\x00' ∉ SYMBOLS := by decide
  unfold lex at first
  split at first
  · cases first
  · split_ifs at first with symbol
    · obtain rfl := Option.some.inj first
      exact fun same => nul (same ▸ symbol)
    · obtain rfl := Option.some.inj first
      exact (by decide : 'w' ≠ '\x00')

theorem runcmd_uses (system : System) {cmd : Option Nat} {argv : List Nat} {words : List Lexeme} (here : CmdAt n cmd s line)
    (held : Holds n buf s line) (kept : List.Forall₂ (Kept buf s line) argv words) (enough : line.length < fuel) :
    runcmd system n fuel buf cmd t argv = some ((uses system fuel line words).map Use.seen) := by
  induction fuel generalizing buf s line cmd t argv words with
  | zero => omega
  | succ fuel ih =>
    have length := holds_length held
    have inside : s ≤ n := by omega
    cases first : lex line with
    | none =>
      obtain ⟨⟨token, p1, p2, buf'⟩, got, rfl, left_over, before, mark⟩ := @gettoken_end n s t buf line cmd here held first
      dsimp only at left_over before mark
      have strings : argv.mapM (cstring n buf' (n + 1)) = _ := kept_strings kept inside before fun _ => mark
      rw [runcmd, got, uses, first]
      simp only [Option.bind_eq_bind, Option.bind_some, strings, Option.map_some, left_over, runit_uses]
      rfl
    | some w =>
      obtain ⟨⟨token, p1, p2, buf'⟩, s', got, rfl, later, fetched, word⟩ := @gettoken_lexeme n s t buf line cmd w here held first
      have length' := holds_length fetched.holds
      have words_kept : List.Forall₂ (Kept buf' s' w.rest) argv words := kept.imp fun t w keep => kept_fetched keep later fetched
      have strings : argv.mapM (cstring n buf' (n + 1)) = _ := kept_strings kept inside fetched.before fetched.mark
      have go : ∀ t argv words, List.Forall₂ (Kept buf' s' w.rest) argv words →
          runcmd system n fuel buf' p1 t argv = some ((uses system fuel w.rest words).map Use.seen) :=
        fun t argv words keep => ih fetched.cmd fetched.holds keep (by omega)
      have further : ∀ fd, redirect system n (fun buf cmd t => runcmd system n fuel buf cmd t argv) fd buf' p1 p2 =
          some ((redirectUses system (uses system fuel · words) fd w.rest).map Use.seen) := by
        intro fd
        refine redirect_uses system fetched.cmd fetched.holds fun tok s'' name later' fetched' => ?_
        have length'' := holds_length fetched'.holds
        exact ih fetched'.cmd fetched'.holds (words_kept.imp fun t w keep => kept_fetched keep later' fetched') (by omega)
      have left_over : left n p1 = w.rest.length := cmd_left fetched.cmd fetched.holds
      rw [runcmd, got, uses, first]
      simp only [Option.bind_eq_bind, Option.bind_some, strings, Option.map_some, left_over, runit_uses]
      by_cases is_word : w.token = 'w'
      · obtain ⟨_, segment, ends, boundary⟩ := word is_word
        rw [if_pos is_word, if_pos is_word, kept.length_eq]
        by_cases many : words.length = EXEC_MAX_ARG_NUM
        · rw [if_pos many, if_pos many]
          rfl
        · rw [if_neg many, if_neg many]
          exact go p2 _ _ (List.rel_append words_kept (.cons ⟨segment, .inr ⟨ends, boundary⟩⟩ .nil))
      rw [if_neg is_word, if_neg is_word]
      by_cases less : w.token = '<'
      · rw [if_pos less, if_pos less]
        exact further 0
      rw [if_neg less, if_neg less]
      by_cases greater : w.token = '>'
      · rw [if_pos greater, if_pos greater]
        exact further 1
      rw [if_neg greater, if_neg greater]
      by_cases pipe : w.token = '|'
      · rw [if_pos pipe, if_pos pipe, go p2 [] [] .nil]
        cases system.pipeChild w.rest.length <;> cases system.pipeParent w.rest.length <;> simp
      have not_end := lexeme_token first
      rw [if_neg pipe, if_neg pipe, if_neg not_end]
      by_cases semicolon : w.token = ';'
      · rw [if_pos semicolon, if_pos semicolon, go p2 [] [] .nil]
        cases system.fork w.rest.length <;> simp
      · rw [if_neg semicolon, if_neg semicolon]
        rfl

theorem holds_of_chars (length : s + line.length = n) (plain : '\x00' ∉ line) (ends : buf n = '\x00')
    (chars : ∀ i < line.length, buf (s + i) = line.getD i '\x00') : Holds n buf s line := by
  induction line generalizing s with
  | nil => exact ⟨length, ends⟩
  | cons c line ih =>
    rw [List.length_cons] at length chars
    obtain ⟨first, rest⟩ := not_or.mp (mt List.mem_cons.mpr plain)
    refine ⟨chars 0 (Nat.succ_pos _), Ne.symm first, ih (by omega) rest fun i below => ?_⟩
    rw [show s + 1 + i = s + (i + 1) by omega]
    exact chars (i + 1) (Nat.succ_lt_succ below)

theorem line_holds (l : Line) : Holds l.chars.length l.buffer 0 l.chars := by
  refine holds_of_chars (Nat.zero_add _) l.plain (List.getD_eq_default _ _ (Nat.le_refl _)) fun i _ => ?_
  rw [Nat.zero_add]
  rfl

/- Every line ends, within its NUL; what is passed on is what is on the line if the strings are plain. -/
theorem words_right_iff (system : System) (l : Line) : (∃ passed, l.run system = some passed) ∧
    (l.run system = some ((uses system (l.chars.length + 1) l.chars []).map Use.onLine) ↔
      ∀ u ∈ uses system (l.chars.length + 1) l.chars [], u.Plain) := by
  have ran : l.run system = some ((uses system (l.chars.length + 1) l.chars []).map Use.seen) :=
    runcmd_uses system (.inl rfl) (line_holds l) .nil (Nat.lt_succ_self _)
  refine ⟨⟨_, ran⟩, ?_⟩
  rw [ran, Option.some.injEq, List.map_inj_left]
  exact forall₂_congr fun u _ => plain_iff

end

def allRight : System := ⟨fun _ => true, fun _ => true, fun _ => true, fun _ => true, fun _ => .found⟩

/- The name `f` of `cat < f | g` is not ended when the file is opened. -/
theorem file_name_runs_on : ∃ l : Line, l.chars = "cat < f | g".toList ∧
    l.run allRight = some [.reopen 0 "f | g".toList, .testfile "cat".toList, .exec "cat".toList [],
      .testfile "g".toList, .exec "g".toList []] ∧
    l.run allRight ≠ some ((uses allRight (l.chars.length + 1) l.chars []).map Use.onLine) :=
  ⟨⟨"cat < f | g".toList, by decide⟩, rfl, by decide, by decide⟩

end Ucore.Sh
