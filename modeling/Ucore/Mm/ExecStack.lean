import Ucore.Mm.ExecArgs
import Ucore.Lib.ByteMemory

/- What `load_icode` leaves on the stack of the new program. -/
namespace Ucore.Exec
open Stopping ByteMemory
open CowFork (PGSIZE USTACKTOP USTACKSIZE ELF_MAGIC E_INVAL_ELF)

/- The arguments; `beside` is in the four bytes behind `argc` on the stack of the kernel. -/
def setupArgsBeside (beside : Nat) (kargv : List (List UInt8)) (entry : Nat) : LoadM TrapFrame := do
  let (sp, uargv) ← pushStrings kargv.reverse USTACKTOP []
  let sp := sp / 8 * 8
  let argvUser ← pushWords (0 :: uargv.reverse) sp
  let sp ← pushWords [kargv.length + 2 ^ 32 * beside] argvUser
  return ⟨sp, kargv.length, argvUser, entry⟩

def loadIcodeBeside (beside : Nat) (file : Binary) (kargv : List (List UInt8)) : LoadM (Int × Option TrapFrame) := do
  match ← loadImage file with
  | .error ret => return (ret, none)
  | .ok _ =>
      let tf ← setupArgsBeside beside kargv (eEntry file)
      return (0, some tf)

/-- The bytes of the user, with those that have no page. -/
def LoadState.view (s : LoadState) : Nat → Option UInt8 := fun a =>
  if a < 2 ^ 39 then (s.pages (entry a)).map fun frame => frame (a % PGSIZE) else none

/-- `src` is stored from `addr` on, and nothing else changes. -/
structure Puts (s : LoadState) (addr : Nat) (src : List UInt8) (t : LoadState) : Prop where
  same : SameMap s t
  view : t.view = put s.view addr src

def stringsBytes (kargv : List (List UInt8)) : Nat := (kargv.map fun arg => arg.length + 1).sum

/-- The bytes from the top of the stack down to `sp`. -/
def pushedBytes (kargv : List (List UInt8)) : Nat := (stringsBytes kargv + 7) / 8 * 8 + 8 * (kargv.length + 2)

/-- Where string `i` begins when the last one ends at `top`. -/
def stringStart (kargv : List (List UInt8)) (top i : Nat) : Nat := top - stringsBytes (kargv.drop i)

def starts (kargv : List (List UInt8)) (top : Nat) : List Nat := (List.range kargv.length).map (stringStart kargv top)

/-- The strings, each with the zero that ends it. -/
def stringBytes (kargv : List (List UInt8)) : List UInt8 := (kargv.map (· ++ [0])).flatten

def wordBytes (words : List Nat) : List UInt8 := (words.map uintptrBytes).flatten

/- `argc` is an `int`. -/
def intBytes (n : Nat) : List UInt8 := (List.range 4).map fun i => (n / 256 ^ i).toUInt8

/-- The words from `argc` to the null behind the pointers. -/
def stackWords (beside : Nat) (kargv : List (List UInt8)) : List Nat :=
  (kargv.length + 2 ^ 32 * beside) :: (starts kargv USTACKTOP ++ [0])

def stringRange (kargv : List (List UInt8)) (i : Nat) : Nat × Nat :=
  (stringStart kargv USTACKTOP i, stringStart kargv USTACKTOP (i + 1))

/-- Where `argc`, the pointers and the strings are. -/
def stackItems (kargv : List (List UInt8)) (sp : Nat) : List (Nat × Nat) :=
  (sp, sp + 8) :: (sp + 8, sp + 8 + 8 * (kargv.length + 1)) :: (List.range kargv.length).map (stringRange kargv)

/-- The string `str` lies from `addr` on, with the zero that ends it. -/
def CString (s : Nat → Option UInt8) (addr : Nat) (str : List UInt8) : Prop := 0 ∉ str ∧ Has s addr (str ++ [0])

/-- The stack that a program with the arguments `kargv` starts with; `u` is the state before they are stored. -/
structure StackLayout (kargv : List (List UInt8)) (u t : LoadState) (tf : TrapFrame) : Prop where
  aligned : tf.sp % 8 = 0
  argc : kargv.length < 2 ^ 31 ∧ Has t.view tf.sp (intBytes kargv.length)
  args : tf.a0 = kargv.length ∧ tf.a1 = tf.sp + 8
  pointers : ∀ i (inside : i < kargv.length), ∃ p, Has t.view (tf.a1 + 8 * i) (uintptrBytes p) ∧
    CString t.view p kargv[i] ∧ (p, p + (kargv[i].length + 1)) = stringRange kargv i
  null : Has t.view (tf.a1 + 8 * kargv.length) (uintptrBytes 0)
  apart : (stackItems kargv tf.sp).Pairwise fun first second => first.2 ≤ second.1
  inside : ∀ item ∈ stackItems kargv tf.sp, USTACKTOP - 4 * PGSIZE ≤ item.1 ∧ item.1 < item.2 ∧ item.2 ≤ USTACKTOP
  frame : ∀ a, (∀ item ∈ stackItems kargv tf.sp, a < item.1 ∨ item.2 ≤ a) → t.view a = u.view a
  same : SameMap u t

section
variable {s t u : LoadState} {addr low mid : Nat} {src x y : List UInt8}

theorem puts_nothing : Puts s addr [] s := ⟨same_map_refl, put_nil.symm⟩

theorem puts_trans (first : Puts s (addr + x.length) y t) (second : Puts t addr x u) : Puts s addr (x ++ y) u :=
  ⟨first.same.trans second.same, by rw [second.view, first.view, ← put_comm le_rfl, put_append]⟩

theorem view_user {a : Nat} (user : a < 2 ^ 39) :
    s.view a = (s.pages (entry a)).map fun frame => frame (a % PGSIZE) :=
  if_pos user

theorem set_byte_puts {byte : UInt8} (user : addr < 2 ^ 39) (here : (s.pages (entry addr)).isSome) :
    Puts s addr [byte] (s.setByte addr byte) := by
  refine ⟨set_byte_same, funext fun a => ?_⟩
  have page : (s.setByte addr byte).pages (entry addr)
      = (s.pages (entry addr)).map fun frame => Function.update frame (addr % PGSIZE) byte := if_pos rfl
  by_cases same : a = addr
  · subst a
    obtain ⟨frame, is⟩ := Option.isSome_iff_exists.mp here
    have now : put s.view addr [byte] addr = some byte := by
      rw [show put s.view addr [byte] addr = [byte][addr - addr]? from if_pos (by simp), Nat.sub_self]
      rfl
    rw [view_user user, page, is, now, Option.map_some, Option.map_some, Function.update_self]
  · rw [put_outside (by rw [List.length_singleton]; omega)]
    by_cases inside : a < 2 ^ 39
    · rw [view_user inside, view_user inside]
      by_cases beside : entry a = entry addr
      · have offset : a % PGSIZE ≠ addr % PGSIZE := by
          unfold entry PGSIZE at *
          omega
        rw [beside, page, Option.map_map]
        refine congrArg (fun f => (s.pages (entry addr)).map f) (funext fun frame => ?_)
        exact Function.update_of_ne offset _ _
      · rw [show (s.setByte addr byte).pages (entry a) = s.pages (entry a) from if_neg beside]
    · exact (if_neg inside).trans (if_neg inside).symm

theorem set_bytes_puts (bytes : List UInt8) : ∀ {s : LoadState} {addr : Nat}, Backed s addr (addr + bytes.length) →
    addr + bytes.length ≤ 2 ^ 39 → Puts s addr bytes (s.setBytes addr bytes) := by
  induction bytes with
  | nil => exact fun _ _ => puts_nothing
  | cons byte rest ih =>
    intro s addr backed user
    rw [List.length_cons] at backed user
    have stored := @set_byte_puts s addr byte (by omega) (backed addr le_rfl (by omega))
    have later := @ih (s.setByte addr byte) (addr + 1)
      ((backed_same stored.same).mpr fun a from_low to_high => backed a (by omega) (by omega)) (by omega)
    refine ⟨stored.same.trans later.same, ?_⟩
    change ((s.setByte addr byte).setBytes (addr + 1) rest).view = _
    rw [later.view, stored.view]
    exact put_append (x := [byte])

/- Where there are pages, the copy stores what it is asked to. -/
theorem memcpy_run (src : List UInt8) : ∀ {s : LoadState} {addr : Nat}, Backed s addr (addr + src.length) →
    memcpy addr src s = .ok () (s.setBytes addr src) := by
  induction src with
  | nil => exact fun _ => rfl
  | cons byte rest ih =>
    intro s addr backed
    rw [List.length_cons] at backed
    have here : (s.pages (entry addr)).isSome := backed addr le_rfl (by omega)
    unfold memcpy
    rw [run_bind (show (get : LoadM LoadState) s = .ok s s from rfl), run_check_bind here,
      run_bind (show (set (s.setByte addr byte) : LoadM PUnit) s = .ok ⟨⟩ (s.setByte addr byte) from rfl)]
    exact @ih (s.setByte addr byte) (addr + 1)
      ((backed_same set_byte_same).mpr fun a from_low to_high => backed a (by omega) (by omega))

/- The lowest of the four pages of the stack. -/
def stackLow : Nat := USTACKTOP - 4 * PGSIZE

theorem push_run (mem : stackVma ∈ s.mm.mmapList) (backed : Backed s stackLow USTACKTOP) (some_bytes : src ≠ [])
    (inside : stackLow ≤ addr) (top : addr + src.length ≤ USTACKTOP) :
    ∃ t, push addr src s = .ok () t ∧ Puts s addr src t := by
  have checked := stack_checked mem (List.length_pos_iff.mpr some_bytes)
    (by unfold stackLow at inside; unfold USTACKTOP USTACKSIZE PGSIZE CowFork.USERTOP at *; omega) top
  have pages : Backed s addr (addr + src.length) := fun a from_low to_high => backed a (by omega) (by omega)
  refine ⟨_, ?_, set_bytes_puts src pages (by unfold USTACKTOP CowFork.USERTOP at top; omega)⟩
  have copied : copyToUser addr src s = .ok true (s.setBytes addr src) := by
    unfold copyToUser
    rw [run_bind (show (get : LoadM LoadState) s = .ok s s from rfl), checked]
    change (memcpy addr src >>= _) s = _
    rw [run_bind (memcpy_run src pages)]
    rfl
  unfold push
  rw [run_bind copied]
  rfl

theorem strings_bytes_append (kargv rest : List (List UInt8)) :
    stringsBytes (kargv ++ rest) = stringsBytes kargv + stringsBytes rest := by
  unfold stringsBytes
  rw [List.map_append, List.sum_append]

theorem strings_bytes_reverse (kargv : List (List UInt8)) : stringsBytes kargv.reverse = stringsBytes kargv := by
  unfold stringsBytes
  rw [List.map_reverse, List.sum_reverse]

theorem string_bytes_length (kargv : List (List UInt8)) : (stringBytes kargv).length = stringsBytes kargv := by
  unfold stringBytes stringsBytes
  rw [List.length_flatten, List.map_map]
  exact congrArg List.sum (List.map_congr_left fun arg _ => List.length_append)

theorem uintptr_bytes_length (n : Nat) : (uintptrBytes n).length = 8 := by
  unfold uintptrBytes
  rw [List.length_map, List.length_range]

theorem word_bytes_length (words : List Nat) : (wordBytes words).length = 8 * words.length := by
  induction words with
  | nil => rfl
  | cons n rest ih =>
    unfold wordBytes at ih ⊢
    rw [List.map_cons, List.flatten_cons, List.length_append, ih, uintptr_bytes_length, List.length_cons]
    omega

/- The strings in front of the last one end where it begins. -/
theorem starts_concat (kargv : List (List UInt8)) (arg : List UInt8) (top : Nat) :
    starts (kargv ++ [arg]) top = starts kargv (top - (arg.length + 1)) ++ [top - (arg.length + 1)] := by
  have last : stringsBytes [arg] = arg.length + 1 := Nat.add_zero _
  unfold starts
  rw [List.length_append, List.length_singleton, List.range_succ, List.map_append, List.map_singleton]
  congr 1
  · refine List.map_congr_left fun i inside => ?_
    unfold stringStart
    rw [List.drop_append_of_le_length (List.mem_range.mp inside).le, strings_bytes_append, last, Nat.sub_sub, Nat.add_comm]
  · unfold stringStart
    rw [List.drop_left, last]

theorem push_strings_run (rest : List (List UInt8)) : ∀ {s : LoadState} {sp : Nat} {uargv : List Nat},
    stackVma ∈ s.mm.mmapList → Backed s stackLow USTACKTOP → sp ≤ USTACKTOP → stackLow + stringsBytes rest ≤ sp →
    ∃ t, pushStrings rest sp uargv s = .ok (sp - stringsBytes rest, starts rest.reverse sp ++ uargv) t ∧
      Puts s (sp - stringsBytes rest) (stringBytes rest.reverse) t := by
  induction rest with
  | nil =>
    intro s sp uargv _ _ _ _
    exact ⟨s, rfl, puts_nothing⟩
  | cons arg rest ih =>
    intro s sp uargv mem backed top room
    have split : stringsBytes (arg :: rest) = arg.length + 1 + stringsBytes rest := List.sum_cons
    have length : (arg ++ [0]).length = arg.length + 1 := List.length_append
    rw [split] at room ⊢
    obtain ⟨t, pushed, first⟩ := @push_run s (sp - (arg.length + 1)) (arg ++ [0]) mem backed
      (List.append_ne_nil_of_right_ne_nil _ (List.cons_ne_nil _ _)) (by omega) (by omega)
    obtain ⟨u, ran, later⟩ := @ih t (sp - (arg.length + 1)) ((sp - (arg.length + 1)) :: uargv)
      (by rw [first.same.mm]; exact mem) ((backed_same first.same).mpr backed) (by omega) (by omega)
    refine ⟨u, ?_, ?_⟩
    · unfold pushStrings
      rw [run_bind pushed, ran, Nat.sub_sub, List.reverse_cons, starts_concat, List.append_assoc]
      rfl
    · have whole : stringBytes (arg :: rest).reverse = stringBytes rest.reverse ++ (arg ++ [0]) := by
        unfold stringBytes
        rw [List.reverse_cons, List.map_append, List.flatten_append, List.map_singleton, List.flatten_singleton]
      rw [Nat.sub_sub] at later
      have between : sp - (arg.length + 1) = sp - (arg.length + 1 + stringsBytes rest) + (stringBytes rest.reverse).length := by
        rw [string_bytes_length, strings_bytes_reverse]
        omega
      rw [between] at first
      rw [whole]
      exact puts_trans first later

theorem push_words_run (rest : List Nat) : ∀ {s : LoadState} {sp : Nat}, stackVma ∈ s.mm.mmapList →
    Backed s stackLow USTACKTOP → sp ≤ USTACKTOP → stackLow + 8 * rest.length ≤ sp →
    ∃ t, pushWords rest sp s = .ok (sp - 8 * rest.length) t ∧
      Puts s (sp - 8 * rest.length) (wordBytes rest.reverse) t := by
  induction rest with
  | nil =>
    intro s sp _ _ _ _
    exact ⟨s, rfl, puts_nothing⟩
  | cons n rest ih =>
    intro s sp mem backed top room
    have length := uintptr_bytes_length n
    rw [List.length_cons] at room ⊢
    obtain ⟨t, pushed, first⟩ := @push_run s (sp - 8) (uintptrBytes n) mem backed
      (List.ne_nil_of_length_pos (by omega)) (by omega) (by omega)
    obtain ⟨u, ran, later⟩ := @ih t (sp - 8) (by rw [first.same.mm]; exact mem) ((backed_same first.same).mpr backed)
      (by omega) (by omega)
    rw [Nat.sub_sub, show 8 + 8 * rest.length = 8 * (rest.length + 1) by omega] at ran later
    refine ⟨u, ?_, ?_⟩
    · unfold pushWords
      rw [run_bind pushed]
      exact ran
    · have whole : wordBytes (n :: rest).reverse = wordBytes rest.reverse ++ uintptrBytes n := by
        unfold wordBytes
        rw [List.reverse_cons, List.map_append, List.flatten_append, List.map_singleton, List.flatten_singleton]
      have between : sp - 8 = sp - 8 * (rest.length + 1) + (wordBytes rest.reverse).length := by
        rw [word_bytes_length, List.length_reverse]
        omega
      rw [between] at first
      rw [whole]
      exact puts_trans first later

theorem string_start_next {kargv : List (List UInt8)} {top i : Nat} (room : stringsBytes kargv ≤ top)
    (inside : i < kargv.length) : stringStart kargv top i + (kargv[i].length + 1) = stringStart kargv top (i + 1) := by
  have here : stringsBytes (kargv.drop i) = kargv[i].length + 1 + stringsBytes (kargv.drop (i + 1)) := by
    rw [List.drop_eq_getElem_cons inside]
    exact List.sum_cons
  have whole : stringsBytes kargv = stringsBytes (kargv.take i) + stringsBytes (kargv.drop i) := by
    rw [← strings_bytes_append, List.take_append_drop]
  unfold stringStart
  omega

theorem string_starts_ordered {kargv : List (List UInt8)} {top i j : Nat} (before : i ≤ j) :
    stringStart kargv top i ≤ stringStart kargv top j := by
  have more : stringsBytes (kargv.drop i) = stringsBytes ((kargv.drop i).take (j - i)) + stringsBytes (kargv.drop j) := by
    rw [← strings_bytes_append, show j = i + (j - i) by omega, ← List.drop_drop, Nat.add_sub_cancel_left,
      List.take_append_drop]
  unfold stringStart
  omega

/- The first string begins and the last one ends where the strings do. -/
theorem string_start_ends (kargv : List (List UInt8)) (top : Nat) :
    stringStart kargv top 0 = top - stringsBytes kargv ∧ stringStart kargv top kargv.length = top := by
  unfold stringStart
  rw [List.drop_length]
  exact ⟨rfl, rfl⟩

/- Every byte of the strings is in one. -/
theorem in_some_string {kargv : List (List UInt8)} {top a : Nat} (n : Nat) (from_first : stringStart kargv top 0 ≤ a)
    (before : a < stringStart kargv top n) :
    ∃ i < n, stringStart kargv top i ≤ a ∧ a < stringStart kargv top (i + 1) := by
  induction n with
  | zero => omega
  | succ n ih =>
    by_cases last : stringStart kargv top n ≤ a
    · exact ⟨n, n.lt_succ_self, last, before⟩
    · obtain ⟨i, earlier, here⟩ := ih (not_le.mp last)
      exact ⟨i, Nat.lt_succ_of_lt earlier, here⟩

/- The strings, the words below them, and nothing else. -/
structure Stored (beside : Nat) (kargv : List (List UInt8)) (sp : Nat) (u t : LoadState) : Prop where
  same : SameMap u t
  view : t.view = put (put u.view (stringStart kargv USTACKTOP 0) (stringBytes kargv)) sp
    (wordBytes (stackWords beside kargv))

theorem setup_args_run {beside : Nat} {kargv : List (List UInt8)} (entry : Nat) (mem : stackVma ∈ u.mm.mmapList)
    (backed : Backed u stackLow USTACKTOP) (fits : pushedBytes kargv ≤ 4 * PGSIZE) :
    ∃ t, setupArgsBeside beside kargv entry u =
        .ok ⟨USTACKTOP - pushedBytes kargv, kargv.length, USTACKTOP - pushedBytes kargv + 8, entry⟩ t ∧
      Stored beside kargv (USTACKTOP - pushedBytes kargv) u t := by
  have reversed := strings_bytes_reverse kargv
  have length : (starts kargv USTACKTOP).length = kargv.length := by
    unfold starts
    rw [List.length_map, List.length_range]
  have words : (0 :: (starts kargv USTACKTOP).reverse).length = kargv.length + 1 := by
    rw [List.length_cons, List.length_reverse, length]
  unfold pushedBytes at fits ⊢
  have ⟨room, below⟩ : stackLow + stringsBytes kargv ≤ USTACKTOP ∧ (USTACKTOP - stringsBytes kargv) / 8 * 8
      = USTACKTOP - (stringsBytes kargv + 7) / 8 * 8 := by
    unfold stackLow USTACKTOP PGSIZE CowFork.USERTOP at *
    omega
  have low : stackLow + ((stringsBytes kargv + 7) / 8 * 8 + 8 * (kargv.length + 2)) ≤ USTACKTOP := by
    unfold stackLow USTACKTOP PGSIZE CowFork.USERTOP at *
    omega
  obtain ⟨sp, sp_is⟩ : ∃ sp, sp = USTACKTOP - (stringsBytes kargv + 7) / 8 * 8 := ⟨_, rfl⟩
  obtain ⟨first, strings_ran, strings⟩ := @push_strings_run kargv.reverse u USTACKTOP [] mem backed le_rfl
    (by rw [reversed]; exact room)
  rw [reversed, List.reverse_reverse] at strings_ran strings
  rw [List.append_nil] at strings_ran
  obtain ⟨second, words_ran, pointers⟩ := @push_words_run (0 :: (starts kargv USTACKTOP).reverse) first sp
    (by rw [strings.same.mm]; exact mem) ((backed_same strings.same).mpr backed) (by omega) (by rw [words]; omega)
  rw [words] at words_ran pointers
  rw [List.reverse_cons, List.reverse_reverse] at pointers
  have same := strings.same.trans pointers.same
  obtain ⟨third, argc_ran, argc⟩ := @push_words_run [kargv.length + 2 ^ 32 * beside] second (sp - 8 * (kargv.length + 1))
    (by rw [same.mm]; exact mem) ((backed_same same).mpr backed) (by omega) (by rw [List.length_singleton]; omega)
  rw [List.length_singleton] at argc_ran argc
  have argv : sp - 8 * (kargv.length + 1)
      = USTACKTOP - ((stringsBytes kargv + 7) / 8 * 8 + 8 * (kargv.length + 2)) + 8 := by omega
  have final : sp - 8 * (kargv.length + 1) - 8 * 1
      = USTACKTOP - ((stringsBytes kargv + 7) / 8 * 8 + 8 * (kargv.length + 2)) := by omega
  refine ⟨third, ?_, same.trans argc.same, ?_⟩
  · unfold setupArgsBeside
    rw [run_bind strings_ran]
    dsimp only
    rw [below, ← sp_is, run_bind words_ran, run_bind argc_ran, final, argv]
    rfl
  · have one : wordBytes [kargv.length + 2 ^ 32 * beside].reverse = uintptrBytes (kargv.length + 2 ^ 32 * beside) :=
      List.append_nil _
    have whole : wordBytes (stackWords beside kargv)
        = uintptrBytes (kargv.length + 2 ^ 32 * beside) ++ wordBytes (starts kargv USTACKTOP ++ [0]) := rfl
    have above : sp - 8 * (kargv.length + 1) = USTACKTOP - ((stringsBytes kargv + 7) / 8 * 8 + 8 * (kargv.length + 2))
        + (uintptrBytes (kargv.length + 2 ^ 32 * beside)).length := by
      rw [uintptr_bytes_length]
      exact argv
    rw [final, one] at argc
    rw [above] at pointers
    rw [whole, (puts_trans pointers argc).view, strings.view, (string_start_ends kargv USTACKTOP).1]

theorem words_at {s : Nat → Option UInt8} {words : List Nat} (has : Has s addr (wordBytes words)) {i : Nat}
    (inside : i < words.length) : Has s (addr + 8 * i) (uintptrBytes words[i]) := by
  have piece := has_flatten _ has i (by rw [List.length_map]; exact inside)
  rw [← List.map_take, List.getElem_map] at piece
  have before : ((words.take i).map uintptrBytes).flatten.length = 8 * i := by
    have length := word_bytes_length (words.take i)
    rwa [List.length_take, Nat.min_eq_left inside.le] at length
  rwa [before] at piece

theorem string_at {s : Nat → Option UInt8} {kargv : List (List UInt8)} {top : Nat} (room : stringsBytes kargv ≤ top)
    (has : Has s (stringStart kargv top 0) (stringBytes kargv)) {i : Nat} (inside : i < kargv.length) :
    Has s (stringStart kargv top i) (kargv[i] ++ [0]) := by
  have piece := has_flatten _ has i (by rw [List.length_map]; exact inside)
  rw [← List.map_take, List.getElem_map] at piece
  have before : ((kargv.take i).map (· ++ [0])).flatten.length = stringsBytes (kargv.take i) := string_bytes_length _
  have whole : stringsBytes kargv = stringsBytes (kargv.take i) + stringsBytes (kargv.drop i) := by
    rw [← strings_bytes_append, List.take_append_drop]
  have here : stringStart kargv top 0 + stringsBytes (kargv.take i) = stringStart kargv top i := by
    unfold stringStart
    rw [List.drop_zero]
    omega
  rwa [before, here] at piece

/- The low four bytes do not depend on what is beside them. -/
theorem int_bytes_low (n beside : Nat) : (uintptrBytes (n + 2 ^ 32 * beside)).take 4 = intBytes n := by
  unfold uintptrBytes intBytes
  rw [← List.map_take, List.take_range, Nat.min_eq_left (by decide)]
  refine List.map_congr_left fun i inside => ?_
  have low := List.mem_range.mp inside
  apply UInt8.toNat_inj.mp
  change (UInt8.ofNat _).toNat = (UInt8.ofNat _).toNat
  rw [UInt8.toNat_ofNat', UInt8.toNat_ofNat']
  interval_cases i <;> omega

theorem item_cases {kargv : List (List UInt8)} {sp : Nat} {P : Nat × Nat → Prop} :
    (∀ item ∈ stackItems kargv sp, P item) ↔ P (sp, sp + 8) ∧ P (sp + 8, sp + 8 + 8 * (kargv.length + 1)) ∧
      ∀ i < kargv.length, P (stringRange kargv i) := by
  unfold stackItems
  rw [List.forall_mem_cons, List.forall_mem_cons]
  simp only [List.mem_map, List.mem_range, forall_exists_index, and_imp, forall_apply_eq_imp_iff₂]

theorem stored_layout {beside entry : Nat} {kargv : List (List UInt8)}
    (few : kargv.length ≤ EXEC_MAX_ARG_NUM) (strings : ∀ arg ∈ kargv, 0 ∉ arg) (fits : pushedBytes kargv ≤ 4 * PGSIZE)
    (stored : Stored beside kargv (USTACKTOP - pushedBytes kargv) u t) :
    StackLayout kargv u t
      ⟨USTACKTOP - pushedBytes kargv, kargv.length, USTACKTOP - pushedBytes kargv + 8, entry⟩ := by
  obtain ⟨sp, sp_is⟩ : ∃ sp, sp = USTACKTOP - pushedBytes kargv := ⟨_, rfl⟩
  rw [← sp_is] at stored ⊢
  obtain ⟨first, last⟩ := string_start_ends kargv USTACKTOP
  have ⟨lowest, whole, below, word⟩ : USTACKTOP - 4 * PGSIZE ≤ sp ∧ stringsBytes kargv ≤ USTACKTOP ∧
      sp + 8 * (kargv.length + 2) ≤ stringStart kargv USTACKTOP 0 ∧ sp % 8 = 0 := by
    rw [first]
    unfold pushedBytes at fits sp_is
    unfold USTACKTOP PGSIZE CowFork.USERTOP at *
    omega
  have length : (starts kargv USTACKTOP).length = kargv.length := by
    unfold starts
    rw [List.length_map, List.length_range]
  have count : (stackWords beside kargv).length = kargv.length + 2 := by
    unfold stackWords
    rw [List.length_cons, List.length_append, length]
    rfl
  have bytes : sp + (wordBytes (stackWords beside kargv)).length ≤ stringStart kargv USTACKTOP 0 := by
    rw [word_bytes_length, count]
    exact below
  have from_first (i : Nat) : stringStart kargv USTACKTOP 0 ≤ stringStart kargv USTACKTOP i :=
    string_starts_ordered i.zero_le
  have next {i : Nat} (inside : i < kargv.length) :
      stringStart kargv USTACKTOP i + (kargv[i].length + 1) = stringStart kargv USTACKTOP (i + 1) :=
    string_start_next whole inside
  have top {i : Nat} (inside : i < kargv.length) : stringStart kargv USTACKTOP (i + 1) ≤ USTACKTOP :=
    (string_starts_ordered inside).trans_eq last
  have words : Has t.view sp (wordBytes (stackWords beside kargv)) := by
    rw [stored.view]
    exact put_has
  have copies : Has t.view (stringStart kargv USTACKTOP 0) (stringBytes kargv) := by
    rw [stored.view]
    exact has_put put_has (.inr bytes)
  constructor
  case aligned => exact word
  case argc =>
    have here := words_at words (i := 0) (by omega)
    rw [← List.take_append_drop 4 (uintptrBytes _)] at here
    rw [← int_bytes_low kargv.length beside]
    refine ⟨?_, (has_append.mp here).1⟩
    unfold EXEC_MAX_ARG_NUM at few
    omega
  case args => exact ⟨rfl, rfl⟩
  case pointers =>
    intro i inside
    have pointer : (stackWords beside kargv)[i + 1] = stringStart kargv USTACKTOP i := by
      unfold stackWords
      rw [List.getElem_cons_succ, List.getElem_append_left (by omega)]
      unfold starts
      rw [List.getElem_map, List.getElem_range]
    have here := words_at words (i := i + 1) (by omega)
    rw [pointer, show sp + 8 * (i + 1) = sp + 8 + 8 * i by omega] at here
    refine ⟨stringStart kargv USTACKTOP i, here, ⟨strings _ (List.getElem_mem inside), string_at whole copies inside⟩, ?_⟩
    rw [next inside]
    rfl
  case null =>
    have zero : (stackWords beside kargv)[kargv.length + 1] = 0 := by
      unfold stackWords
      rw [List.getElem_cons_succ, List.getElem_append_right (by omega)]
      exact List.getElem_singleton _
    have here := words_at words (i := kargv.length + 1) (by omega)
    rwa [zero, show sp + 8 * (kargv.length + 1) = sp + 8 + 8 * kargv.length by omega] at here
  case apart =>
    unfold stackItems
    refine List.pairwise_cons.mpr ⟨fun item mem => ?_, List.pairwise_cons.mpr ⟨fun item mem => ?_, ?_⟩⟩
    · rcases List.mem_cons.mp mem with rfl | string
      · exact le_rfl
      · obtain ⟨i, -, rfl⟩ := List.mem_map.mp string
        have := from_first i
        unfold stringRange
        dsimp only
        omega
    · obtain ⟨i, -, rfl⟩ := List.mem_map.mp mem
      have := from_first i
      unfold stringRange
      dsimp only
      omega
    · exact List.pairwise_map.mpr (List.pairwise_lt_range.imp fun before => string_starts_ordered before)
  case inside =>
    refine item_cases.mpr ⟨?_, ?_, fun i inside => ?_⟩
    · dsimp only
      omega
    · dsimp only
      omega
    · have := from_first i
      have := next inside
      have := top inside
      unfold stringRange
      omega
  case frame =>
    intro a outside
    obtain ⟨argc, pointers, strings⟩ := item_cases.mp outside
    dsimp only at argc pointers
    have above : a < stringStart kargv USTACKTOP 0 ∨ USTACKTOP ≤ a := by
      by_contra inside
      obtain ⟨i, string, here, before⟩ := in_some_string kargv.length (not_lt.mp (not_or.mp inside).1)
        (last.symm ▸ not_le.mp (not_or.mp inside).2)
      have := strings i string
      unfold stringRange at this
      omega
    have size := word_bytes_length (stackWords beside kargv)
    rw [stored.view, put_outside (by omega), put_outside (by rw [string_bytes_length]; omega)]
  case same => exact stored.same

/- The arguments of `do_execve` are such arguments. -/
theorem load_icode_beside (file : Binary) (args : ArgList) : loadIcodeBeside 0 file args.kargv = loadIcode file args :=
  rfl

/- A segment of 16 bytes of the file on both sides of a page boundary. -/
def twoPageElf : Binary where
  bytes := [0x7F, 0x45, 0x4C, 0x46] ++ List.replicate 28 0 ++ [64] ++ List.replicate 23 0 ++ [1] ++ List.replicate 7 0 ++
    [1, 0, 0, 0, 4, 0, 0, 0] ++ List.replicate 8 0 ++ [0xF8, 0x0F, 0x80, 0, 0, 0, 0, 0] ++ List.replicate 8 0 ++
    [16, 0, 0, 0, 0, 0, 0, 0] ++ [16, 0, 0, 0, 0, 0, 0, 0] ++ List.replicate 8 0
  fits := by decide

end
end Ucore.Exec
