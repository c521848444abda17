import Ucore.Lib.Words
import Ucore.Libs.Error

/- lab8/libs/printfmt.c. A character is a byte; `σ` is what `putdat` points to. -/
namespace Ucore.Printfmt
open Words

def MAXERROR : Int := 24

def errorString : Nat → Option String
  | 1 => some "unspecified error"
  | 2 => some "bad process"
  | 3 => some "invalid parameter"
  | 4 => some "out of memory"
  | 5 => some "out of processes"
  | 6 => some "segmentation fault"
  | 8 => some "invalid elf file"
  | 9 => some "process is killed"
  | 10 => some "panic failure"
  | 13 => some "no such device"
  | 14 => some "device not available"
  | 15 => some "device/file is busy"
  | 16 => some "no such file or directory"
  | 17 => some "is a directory"
  | 18 => some "not a directory"
  | 19 => some "cross device link"
  | 20 => some "unimplemented feature"
  | 21 => some "illegal seek"
  | 22 => some "too many files are open"
  | 23 => some "file or directory already exists"
  | 24 => some "directory is not empty"
  | _ => none

/- An argument, and the string that it points to if it is taken as a `char *` other than NULL. -/
structure Slot where
  word : BitVec 64
  pointee : List Char

abbrev Args := Nat → Slot

def Slot.int (a : Slot) : Int := (a.word.setWidth 32).toInt

/- `fmt[i]`. A NUL follows the characters, and nothing behind it may be read. -/
def charAt (fmt : List Char) (i : Nat) : Option Char := if i ≤ fmt.length then some (fmt.getD i '\x00') else none

section
variable {σ : Type} (putch : Char → σ → σ)

def putMany (ch : Char) : Nat → σ → σ
  | 0, s => s
  | n + 1, s => putMany ch n (putch ch s)

def digitChar (d : Nat) : Char := "0123456789abcdef".toList.getD d '\x00'

/- A call takes a digit off `num`; after 65 of them the recursion would not have ended. -/
def printnum (base : Nat) (padc : Char) : Nat → Nat → Int → σ → Option σ
  | 0, _, _, _ => none
  | fuel + 1, num, width, s => do
      let s ←
        if num ≥ base then printnum base padc fuel (num / base) (i32 (width - 1)) s
        else some (putMany putch padc (i32 (width - 1)).toNat s)
      some (putch (digitChar (num % base)) s)

def getuint (a : Slot) (lflag : Int) : BitVec 64 :=
  if lflag ≥ 2 then a.word else if lflag ≠ 0 then a.word else (a.word.setWidth 32).setWidth 64

def getint (a : Slot) (lflag : Int) : BitVec 64 :=
  if lflag ≥ 2 then a.word else if lflag ≠ 0 then a.word else (a.word.setWidth 32).signExtend 64

structure Flags where
  padc : Char := ' '
  width : Int := -1
  precision : Int := -1
  lflag : Int := 0
  altflag : Bool := false

def processPrecision (f : Flags) (precision : Int) : Flags :=
  if f.width < 0 then { f with width := precision, precision := -1 } else { f with precision }

/- The digits of a field width: `ch` is the one before `fmt[i]`. -/
def widthField (fmt : List Char) : Nat → Nat → Char → Int → Option (Int × Nat)
  | 0, _, _, _ => none
  | fuel + 1, i, ch, precision => do
      let precision := i32 (precision * 10 + ch.toNat - '0'.toNat)
      let ch ← charAt fmt i
      if ch < '0' ∨ '9' < ch then some (precision, i) else widthField fmt fuel (i + 1) ch precision

structure Conversion where
  ch : Char
  flags : Flags
  next : Nat
  arg : Nat

/- The switch up to a character that is no flag. `arg` counts the arguments that were taken. -/
def reswitch (fmt : List Char) (args : Args) : Nat → Nat → Flags → Nat → Option Conversion
  | 0, _, _, _ => none
  | fuel + 1, i, f, arg => do
      let ch ← charAt fmt i
      if ch = '-' then reswitch fmt args fuel (i + 1) { f with padc := '-' } arg
      else if ch = '0' then reswitch fmt args fuel (i + 1) { f with padc := '0' } arg
      else if '1' ≤ ch ∧ ch ≤ '9' then do
        let (precision, i) ← widthField fmt (fmt.length + 1) (i + 1) ch 0
        reswitch fmt args fuel i (processPrecision f precision) arg
      else if ch = '*' then reswitch fmt args fuel (i + 1) (processPrecision f (args arg).int) (arg + 1)
      else if ch = '.' then reswitch fmt args fuel (i + 1) { f with width := if f.width < 0 then 0 else f.width } arg
      else if ch = '#' then reswitch fmt args fuel (i + 1) { f with altflag := true } arg
      else if ch = 'l' then reswitch fmt args fuel (i + 1) { f with lflag := i32 (f.lflag + 1) } arg
      else some ⟨ch, f, i + 1, arg⟩

def strnlen (s : List Char) (len : Nat) : Nat := min s.length len

/- The characters of a `%s`, and the width that is left. -/
def putString (altflag : Bool) : List Char → Int → Int → σ → Int × σ
  | [], _, width, s => (width, s)
  | ch :: p, precision, width, s =>
      if precision < 0 ∨ precision - 1 ≥ 0 then
        let s := if altflag ∧ (ch < ' ' ∨ '~' < ch) then putch '?' s else putch ch s
        putString altflag p (if precision < 0 then precision else precision - 1) (i32 (width - 1)) s
      else (width, s)

def convertString (a : Slot) (f : Flags) (s : σ) : σ :=
  let p := if a.word = 0 then "(null)".toList else a.pointee
  let (width, s) :=
    if f.width > 0 ∧ f.padc ≠ '-' then
      let width := i32 (f.width - strnlen p (BitVec.ofInt 64 f.precision).toNat)
      (min width 0, putMany putch f.padc width.toNat s)
    else (f.width, s)
  let (width, s) := putString putch f.altflag p f.precision width s
  putMany putch ' ' width.toNat s

/- `printfmt` is the call for the text of an error. An address other than NULL is as good as another. -/
def convertError (printfmt : List Char → Args → σ → Option σ) (a : Slot) (s : σ) : Option σ :=
  let err := if a.int < 0 then i32 (-a.int) else a.int
  if err > MAXERROR then printfmt "error %d".toList (fun _ => ⟨BitVec.ofInt 64 err, []⟩) s
  else if err < 0 then none
  else
    match errorString err.toNat with
    | none => printfmt "error %d".toList (fun _ => ⟨BitVec.ofInt 64 err, []⟩) s
    | some p => printfmt "%s".toList (fun _ => ⟨1, p.toList⟩) s

def number (num : BitVec 64) (base : Nat) (f : Flags) (s : σ) : Option σ :=
  printnum putch base f.padc 65 num.toNat f.width s

def convertSigned (a : Slot) (f : Flags) (s : σ) : Option σ :=
  let num := getint a f.lflag
  if num.toInt < 0 then number putch (-num) 10 f (putch '-' s) else number putch num 10 f s

/- The conversion `ch` with the next argument. -/
def convert (printfmt : List Char → Args → σ → Option σ) (ch : Char) (f : Flags) (a : Slot) (s : σ) : Option σ :=
  if ch = 'c' then some (putch (Char.ofNat (a.word.toNat % 256)) s)
  else if ch = 'e' then convertError printfmt a s
  else if ch = 's' then some (convertString putch a f s)
  else if ch = 'd' then convertSigned putch a f s
  else if ch = 'u' then number putch (getuint a f.lflag) 10 f s
  else if ch = 'o' then number putch (getuint a f.lflag) 8 f s
  else if ch = 'p' then number putch a.word 16 f (putch 'x' (putch '0' s))
  else if ch = 'x' then number putch (getuint a f.lflag) 16 f s
  else some (putch '%' s)

def takesArg (ch : Char) : Bool := "cesduopx".toList.contains ch

/- The loop `for (fmt --; fmt[-1] != '%'; fmt --)`, from the index after the decrement. -/
def scanBack (fmt : List Char) : Nat → Option Nat
  | 0 => none
  | i + 1 => do
      let ch ← charAt fmt i
      if ch = '%' then some (i + 1) else scanBack fmt i

/- Where the format goes on after a conversion. -/
def resume (fmt : List Char) (c : Conversion) : Option Nat :=
  if takesArg c.ch ∨ c.ch = '%' then some c.next else scanBack fmt (c.next - 1)

def Conversion.rest (c : Conversion) : Nat := if takesArg c.ch then c.arg + 1 else c.arg

def formatLoop (printfmt : List Char → Args → σ → Option σ) (fmt : List Char) (args : Args) :
    Nat → Nat → Nat → σ → Option σ
  | 0, _, _, _ => none
  | fuel + 1, i, arg, s => do
      let ch ← charAt fmt i
      if ch = '\x00' then some s
      else if ch ≠ '%' then formatLoop printfmt fmt args fuel (i + 1) arg (putch ch s)
      else do
        let c ← reswitch fmt args (fmt.length + 1) (i + 1) {} arg
        let s ← convert putch printfmt c.ch c.flags (args c.arg) s
        let i ← resume fmt c
        formatLoop printfmt fmt args fuel i c.rest s

/- The calls of `printfmt` for a `%e` are one deep. -/
def vprintfmtDeep : Nat → List Char → Args → σ → Option σ
  | 0, _, _, _ => none
  | depth + 1, fmt, args, s => formatLoop putch (vprintfmtDeep depth) fmt args (fmt.length + 1) 0 0 s

def vprintfmt (fmt : List Char) (args : Args) (s : σ) : Option σ := vprintfmtDeep putch 2 fmt args s

end

structure Sprintbuf where
  buf : Nat
  ebuf : Nat
  cnt : Int
  mem : Nat → Char

def sprintputch (ch : Char) (b : Sprintbuf) : Sprintbuf :=
  let b := { b with cnt := i32 (b.cnt + 1) }
  if b.buf < b.ebuf then { b with buf := b.buf + 1, mem := Function.update b.mem b.buf ch } else b

/- The result and the memory. The strings and the format are not in the buffer. -/
def vsnprintf (mem : Nat → Char) (str size : Nat) (fmt : List Char) (args : Args) : Option (Int × (Nat → Char)) :=
  let b : Sprintbuf := ⟨str, (str + size - 1) % 18446744073709551616, 0, mem⟩
  if str = 0 ∨ b.buf > b.ebuf then some (-E_INVAL, mem)
  else do
    let b ← vprintfmt sprintputch fmt args b
    some (b.cnt, Function.update b.mem b.buf '\x00')

/- The text that an unbounded buffer receives. -/
def putText (ch : Char) (text : List Char) : List Char := text ++ [ch]

def text (fmt : List Char) (args : Args) : Option (List Char) := vprintfmt putText fmt args []

example : text "%5d|%-3s|%x%".toList (fun i => ⟨[42#64, 1#64, 255#64].getD i 0, "ab".toList⟩) =
    some "   42|ab |ff%".toList := by decide

end Ucore.Printfmt
