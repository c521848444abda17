import Mathlib

/- lab8/user/sh.c. The line lies at 0 up to `n`, where its NUL is; nothing behind the NUL may be read. `fuel` bounds the turns
of a loop. -/
namespace Ucore.Sh

def EXEC_MAX_ARG_NUM : Nat := 32
def BUFSIZE : Nat := 4096
def WHITESPACE : List Char := [' ', '\t', '\r', '\n']
def SYMBOLS : List Char := ['<', '|', '>', '&', ';']

abbrev Buffer := Nat → Char

/- Of libs/string.c: a NUL is not found. -/
def strchr (s : List Char) (c : Char) : Bool := s.contains c

def charAt (n : Nat) (buf : Buffer) (s : Nat) : Option Char := if s ≤ n then some (buf s) else none

def skipBlanks (n : Nat) : Nat → Buffer → Nat → Option (Buffer × Nat)
  | 0, _, _ => none
  | fuel + 1, buf, s => do
      let c ← charAt n buf s
      if strchr WHITESPACE c then skipBlanks n fuel (Function.update buf s '\x00') (s + 1) else some (buf, s)

def scanWord (n : Nat) : Nat → Buffer → Nat → Bool → Option (Buffer × Nat)
  | 0, _, _, _ => none
  | fuel + 1, buf, s, flag => do
      let c ← charAt n buf s
      if c ≠ '\x00' ∧ (flag ∨ strchr (WHITESPACE ++ SYMBOLS) c = false) then
        if c = '"' then scanWord n fuel (Function.update buf s ' ') (s + 1) (!flag)
        else scanWord n fuel buf (s + 1) flag
      else some (buf, s)

structure Token where
  token : Char
  p1 : Option Nat
  p2 : Nat
  buf : Buffer

/- The token 0 is a NUL, and it leaves `*p1` and `*p2`. -/
def gettoken (n : Nat) (buf : Buffer) (p1 : Option Nat) (p2 : Nat) : Option Token :=
  match p1 with
  | none => some ⟨'\x00', p1, p2, buf⟩
  | some s => do
      let (buf, s) ← skipBlanks n (n + 1) buf s
      let c ← charAt n buf s
      if c = '\x00' then some ⟨'\x00', p1, p2, buf⟩
      else do
        let (token, buf, next) ←
          if strchr SYMBOLS c then some (c, Function.update buf s '\x00', s + 1)
          else (scanWord n (n + 1) buf s false).map fun (buf, next) => ('w', buf, next)
        let c ← charAt n buf next
        some ⟨token, if c ≠ '\x00' then some next else none, s, buf⟩

/- The string at `t`. -/
def cstring (n : Nat) (buf : Buffer) : Nat → Nat → Option (List Char)
  | 0, _ => none
  | fuel + 1, t => do
      let c ← charAt n buf t
      if c = '\x00' then some [] else (cstring n buf fuel (t + 1)).map (c :: ·)

inductive Found where
  | found
  | noent
  | error

/- What the system answers, by how much of the line is left at the call. -/
structure System where
  reopen : Nat → Bool
  fork : Nat → Bool
  pipeChild : Nat → Bool
  pipeParent : Nat → Bool
  testfile : Nat → Found

/- What is done with the words. -/
inductive Passed where
  | reopen (fd : Nat) (filename : List Char)
  | cd (dir : List Char)
  | testfile (name : List Char)
  | exec (path : List Char) (args : List (List Char))
  deriving DecidableEq

/- `snprintf(argv0, sizeof(argv0), "/%s", argv[0])`. -/
def rooted (name : List Char) : List Char := ('/' :: name).take (BUFSIZE - 1)

/- From `runit` on. -/
def runit (system : System) (left : Nat) : List (List Char) → List Passed
  | [] => []
  | name :: args =>
      if name = ['c', 'd'] then
        match args with
        | [dir] => [.cd dir]
        | _ => []
      else .testfile name ::
        match system.testfile left with
        | .found => [.exec name args]
        | .noent => [.exec (rooted name) args]
        | .error => []

def left (n : Nat) (p1 : Option Nat) : Nat := p1.elim 0 (n - ·)

/- The target of a `<` or `>`, and what is done after it. -/
def redirect (system : System) (n : Nat) (next : Buffer → Option Nat → Nat → Option (List Passed)) (fd : Nat) (buf : Buffer)
    (cmd : Option Nat) (t : Nat) : Option (List Passed) := do
  let ⟨token, cmd, t, buf⟩ ← gettoken n buf cmd t
  if token ≠ 'w' then some []
  else do
    let filename ← cstring n buf (n + 1) t
    let later ← if system.reopen (left n cmd) then next buf cmd t else some []
    some (.reopen fd filename :: later)

/- What `runcmd` does and what the processes do that it forks, one after the other. `argv` are pointers. -/
def runcmd (system : System) (n : Nat) : Nat → Buffer → Option Nat → Nat → List Nat → Option (List Passed)
  | 0, _, _, _, _ => none
  | fuel + 1, buf, cmd, t, argv => do
      let ⟨token, cmd, t, buf⟩ ← gettoken n buf cmd t
      let run := (argv.mapM (cstring n buf (n + 1))).map (runit system (left n cmd))
      if token = 'w' then
        if argv.length = EXEC_MAX_ARG_NUM then some [] else runcmd system n fuel buf cmd t (argv ++ [t])
      else if token = '<' then redirect system n (fun buf cmd t => runcmd system n fuel buf cmd t argv) 0 buf cmd t
      else if token = '>' then redirect system n (fun buf cmd t => runcmd system n fuel buf cmd t argv) 1 buf cmd t
      else if token = '|' then do
        let child ← if system.pipeChild (left n cmd) then runcmd system n fuel buf cmd t [] else some []
        let parent ← if system.pipeParent (left n cmd) then run else some []
        some (parent ++ child)
      else if token = '\x00' then run
      else if token = ';' then
        if system.fork (left n cmd) then do
          let child ← run
          let parent ← runcmd system n fuel buf cmd t []
          some (child ++ parent)
        else some []
      else some []

/-- A line of characters, without its NUL. -/
structure Line where
  chars : List Char
  plain : '\x00' ∉ chars

def Line.buffer (line : Line) : Buffer := fun i => line.chars.getD i '\x00'

def Line.run (system : System) (line : Line) : Option (List Passed) :=
  runcmd system line.chars.length (line.chars.length + 1) line.buffer (some 0) 0 []

end Ucore.Sh
