import Ucore.Lib.Transitions

/- lab8/kern/fs/devs/dev_stdin.c: the buffer of the keyboard, its readers and the keys. A process is its
   number. -/
namespace Ucore.DevStdin
open Transitions

def STDIN_BUFSIZE : Nat := 4096

/-- A process that waits in `dev_stdin_read`: what it still reads, whether it is runnable again, and whether
`wakeup_flags` is `WT_KBD`. -/
structure Reader where
  left : Nat
  runnable : Bool
  keyed : Bool

structure Stdin where
  buffer : Nat → UInt8
  rpos : Nat
  wpos : Nat
  queue : List Nat
  reader : Nat → Option Reader
  exiting : Nat → Bool

/- `wakeup_wait` with `WT_KBD`, of a process in the queue. -/
def Reader.wake (r : Reader) : Reader := { r with runnable := true, keyed := true }

/- `wakeup_queue`, which empties the queue. -/
def Stdin.wakeupQueue (s : Stdin) : Stdin :=
  { s with
    queue := []
    reader := fun p => if p ∈ s.queue then (s.reader p).map Reader.wake else s.reader p }

def devStdinWrite (c : UInt8) (s : Stdin) : Stdin :=
  if c = 0 then s
  else
    let stored := { s with buffer := Function.update s.buffer (s.wpos % STDIN_BUFSIZE) c }
    let counted := if s.wpos - s.rpos < STDIN_BUFSIZE then { stored with wpos := s.wpos + 1 } else stored
    if counted.queue ≠ [] then counted.wakeupQueue else counted

/- The loop of `dev_stdin_read` up to the end or to where it has to wait: the characters that are read, and
   how many are left to read. -/
def readLoop : Nat → Stdin → Stdin × List UInt8 × Nat
  | 0, s => (s, [], 0)
  | n + 1, s =>
      if s.rpos < s.wpos then
        let (t, cs, left) := readLoop n { s with rpos := s.rpos + 1 }
        (t, s.buffer (s.rpos % STDIN_BUFSIZE) :: cs, left)
      else (s, [], n + 1)

/- `wait_current_set`, where something is left. -/
def readOn (p n : Nat) (s : Stdin) : Stdin × List UInt8 :=
  let (t, cs, left) := readLoop n s
  if left = 0 then ({ t with reader := Function.update t.reader p none }, cs)
  else
    ({ t with queue := t.queue ++ [p], reader := Function.update t.reader p (some ⟨left, false, false⟩) }, cs)

inductive StdinEvent where
  | key (c : UInt8)
  | read (p len : Nat)
  | kill (p : Nat)
  | resume (p : Nat)

/- `do_kill` of a process that may be in the queue: `WT_KBD` has the bit of `WT_INTERRUPTED`. -/
def doKill (p : Nat) (s : Stdin) : Stdin :=
  if s.exiting p then s
  else
    { s with
      exiting := Function.update s.exiting p true
      reader := Function.update s.reader p ((s.reader p).map fun r => { r with runnable := true }) }

/- After `schedule` in `dev_stdin_read`. -/
def resume (p : Nat) (r : Reader) (s : Stdin) : Stdin × List UInt8 :=
  let unqueued := { s with queue := s.queue.erase p }
  if r.keyed then readOn p r.left unqueued
  else ({ unqueued with reader := Function.update s.reader p none }, [])

/-- The state after an event, and the characters that are delivered in it. -/
def Stdin.step (s : Stdin) : StdinEvent → Option (Stdin × List UInt8)
  | .key c => some (devStdinWrite c s, [])
  | .read p len => if s.reader p = none then some (readOn p len s) else none
  | .kill p => some (doKill p s, [])
  | .resume p =>
      match s.reader p with
      | none => none
      | some r => if r.runnable then some (resume p r s) else none

/-- Events with the characters that each of them delivers. -/
def StdinStep (s : Stdin) (e : StdinEvent × List UInt8) (t : Stdin) : Prop := s.step e.1 = some (t, e.2)

/-- `stdin_device_init`. -/
structure Init (s : Stdin) : Prop where
  rpos : s.rpos = 0
  wpos : s.wpos = 0
  queue : s.queue = []
  reader : ∀ p, s.reader p = none

/-- The characters that were accepted, and those that were delivered. -/
structure Seen where
  accepted : List UInt8
  delivered : List UInt8

/-- A character is accepted if fewer than `STDIN_BUFSIZE` accepted ones have not been delivered. -/
def Seen.next (o : Seen) (e : StdinEvent × List UInt8) : Seen :=
  match e.1 with
  | .key c =>
      if c ≠ 0 ∧ o.accepted.length - o.delivered.length < STDIN_BUFSIZE then { o with accepted := o.accepted ++ [c] }
      else o
  | _ => { o with delivered := o.delivered ++ e.2 }

def seen (es : List (StdinEvent × List UInt8)) : Seen := es.foldl Seen.next ⟨[], []⟩

end Ucore.DevStdin
