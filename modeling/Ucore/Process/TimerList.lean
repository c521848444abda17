import Ucore.Lib.Programs
import Ucore.Lib.Transitions
import Ucore.Process.ProcState

/- The timers of lab8/kern/schedule/sched.c. The list holds the timers that are linked, and `expires`
   of each counts from the one before it. The sums of them that are formed never exceed an `expires`
   that was passed to `add_timer`, so that no `unsigned int` overflows. -/
namespace Ucore.TimerList
open Programs Transitions Process

structure TimerState where
  timers : List Nat
  expires : Nat → Nat
  proc : Nat → Nat
  state : Nat → ProcState
  waitState : Nat → WaitState
  woken : List Nat

inductive TimerStop where
  | assertion
  deriving DecidableEq

abbrev TimerM (α : Type) := Prog TimerStop TimerState α

/- The run queue has its own model; here `woken` keeps the calls. -/
def wakeupProc (p : Nat) : TimerM Unit := do
  let s ← get
  check .assertion (s.state p ≠ .zombie)
  if s.state p ≠ .runnable then
    set { s with
      state := Function.update s.state p .runnable
      waitState := Function.update s.waitState p .none
      woken := s.woken ++ [p] }
  else set { s with woken := s.woken ++ [p] }

/- The walk of `add_timer`, from `le` on. -/
def linkTimer (timer : Nat) : List Nat → (Nat → Nat) → List Nat × (Nat → Nat)
  | [], expires => ([timer], expires)
  | next :: le, expires =>
      if expires timer < expires next then
        (timer :: next :: le, Function.update expires next (expires next - expires timer))
      else
        let linked := linkTimer timer le (Function.update expires timer (expires timer - expires next))
        (next :: linked.1, linked.2)

def addTimer (timer : Nat) : TimerM Unit := do
  let s ← get
  check .assertion (s.expires timer > 0)
  check .assertion (timer ∉ s.timers)
  let linked := linkTimer timer s.timers s.expires
  set { s with timers := linked.1, expires := linked.2 }

def listNext (timer : Nat) : List Nat → Option Nat
  | [] => none
  | first :: le => if first = timer then le.head? else listNext timer le

def delTimer (timer : Nat) : TimerM Unit := do
  let s ← get
  if timer ∈ s.timers then
    if s.expires timer ≠ 0 then
      match listNext timer s.timers with
      | some next =>
          modify fun s => { s with expires := Function.update s.expires next (s.expires next + s.expires timer) }
      | none => pure ()
    modify fun s => { s with timers := s.timers.erase timer }

/- The loop of `run_timer_list`: `le` goes on before the timer is deleted. -/
def expire : List Nat → TimerM Unit
  | [] => return ()
  | timer :: le => do
      let s ← get
      if s.expires timer = 0 then
        let p := s.proc timer
        if s.waitState p ≠ .none then check .assertion ((s.waitState p).interrupted = true)
        wakeupProc p
        delTimer timer
        expire le

def runTimerList : TimerM Unit := do
  let s ← get
  match s.timers with
  | [] => return ()
  | timer :: le =>
      check .assertion (s.expires timer ≠ 0)
      set { s with expires := Function.update s.expires timer (s.expires timer - 1) }
      expire (timer :: le)

/-- A timer is set up and added, a timer is deleted that may have fired, the clock ticks, and the rest
of the kernel changes a process. -/
inductive TimerOp where
  | add (timer expires p : Nat)
  | del (timer : Nat)
  | tick
  | proc (p : Nat) (state : ProcState) (waitState : WaitState)

/- A process that a timer may wake is in `do_sleep`. -/
def Asleep (state : ProcState) (waitState : WaitState) : Prop :=
  state ≠ .zombie ∧ (waitState ≠ .none → waitState.interrupted = true)

def TimerOp.Possible (s : TimerState) : TimerOp → Prop
  | .add timer expires p => timer ∉ s.timers ∧ 0 < expires ∧ Asleep (s.state p) (s.waitState p)
  | .del _ => True
  | .tick => True
  | .proc p state waitState => (∃ timer ∈ s.timers, s.proc timer = p) → Asleep state waitState

def TimerOp.run : TimerOp → TimerM Unit
  | .add timer expires p => do
      modify fun s => { s with
        expires := Function.update s.expires timer expires
        proc := Function.update s.proc timer p }
      addTimer timer
  | .del timer => delTimer timer
  | .tick => runTimerList
  | .proc p state waitState => modify fun s => { s with
      state := Function.update s.state p state
      waitState := Function.update s.waitState p waitState }

def TimerStep (s : TimerState) (op : TimerOp) (t : TimerState) : Prop :=
  op.Possible s ∧ op.run s = .ok ((), t)

/-- The timers with the times that remain to them: the sums of the deltas. -/
def agenda (expires : Nat → Nat) : Nat → List Nat → List (Nat × Nat)
  | _, [] => []
  | base, timer :: le => (timer, base + expires timer) :: agenda expires (base + expires timer) le

def TimerState.agenda (s : TimerState) : List (Nat × Nat) := TimerList.agenda s.expires 0 s.timers

/- A deadline comes after those that are as early. -/
def insertDeadline (timer remaining : Nat) : List (Nat × Nat) → List (Nat × Nat)
  | [] => [(timer, remaining)]
  | next :: le =>
      if remaining < next.2 then (timer, remaining) :: next :: le
      else next :: insertDeadline timer remaining le

/-- What an operation does to the deadlines. -/
def TimerOp.apply (l : List (Nat × Nat)) : TimerOp → List (Nat × Nat)
  | .add timer expires _ => insertDeadline timer expires l
  | .del timer => l.filter fun x => x.1 ≠ timer
  | .tick => (l.filter fun x => 1 < x.2).map fun x => (x.1, x.2 - 1)
  | .proc _ _ _ => l

/-- The timers that fire in an operation. -/
def TimerOp.fires (l : List (Nat × Nat)) : TimerOp → List Nat
  | .tick => (l.filter fun x => x.2 ≤ 1).map Prod.fst
  | _ => []

/-- The processes whose timers fire in an operation are runnable after it, and wait for nothing if they were not
runnable before; the clock and the calls change no others. -/
structure TimerOp.Wakes (op : TimerOp) (s t : TimerState) : Prop where
  woken : t.woken = s.woken ++ (op.fires s.agenda).map s.proc
  runnable : ∀ timer ∈ op.fires s.agenda, t.state (s.proc timer) = .runnable ∧
    (s.state (s.proc timer) ≠ .runnable → t.waitState (s.proc timer) = .none)
  others : ∀ p ∉ (op.fires s.agenda).map s.proc, (∀ state waitState, op ≠ .proc p state waitState) →
    t.state p = s.state p ∧ t.waitState p = s.waitState p

end Ucore.TimerList
