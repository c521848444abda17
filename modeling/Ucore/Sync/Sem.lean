import Ucore.Lib.Transitions
import Ucore.Process.ProcState

/- lab8/kern/sync/sem.c over the wait queues of wait.c, for the processes `P` and the semaphores `S`. What runs
   with the interrupts off is one step, and the next step may be any process's. -/
namespace Ucore.Sync
open Transitions Process
variable {S P : Type*} [DecidableEq S] [DecidableEq P]

def INT_MAX : Int := 2 ^ 31 - 1
def WT_INTERRUPTED : BitVec 32 := 0x80000000

/- The bits of a `wait_state`. -/
def waitBits : WaitState → BitVec 32
  | .none => 0
  | .child => 0x80000001
  | .ksem => 0x00000100
  | .timer => 0x80000002
  | .kbd => 0x80000004

/-- Where a process is: in `__down` of a semaphore, after it has put itself on the queue, in another call that
sleeps, or in neither. -/
inductive Pos (S : Type*) where
  | running
  | down (s : S)
  | asleep

/-- `wakeupFlags` is that of the `wait_t` on the stack of the process. The code has neither the counts of `ups` and
of returned `downs` nor the `clock` and the time `since` which a process is in a queue. -/
structure Sems (S P : Type*) where
  value : S → Int
  waitQueue : S → List P
  state : P → ProcState
  waitState : P → WaitState
  exiting : P → Bool
  wakeupFlags : P → BitVec 32
  pos : P → Pos S
  ups : S → Nat
  downs : S → Nat
  clock : Nat
  since : P → Nat

/- `none` is the assertion. -/
def wakeupProc (p : P) (k : Sems S P) : Option (Sems S P) :=
  if k.state p = .zombie then none
  else if k.state p ≠ .runnable then
    some { k with
      state := Function.update k.state p .runnable
      waitState := Function.update k.waitState p .none }
  else some k

/- `wakeup_wait` with `del` set; the wait is the first of the queue. -/
def wakeupWait (s : S) (p : P) (flags : WaitState) (k : Sems S P) : Option (Sems S P) :=
  wakeupProc p { k with
    waitQueue := Function.update k.waitQueue s ((k.waitQueue s).erase p)
    wakeupFlags := Function.update k.wakeupFlags p (waitBits flags) }

/- The `int` after `value ++`. -/
def increment (value : Int) : Int := (value + 1).bmod (2 ^ 32)

/- `__up` with `WT_KSEM`; `none` is an assertion. -/
def up (s : S) (k : Sems S P) : Option (Sems S P) :=
  let k := { k with ups := Function.update k.ups s (k.ups s + 1) }
  match k.waitQueue s with
  | [] => some { k with value := Function.update k.value s (increment (k.value s)) }
  | p :: _ => if k.waitState p = .ksem then wakeupWait s p .ksem k else none

def waitCurrentSet (s : S) (p : P) (wait : WaitState) (k : Sems S P) : Sems S P :=
  { k with
    wakeupFlags := Function.update k.wakeupFlags p WT_INTERRUPTED
    state := Function.update k.state p .sleeping
    waitState := Function.update k.waitState p wait
    waitQueue := Function.update k.waitQueue s (k.waitQueue s ++ [p])
    clock := k.clock + 1
    since := Function.update k.since p k.clock }

def takeUnit (s : S) (k : Sems S P) : Sems S P :=
  { k with
    value := Function.update k.value s (k.value s - 1)
    downs := Function.update k.downs s (k.downs s + 1) }

/- `__down` up to `schedule`. -/
def down (p : P) (s : S) (k : Sems S P) : Sems S P :=
  if 0 < k.value s then takeUnit s k
  else
    let k := waitCurrentSet s p .ksem k
    { k with pos := Function.update k.pos p (.down s) }

/- `__down` after `schedule`; `none` is the assertion of `down` that the flags are 0. -/
def downReturn (p : P) (s : S) (k : Sems S P) : Option (Sems S P) :=
  let k := { k with waitQueue := Function.update k.waitQueue s ((k.waitQueue s).erase p) }
  let flags := if k.wakeupFlags p ≠ waitBits .ksem then k.wakeupFlags p else 0
  if flags = 0 then
    some { k with
      pos := Function.update k.pos p .running
      downs := Function.update k.downs s (k.downs s + 1) }
  else none

def tryDown (s : S) (k : Sems S P) : Sems S P := if 0 < k.value s then takeUnit s k else k

def doKill (q : P) (k : Sems S P) : Option (Sems S P) :=
  if k.exiting q then some k
  else
    let killed := { k with exiting := Function.update k.exiting q true }
    if (k.waitState q).interrupted then wakeupProc q killed else some killed

/-- The calls, with the other ways a process sleeps and is woken: by a timer, a child or a key. -/
inductive SemEvent (S P : Type*) where
  | up (p : P) (s : S)
  | down (p : P) (s : S)
  | downReturn (p : P) (s : S)
  | tryDown (p : P) (s : S)
  | kill (q : P)
  | create (p : P)
  | exit (p : P)
  | sleep (p : P) (wait : WaitState)
  | wakeup (p : P)
  | resume (p : P)

/- A call that is none of a semaphore. -/
def SemEvent.Aside : SemEvent S P → Prop
  | .up _ _ => False
  | .down _ _ => False
  | .downReturn _ _ => False
  | .tryDown _ _ => False
  | _ => True

def Sems.Runs (k : Sems S P) (p : P) : Prop := k.pos p = .running ∧ k.state p = .runnable

/-- Whether the process may make the step. Only `down` sleeps with a `wait_state` that is not interrupted, and a
timer that wakes a process is that of its `do_sleep`. -/
def Sems.Enabled (k : Sems S P) : SemEvent S P → Prop
  | .up p _ => k.Runs p
  | .down p _ => k.Runs p
  | .downReturn p s => k.pos p = .down s ∧ k.state p = .runnable
  | .tryDown p _ => k.Runs p
  | .kill _ => True
  | .create p => k.pos p = .running ∧ k.state p = .uninit
  | .exit p => k.Runs p
  | .sleep p wait => k.Runs p ∧ wait.interrupted = true
  | .wakeup p => k.pos p = .asleep
  | .resume p => k.pos p = .asleep ∧ k.state p = .runnable

def Sems.call (k : Sems S P) : SemEvent S P → Option (Sems S P)
  | .up _ s => up s k
  | .down p s => some (down p s k)
  | .downReturn p s => downReturn p s k
  | .tryDown _ s => some (tryDown s k)
  | .kill q => doKill q k
  | .create p => some { k with state := Function.update k.state p .runnable }
  | .exit p => some { k with state := Function.update k.state p .zombie }
  | .sleep p wait => some { k with
      state := Function.update k.state p .sleeping
      waitState := Function.update k.waitState p wait
      pos := Function.update k.pos p .asleep }
  | .wakeup p => wakeupProc p k
  | .resume p => some { k with pos := Function.update k.pos p .running }

def SemStep (k : Sems S P) (e : SemEvent S P) (k' : Sems S P) : Prop := k.Enabled e ∧ k.call e = some k'

/- Whether `value` has room for the unit of an `up`. -/
def Sems.Fits (k : Sems S P) : SemEvent S P → Prop
  | .up _ s => k.value s < INT_MAX
  | _ => True

def FittingStep (k : Sems S P) (e : SemEvent S P) (k' : Sems S P) : Prop := SemStep k e k' ∧ k.Fits e

/-- The process was handed a unit and has not returned from `down` yet. -/
def Sems.Granted (k : Sems S P) (p : P) (s : S) : Prop := k.pos p = .down s ∧ p ∉ k.waitQueue s

/-- `sem_init` has set the values, and nobody sleeps. -/
structure Init (v : S → Int) (k : Sems S P) : Prop where
  value : ∀ s, k.value s = v s
  room : ∀ s, 0 ≤ v s ∧ v s ≤ INT_MAX
  queue : ∀ s, k.waitQueue s = []
  pos : ∀ p, k.pos p = .running
  state : ∀ p, k.state p ≠ .sleeping
  waitState : ∀ p, k.waitState p = .none
  ups : ∀ s, k.ups s = 0
  downs : ∀ s, k.downs s = 0

omit [DecidableEq S] [DecidableEq P]

/- Every process runs, and nobody waits. -/
def idleSems (value : S → Int) : Sems S P where
  value := value
  waitQueue := fun _ => []
  state := fun _ => .runnable
  waitState := fun _ => .none
  exiting := fun _ => false
  wakeupFlags := fun _ => 0
  pos := fun _ => .running
  ups := fun _ => 0
  downs := fun _ => 0
  clock := 0
  since := fun _ => 0

theorem idle_sems_init {value : S → Int} (room : ∀ s, 0 ≤ value s ∧ value s ≤ INT_MAX) :
    Init value (idleSems value : Sems S P) :=
  ⟨fun _ => rfl, room, fun _ => rfl, fun _ => rfl, fun _ => ProcState.noConfusion, fun _ => rfl, fun _ => rfl, fun _ => rfl⟩

end Ucore.Sync
