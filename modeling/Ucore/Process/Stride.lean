import Ucore.Lib.SkewHeap
import Ucore.Lib.Transitions
import Ucore.Process.ProcState

/- lab6/kern/schedule: `default_sched_stride.c` with the skew heap, under `sched.c`. A process is its number
   in the order of creation. -/
namespace Ucore.Stride
open Transitions Process SkewHeap

def BIG_STRIDE : Nat := 2 ^ 30
def MAX_TIME_SLICE : Nat := 5
def idleproc : Nat := 0

/-- `inRq` tells whether `proc->rq` is set. The code has neither `total`, the strides without wrap-around, nor
`joined`, the processes that were woken into the pool since the last pick. -/
structure Sched where
  pool : Heap Nat
  procNum : Nat
  inRq : Nat → Bool
  lab6Stride : Nat → BitVec 32
  lab6Priority : Nat → BitVec 32
  timeSlice : Nat → Nat
  needResched : Nat → Bool
  state : Nat → ProcState
  current : Nat
  next : Nat
  total : Nat → Nat
  joined : List Nat

/- Whether `proc_stride_comp_f` is -1. -/
def procStrideCompF (s : Sched) (p q : Nat) : Bool := (s.lab6Stride p - s.lab6Stride q).toInt < 0

def atLeastOne (priority : BitVec 32) : BitVec 32 := if priority = 0 then 1 else priority

def strideEnqueue (p : Nat) (s : Sched) : Sched :=
  { s with
    pool := merge (procStrideCompF s) s.pool (.node .nil p .nil)
    lab6Priority := Function.update s.lab6Priority p (atLeastOne (s.lab6Priority p))
    timeSlice := Function.update s.timeSlice p
      (if s.timeSlice p = 0 ∨ s.timeSlice p > MAX_TIME_SLICE then MAX_TIME_SLICE else s.timeSlice p)
    inRq := Function.update s.inRq p true
    procNum := s.procNum + 1 }

/- `none` is the assertion. -/
def strideDequeue (p : Nat) (s : Sched) : Option Sched :=
  if s.inRq p = true ∧ s.procNum > 0 then
    some { s with pool := remove (procStrideCompF s) p s.pool, procNum := s.procNum - 1 }
  else none

def stridePickNext (s : Sched) : Option Nat × Sched :=
  match root s.pool with
  | none => (none, s)
  | some p =>
      let priority := atLeastOne (s.lab6Priority p)
      (some p, { s with
        lab6Priority := Function.update s.lab6Priority p priority
        lab6Stride := Function.update s.lab6Stride p (s.lab6Stride p + BitVec.ofNat 32 (BIG_STRIDE / priority.toNat))
        total := Function.update s.total p (s.total p + BIG_STRIDE / priority.toNat)
        joined := [] })

def strideProcTick (p : Nat) (s : Sched) : Sched :=
  let slice := s.timeSlice p - 1
  { s with
    timeSlice := Function.update s.timeSlice p slice
    needResched := if slice = 0 then Function.update s.needResched p true else s.needResched }

def schedClassEnqueue (p : Nat) (s : Sched) : Sched := if p ≠ idleproc then strideEnqueue p s else s

def schedClassProcTick (p : Nat) (s : Sched) : Sched :=
  if p ≠ idleproc then strideProcTick p s
  else { s with needResched := Function.update s.needResched p true }

/- `none` is the assertion. -/
def wakeupProc (p : Nat) (s : Sched) : Option Sched :=
  if s.state p = .zombie then none
  else if s.state p ≠ .runnable then
    let woken := { s with state := Function.update s.state p .runnable }
    if p ≠ s.current then some { schedClassEnqueue p woken with joined := p :: s.joined } else some woken
  else some s

/- `schedule` up to the pick. -/
def Sched.requeue (s : Sched) : Sched :=
  let s := { s with needResched := Function.update s.needResched s.current false }
  if s.state s.current = .runnable then schedClassEnqueue s.current s else s

def schedule (s : Sched) : Option Sched :=
  match stridePickNext s.requeue with
  | (none, s) => some { s with current := idleproc }
  | (some next, s) => (strideDequeue next s).map fun s => { s with current := next }

/- `alloc_proc` and `wakeup_proc` of `do_fork`. -/
def doFork (s : Sched) : Option Sched :=
  wakeupProc s.next { s with
    next := s.next + 1
    inRq := Function.update s.inRq s.next false
    lab6Stride := Function.update s.lab6Stride s.next 0
    lab6Priority := Function.update s.lab6Priority s.next 0
    timeSlice := Function.update s.timeSlice s.next 0
    needResched := Function.update s.needResched s.next false
    state := Function.update s.state s.next .uninit
    total := Function.update s.total s.next 0 }

def lab6SetPriority (priority : BitVec 32) (s : Sched) : Sched :=
  { s with lab6Priority := Function.update s.lab6Priority s.current (atLeastOne priority) }

/-- The current process forks, sleeps, exits or sets its priority; a sleeper is woken; the clock ticks; the
kernel schedules. -/
inductive SchedEvent where
  | fork
  | sleep
  | exit
  | setPriority (priority : BitVec 32)
  | wakeup (p : Nat)
  | tick
  | schedule

/- `idleproc` runs until another process is picked. -/
def Sched.step (s : Sched) : SchedEvent → Option Sched
  | .fork => if s.state s.current = .runnable then doFork s else none
  | .sleep =>
      if s.current ≠ idleproc ∧ s.state s.current = .runnable then
        some { s with state := Function.update s.state s.current .sleeping }
      else none
  | .exit =>
      if s.current ≠ idleproc ∧ s.state s.current = .runnable then
        some { s with state := Function.update s.state s.current .zombie }
      else none
  | .setPriority priority => if s.state s.current = .runnable then some (lab6SetPriority priority s) else none
  | .wakeup p => if s.state p = .sleeping then wakeupProc p s else none
  | .tick => some (schedClassProcTick s.current s)
  | .schedule => schedule s

def SchedStep (s : Sched) (e : SchedEvent) (t : Sched) : Prop := s.step e = some t

/-- Only `idleproc` is there, and it runs. -/
structure Init (s : Sched) : Prop where
  pool : s.pool = .nil
  procNum : s.procNum = 0
  current : s.current = idleproc
  idle : s.state idleproc = .runnable
  next : s.next = 1
  others : ∀ p, p ≠ idleproc → s.state p = .uninit
  stride : ∀ p, s.lab6Stride p = 0
  total : ∀ p, s.total p = 0

end Ucore.Stride
