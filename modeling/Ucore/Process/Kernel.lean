import Ucore.Lib.Programs
import Ucore.Lib.Transitions
import Ucore.Process.ProcState

/- The processes of lab8 on one processor: schedule/sched.c with default_sched.c, `do_exit`, `do_wait`,
   `do_kill`, `do_sleep` and the forks of process/proc.c, `trap` and the stdin device. The kernel is
   not preempted: a step goes on until the process calls `schedule` or is back in user mode. A process
   is its number in the order of creation, which stands for its pid too. -/
namespace Ucore.Sched
open Programs Transitions Process

def MAX_TIME_SLICE : Nat := 5
def idleproc : Nat := 0
def initproc : Nat := 1

/-- Where a process goes on when it runs again. -/
inductive Pos where
  | user
  | begin
  | again
  | waiting (pid : Option Nat)
  | sleeping
  | reading
  | idle
  | gone
  deriving DecidableEq

/-- `procs` are the processes of `proc_list`; `keyWait` is the wait queue of stdin, `keyed` tells
whether the wait of a process was ended by a key, and `leaving` whether the current process is about to
call `schedule`. -/
structure Kernel where
  procs : Finset Nat
  next : Nat
  parent : Nat → Nat
  state : Nat → ProcState
  waitState : Nat → WaitState
  exiting : Nat → Bool
  needResched : Nat → Bool
  timeSlice : Nat → Nat
  pos : Nat → Pos
  keyed : Nat → Bool
  keyWait : List Nat
  runList : List Nat
  procNum : Nat
  current : Nat
  leaving : Bool

inductive KernelStop where
  | assertion
  | initExit
  | idleExit
  deriving DecidableEq

abbrev KernelM (α : Type) := Prog KernelStop Kernel α

/- `RR_enqueue`: the process has no `run_link` in the list. -/
def rrEnqueue (p : Nat) : KernelM Unit := do
  let s ← get
  check .assertion (p ∉ s.runList)
  set { s with
    runList := s.runList ++ [p]
    timeSlice := Function.update s.timeSlice p
      (if s.timeSlice p = 0 ∨ s.timeSlice p > MAX_TIME_SLICE then MAX_TIME_SLICE else s.timeSlice p)
    procNum := s.procNum + 1 }

def schedClassEnqueue (p : Nat) : KernelM Unit := do
  if p ≠ idleproc then rrEnqueue p

def rrDequeue (p : Nat) : KernelM Unit := do
  let s ← get
  check .assertion (p ∈ s.runList)
  set { s with runList := s.runList.erase p, procNum := s.procNum - 1 }

/- `RR_pick_next` is the head of the list. -/
def rrPickNext : KernelM (Option Nat) := return (← get).runList.head?

def rrProcTick (p : Nat) : KernelM Unit := modify fun s =>
  let slice := s.timeSlice p - 1
  { s with
    timeSlice := Function.update s.timeSlice p slice
    needResched := if slice = 0 then Function.update s.needResched p true else s.needResched }

def schedClassProcTick (p : Nat) : KernelM Unit := do
  if p ≠ idleproc then rrProcTick p
  else modify fun s => { s with needResched := Function.update s.needResched p true }

def wakeupProc (p : Nat) : KernelM Unit := do
  let s ← get
  check .assertion (s.state p ≠ .zombie)
  if s.state p ≠ .runnable then
    set { s with
      state := Function.update s.state p .runnable
      waitState := Function.update s.waitState p .none }
    if p ≠ s.current then schedClassEnqueue p

def schedule : KernelM Unit := do
  modify fun s => { s with needResched := Function.update s.needResched s.current false }
  let s ← get
  if s.state s.current = .runnable then schedClassEnqueue s.current
  match ← rrPickNext with
  | some next =>
      rrDequeue next
      modify fun s => { s with current := next, leaving := false }
  | none => modify fun s => { s with current := idleproc, leaving := false }

/- The current process sleeps; `schedule` comes next. -/
def block (w : WaitState) (pos : Pos) : KernelM Unit := modify fun s =>
  { s with
    state := Function.update s.state s.current .sleeping
    waitState := Function.update s.waitState s.current w
    pos := Function.update s.pos s.current pos
    leaving := true }

/- The current process calls `schedule` and stays runnable. -/
def leave (pos : Pos) : KernelM Unit := modify fun s =>
  { s with pos := Function.update s.pos s.current pos, leaving := true }

def Kernel.children (s : Kernel) (p : Nat) : Finset Nat := s.procs.filter fun q => s.parent q = p

/- The walk over the children reaches each of them; that of `initproc` gets each of them, and is woken
for a zombie. -/
def doExit : KernelM Unit := do
  let s ← get
  if s.current = idleproc then stop .idleExit
  if s.current = initproc then stop .initExit
  set { s with
    state := Function.update s.state s.current .zombie
    pos := Function.update s.pos s.current .gone
    leaving := true }
  if s.waitState (s.parent s.current) = .child then wakeupProc (s.parent s.current)
  let t ← get
  set { t with parent := fun q => if q ∈ s.children s.current then initproc else t.parent q }
  if (∃ q ∈ s.children s.current, t.state q = .zombie) ∧ t.waitState initproc = .child then
    wakeupProc initproc

/- The end of `trap` for a trap from user mode. -/
def trapEnd : KernelM Unit := do
  let s ← get
  set { s with pos := Function.update s.pos s.current .user }
  if s.exiting s.current then doExit
  else if s.needResched s.current then leave .user

/- The children that `do_wait` looks at. -/
def Kernel.awaited (s : Kernel) (pid : Option Nat) : Finset Nat :=
  match pid with
  | some p => (s.children s.current).filter fun q => q = p
  | none => s.children s.current

/- What the caller of `do_wait` does with its result: `init_main` goes round its loop while children are
found and ends otherwise, and a system call returns. -/
def waited (found : Bool) : KernelM Unit := do
  let s ← get
  if s.current = initproc then
    if found then leave .again else doExit
  else trapEnd

/- One round of `do_wait`; `zombie` is the one that the walk comes to first. -/
def doWait (pid zombie : Option Nat) : KernelM Unit := do
  let s ← get
  match zombie with
  | some p =>
      set { s with procs := s.procs.erase p, state := Function.update s.state p .uninit }
      waited true
  | none =>
      if s.awaited pid ≠ ∅ then block .child (.waiting pid)
      else waited false

def doKill (p : Nat) : KernelM Unit := do
  let s ← get
  if p ∈ s.procs then
    if !s.exiting p then
      set { s with exiting := Function.update s.exiting p true }
      if (s.waitState p).interrupted then wakeupProc p

/- `do_fork`, where it succeeds. -/
def doFork : KernelM Unit := do
  let s ← get
  let p := s.next
  set { s with
    procs := insert p s.procs
    next := p + 1
    parent := Function.update s.parent p s.current
    state := Function.update s.state p .uninit
    waitState := Function.update (Function.update s.waitState s.current .none) p .none
    exiting := Function.update s.exiting p false
    needResched := Function.update s.needResched p false
    timeSlice := Function.update s.timeSlice p 0
    pos := Function.update s.pos p .user
    keyed := Function.update s.keyed p false }
  wakeupProc p

/- `dev_stdin_read` where the buffer is empty. -/
def waitForKey : KernelM Unit := do
  modify fun s => { s with
    keyed := Function.update s.keyed s.current false
    keyWait := s.keyWait ++ [s.current] }
  block .kbd .reading

/- `wakeup_queue` of stdin. -/
def wakeReaders : List Nat → KernelM Unit
  | [] => return ()
  | p :: queue => do
      modify fun s => { s with keyed := Function.update s.keyed p true, keyWait := s.keyWait.erase p }
      wakeupProc p
      wakeReaders queue

/- The timers that are due in `run_timer_list`. -/
def fireTimers : List Nat → KernelM Unit
  | [] => return ()
  | p :: timers => do
      let s ← get
      if s.waitState p ≠ .none then check .assertion ((s.waitState p).interrupted = true)
      wakeupProc p
      fireTimers timers

/- The timer interrupt, with a key or without. -/
def timerInterrupt (timers : List Nat) (key : Bool) : KernelM Unit := do
  fireTimers timers
  schedClassProcTick (← get).current
  if key then wakeReaders (← get).keyWait

inductive Syscall where
  | fork (succeeds : Bool)
  | exit
  | wait (pid zombie : Option Nat)
  | kill (p : Nat)
  | sleep
  | read (buffered : Bool)
  | yield

inductive Event where
  | tick (timers : List Nat) (key : Bool)
  | sys (call : Syscall)
  | resume (zombie : Option Nat) (buffered : Bool)
  | schedule

def Syscall.run : Syscall → KernelM Unit
  | .fork succeeds => do
      if succeeds then doFork
      trapEnd
  | .exit => doExit
  | .wait pid zombie => doWait pid zombie
  | .kill p => do
      doKill p
      trapEnd
  | .sleep => block .timer .sleeping
  | .read buffered => if buffered then trapEnd else waitForKey
  | .yield => do
      modify fun s => { s with needResched := Function.update s.needResched s.current true }
      trapEnd

/- The process is in user mode. -/
def Kernel.InUser (s : Kernel) : Prop := s.pos s.current = .user ∧ s.leaving = false

instance (s : Kernel) : Decidable s.InUser := inferInstanceAs (Decidable (_ ∧ _))

/- The current process comes back from `schedule`. -/
def goOn (zombie : Option Nat) (buffered : Bool) : KernelM Unit := do
  let s ← get
  match s.pos s.current with
  | .begin => do
      doFork
      doWait none zombie
  | .again => doWait none zombie
  | .waiting pid => if s.exiting s.current then doExit else doWait pid zombie
  | .sleeping => trapEnd
  | .reading => do
      set { s with keyWait := s.keyWait.erase s.current }
      if s.keyed s.current ∧ !buffered then waitForKey else trapEnd
  | .idle => if s.needResched s.current then leave .idle
  | .user => return ()
  | .gone => return ()

def Event.run : Event → KernelM Unit
  | .tick timers key => do
      let s ← get
      timerInterrupt timers key
      if s.InUser then trapEnd
  | .sys call => call.run
  | .resume zombie buffered => goOn zombie buffered
  | .schedule => Sched.schedule

/- The walk of `do_wait` comes to a zombie exactly if there is one. -/
def Kernel.Finds (s : Kernel) (pid zombie : Option Nat) : Prop :=
  match zombie with
  | some p => p ∈ s.awaited pid ∧ s.state p = .zombie
  | none => ∀ p ∈ s.awaited pid, s.state p ≠ .zombie

/-- The events that can come: the timers that fire are those of processes in `do_sleep`. -/
def Event.Possible (s : Kernel) : Event → Prop
  | .tick timers _ => ∀ p ∈ timers, p ∈ s.procs ∧ s.pos p = .sleeping
  | .sys (.wait pid zombie) => s.InUser ∧ s.Finds pid zombie
  | .sys _ => s.InUser
  | .resume zombie _ => s.leaving = false ∧ s.pos s.current ≠ .user ∧
      match s.pos s.current with
      | .waiting pid => s.Finds pid zombie
      | .again => s.Finds none zombie
      | .begin => zombie = none
      | _ => True
  | .schedule => s.leaving = true

instance (s : Kernel) (pid zombie : Option Nat) : Decidable (s.Finds pid zombie) :=
  match zombie with
  | some p => inferInstanceAs (Decidable (p ∈ s.awaited pid ∧ s.state p = .zombie))
  | none => inferInstanceAs (Decidable (∀ p ∈ s.awaited pid, s.state p ≠ .zombie))

instance (s : Kernel) (e : Event) : Decidable (e.Possible s) :=
  match e with
  | .tick timers _ => inferInstanceAs (Decidable (∀ p ∈ timers, p ∈ s.procs ∧ s.pos p = .sleeping))
  | .sys (.wait pid zombie) => inferInstanceAs (Decidable (s.InUser ∧ s.Finds pid zombie))
  | .sys (.fork _) | .sys .exit | .sys (.kill _) | .sys .sleep | .sys (.read _) | .sys .yield =>
      inferInstanceAs (Decidable s.InUser)
  | .resume zombie _ => by
      unfold Event.Possible
      cases s.pos s.current <;> infer_instance
  | .schedule => inferInstanceAs (Decidable (s.leaving = true))

def KernelStep (s : Kernel) (e : Event) (t : Kernel) : Prop := e.Possible s ∧ e.run s = .ok ((), t)

/-- `proc_init` is done: the idle process runs, and `initproc` is queued. -/
def bootKernel : Kernel where
  procs := {initproc}
  next := 2
  parent := fun _ => idleproc
  state := fun p => if p ≤ 1 then .runnable else .uninit
  waitState := fun _ => .none
  exiting := fun _ => false
  needResched := fun p => p = idleproc
  timeSlice := fun p => if p = initproc then MAX_TIME_SLICE else 0
  pos := fun p => if p = idleproc then .idle else .begin
  keyed := fun _ => false
  keyWait := []
  runList := [initproc]
  procNum := 1
  current := idleproc
  leaving := false

end Ucore.Sched
