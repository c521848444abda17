import Ucore.Sync.Monitor

/- lab8/kern/sync/check_sync.c for `N = n + 2` philosophers: `take_forks` and `put_forks` with semaphores and with a
   monitor. Philosopher `i` is process `i`. -/
namespace Ucore.Sync
open Transitions Process
variable {n : Nat}

abbrev Philosopher (n : Nat) := Fin (n + 2)

def left (i : Philosopher n) : Philosopher n := ⟨(i.val + (n + 2) - 1) % (n + 2), Nat.mod_lt _ (Nat.succ_pos _)⟩
def right (i : Philosopher n) : Philosopher n := ⟨(i.val + 1) % (n + 2), Nat.mod_lt _ (Nat.succ_pos _)⟩

inductive Phase where
  | thinking
  | hungry
  | eating
  deriving DecidableEq

/- The condition of `phi_test`. -/
def MayEat (state : Philosopher n → Phase) (j : Philosopher n) : Prop :=
  state j = .hungry ∧ state (left j) ≠ .eating ∧ state (right j) ≠ .eating

instance (state : Philosopher n → Phase) (j : Philosopher n) : Decidable (MayEat state j) :=
  inferInstanceAs (Decidable (_ ∧ _ ∧ _))

inductive PhiCall where
  | takeForks
  | putForks
  deriving DecidableEq

/- The phase that the call sets for the caller. -/
def PhiCall.phase : PhiCall → Phase
  | .takeForks => .hungry
  | .putForks => .thinking

/- The philosophers that the call then tests. -/
def PhiCall.tests (i : Philosopher n) : PhiCall → List (Philosopher n)
  | .takeForks => [i]
  | .putForks => [left i, right i]

inductive PhiSem (n : Nat) where
  | mutex
  | s (i : Philosopher n)
  deriving DecidableEq

/-- Where a philosopher is: before or in its `down` of `mutex`, about to set its phase, about to test the philosophers
`todo`, about to `up` the semaphore of `j`, or before or in the `down` of its own semaphore. -/
inductive SemaAt (n : Nat) where
  | outside
  | entering (call : PhiCall)
  | inside (call : PhiCall)
  | testing (call : PhiCall) (todo : List (Philosopher n))
  | signalling (call : PhiCall) (j : Philosopher n) (todo : List (Philosopher n))
  | waiting
  | eating
  deriving DecidableEq

def SemaAt.sem (i : Philosopher n) : SemaAt n → Option (PhiSem n)
  | .entering _ => some .mutex
  | .waiting => some (.s i)
  | _ => none

/- After the `up` of `mutex`. -/
def PhiCall.semaEnd : PhiCall → SemaAt n
  | .takeForks => .waiting
  | .putForks => .outside

structure TableSema (n : Nat) where
  sems : Sems (PhiSem n) (Philosopher n)
  stateSema : Philosopher n → Phase
  place : Philosopher n → SemaAt n

def TableSema.move (t : TableSema n) (i : Philosopher n) (place : SemaAt n) : TableSema n :=
  { t with place := Function.update t.place i place }

def TableSema.withSems (t : TableSema n) (sems : Sems (PhiSem n) (Philosopher n)) : TableSema n := { t with sems := sems }

/- What follows the `down`. -/
def TableSema.arrive (t : TableSema n) (i : Philosopher n) : TableSema n :=
  match t.place i with
  | .entering call => t.move i (.inside call)
  | _ => t.move i .eating

/- `phi_test_sema` of `j` before its `up`. -/
def phiTestSema (i : Philosopher n) (call : PhiCall) (j : Philosopher n) (todo : List (Philosopher n)) (t : TableSema n) :
    TableSema n :=
  if MayEat t.stateSema j then
    { t.move i (.signalling call j todo) with stateSema := Function.update t.stateSema j .eating }
  else t.move i (.testing call todo)

/-- The steps of `phi_take_forks_sema` and `phi_put_forks_sema`, and those of the rest of the kernel. -/
inductive SemaEvent (n : Nat) where
  | aside (e : SemEvent (PhiSem n) (Philosopher n))
  | take (i : Philosopher n)
  | put (i : Philosopher n)
  | down (i : Philosopher n) (s : PhiSem n)
  | downReturn (i : Philosopher n) (s : PhiSem n)
  | setState (i : Philosopher n) (call : PhiCall)
  | test (i : Philosopher n) (call : PhiCall) (j : Philosopher n) (todo : List (Philosopher n))
  | up (i : Philosopher n) (call : PhiCall) (j : Philosopher n) (todo : List (Philosopher n))
  | leave (i : Philosopher n) (call : PhiCall)

def TableSema.Enabled (t : TableSema n) : SemaEvent n → Prop
  | .aside e => e.Aside ∧ t.sems.Enabled e
  | .take i => t.sems.Runs i ∧ t.place i = .outside
  | .put i => t.sems.Runs i ∧ t.place i = .eating
  | .down i s => t.sems.Enabled (.down i s) ∧ (t.place i).sem i = some s
  | .downReturn i s => t.sems.Enabled (.downReturn i s) ∧ (t.place i).sem i = some s
  | .setState i call => t.sems.Runs i ∧ t.place i = .inside call
  | .test i call j todo => t.sems.Runs i ∧ t.place i = .testing call (j :: todo)
  | .up i call j todo => t.sems.Runs i ∧ t.place i = .signalling call j todo
  | .leave i call => t.sems.Runs i ∧ t.place i = .testing call []

/- `none` is an assertion. -/
def TableSema.call (t : TableSema n) : SemaEvent n → Option (TableSema n)
  | .aside e => (t.sems.call e).map t.withSems
  | .take i => some (t.move i (.entering .takeForks))
  | .put i => some (t.move i (.entering .putForks))
  | .down i s =>
      let waits := t.withSems (down i s t.sems)
      some (if 0 < t.sems.value s then waits.arrive i else waits)
  | .downReturn i s => (downReturn i s t.sems).map fun sems => (t.withSems sems).arrive i
  | .setState i call =>
      some { t.move i (.testing call (call.tests i)) with stateSema := Function.update t.stateSema i call.phase }
  | .test i call j todo => some (phiTestSema i call j todo t)
  | .up i call j todo => (up (.s j) t.sems).map fun sems => (t.withSems sems).move i (.testing call todo)
  | .leave i call => (up .mutex t.sems).map fun sems => (t.withSems sems).move i call.semaEnd

def SemaStep (t : TableSema n) (e : SemaEvent n) (t' : TableSema n) : Prop := t.Enabled e ∧ t.call e = some t'

/- The values of `sem_init` in `check_sync`. -/
def phiInitValue : PhiSem n → Int
  | .mutex => 1
  | .s _ => 0

structure SemaInit (t : TableSema n) : Prop where
  sems : Init phiInitValue t.sems
  state : ∀ i, t.stateSema i = .thinking
  place : ∀ i, t.place i = .outside

/-- Where a philosopher is in the routines of the monitor: as with the semaphores, where `calling` comes before
`cond_signal`, and `signalling` and `waiting` last as long as `cond_signal` and `cond_wait`. -/
inductive CondAt (n : Nat) where
  | outside
  | entering (call : PhiCall)
  | inside (call : PhiCall)
  | testing (call : PhiCall) (todo : List (Philosopher n))
  | calling (call : PhiCall) (j : Philosopher n) (todo : List (Philosopher n))
  | signalling (call : PhiCall) (todo : List (Philosopher n))
  | waiting
  | leaving (call : PhiCall)
  | eating
  deriving DecidableEq

/- After the routine. -/
def PhiCall.condEnd : PhiCall → CondAt n
  | .takeForks => .eating
  | .putForks => .outside

structure TableCondvar (n : Nat) where
  mt : Monitor (Philosopher n) (Philosopher n)
  stateCondvar : Philosopher n → Phase
  place : Philosopher n → CondAt n

def TableCondvar.move (t : TableCondvar n) (i : Philosopher n) (place : CondAt n) : TableCondvar n :=
  { t with place := Function.update t.place i place }

def TableCondvar.withMt (t : TableCondvar n) (mt : Monitor (Philosopher n) (Philosopher n)) : TableCondvar n :=
  { t with mt := mt }

/- What follows a `down` that has returned: nothing if the process waits in it. -/
def TableCondvar.arrive (t : TableCondvar n) (i : Philosopher n) : TableCondvar n :=
  if t.mt.place i = .body then
    match t.place i with
    | .entering call => t.move i (.inside call)
    | .signalling call todo => t.move i (.testing call todo)
    | .waiting => t.move i (.leaving .takeForks)
    | _ => t
  else t

/- `phi_test_condvar` of `j` before `cond_signal`. -/
def phiTestCondvar (i : Philosopher n) (call : PhiCall) (j : Philosopher n) (todo : List (Philosopher n))
    (t : TableCondvar n) : TableCondvar n :=
  if MayEat t.stateCondvar j then
    { t.move i (.calling call j todo) with stateCondvar := Function.update t.stateCondvar j .eating }
  else t.move i (.testing call todo)

/- `cond_signal` returns at once where nobody waits. -/
def phiSignal (i : Philosopher n) (call : PhiCall) (j : Philosopher n) (todo : List (Philosopher n))
    (t : TableCondvar n) : TableCondvar n :=
  (t.withMt (condSignal i j t.mt)).move i
    (if 0 < t.mt.count j then .signalling call todo else .testing call todo)

/- After the tests `phi_take_forks_condvar` waits where the philosopher is still hungry. -/
def phiWait (i : Philosopher n) (call : PhiCall) (t : TableCondvar n) : TableCondvar n :=
  if call = .takeForks ∧ t.stateCondvar i = .hungry then (t.withMt (condWait i i t.mt)).move i .waiting
  else t.move i (.leaving call)

/-- The steps of `phi_take_forks_condvar` and `phi_put_forks_condvar`, and those of the rest of the kernel. -/
inductive CondEvent (n : Nat) where
  | aside (e : SemEvent (MonSem (Philosopher n)) (Philosopher n))
  | take (i : Philosopher n)
  | put (i : Philosopher n)
  | down (i : Philosopher n) (s : MonSem (Philosopher n))
  | downReturn (i : Philosopher n) (s : MonSem (Philosopher n))
  | setState (i : Philosopher n) (call : PhiCall)
  | test (i : Philosopher n) (call : PhiCall) (j : Philosopher n) (todo : List (Philosopher n))
  | signal (i : Philosopher n) (call : PhiCall) (j : Philosopher n) (todo : List (Philosopher n))
  | signalUp (i : Philosopher n) (c : Philosopher n)
  | tested (i : Philosopher n) (call : PhiCall)
  | waitUp (i : Philosopher n) (c : Philosopher n)
  | leave (i : Philosopher n) (call : PhiCall)

def TableCondvar.Enabled (t : TableCondvar n) : CondEvent n → Prop
  | .aside e => t.mt.Enabled (.aside e)
  | .take i => t.mt.Enabled (.enter i) ∧ t.place i = .outside
  | .put i => t.mt.Enabled (.enter i) ∧ t.place i = .eating
  | .down i s => t.mt.Enabled (.down i s)
  | .downReturn i s => t.mt.Enabled (.downReturn i s)
  | .setState i call => t.mt.sems.Runs i ∧ t.place i = .inside call
  | .test i call j todo => t.mt.sems.Runs i ∧ t.place i = .testing call (j :: todo)
  | .signal i call j todo => t.mt.Enabled (.signal i j) ∧ t.place i = .calling call j todo
  | .signalUp i c => t.mt.Enabled (.signalUp i c)
  | .tested i call => t.mt.sems.Runs i ∧ t.place i = .testing call []
  | .waitUp i c => t.mt.Enabled (.waitUp i c)
  | .leave i call => t.mt.Enabled (.leave i) ∧ t.place i = .leaving call

/- `none` is an assertion. -/
def TableCondvar.call (t : TableCondvar n) : CondEvent n → Option (TableCondvar n)
  | .aside e => (t.mt.call (.aside e)).map t.withMt
  | .take i => (t.mt.call (.enter i)).map fun mt => (t.withMt mt).move i (.entering .takeForks)
  | .put i => (t.mt.call (.enter i)).map fun mt => (t.withMt mt).move i (.entering .putForks)
  | .down i s => (t.mt.call (.down i s)).map fun mt => (t.withMt mt).arrive i
  | .downReturn i s => (t.mt.call (.downReturn i s)).map fun mt => (t.withMt mt).arrive i
  | .setState i call =>
      some { t.move i (.testing call (call.tests i)) with stateCondvar := Function.update t.stateCondvar i call.phase }
  | .test i call j todo => some (phiTestCondvar i call j todo t)
  | .signal i call j todo => some (phiSignal i call j todo t)
  | .signalUp i c => (t.mt.call (.signalUp i c)).map t.withMt
  | .tested i call => some (phiWait i call t)
  | .waitUp i c => (t.mt.call (.waitUp i c)).map t.withMt
  | .leave i call => (t.mt.call (.leave i)).map fun mt => (t.withMt mt).move i call.condEnd

def CondStep (t : TableCondvar n) (e : CondEvent n) (t' : TableCondvar n) : Prop := t.Enabled e ∧ t.call e = some t'

structure CondInit (t : TableCondvar n) : Prop where
  mt : MonInit t.mt
  state : ∀ i, t.stateCondvar i = .thinking
  place : ∀ i, t.place i = .outside

end Ucore.Sync
