import Ucore.Sync.Sem

/- lab8/kern/sync/monitor.c: any number of processes in routines of a monitor with the condition variables `C`.
   A routine takes `mutex`, makes any calls of `cond_signal` and `cond_wait`, and gives up the monitor. -/
namespace Ucore.Sync
open Transitions Process
variable {C P : Type*} [DecidableEq C] [DecidableEq P]

inductive MonSem (C : Type*) where
  | mutex
  | next
  | cv (c : C)
  deriving DecidableEq

/-- Where a process is in a routine: before or in its `down` of `mutex`, in the body, in `cond_signal` before the `up`
of the condition variable or before or in the `down` of `next`, in `cond_wait` before the `up` or before or in
the `down` of the condition variable. -/
inductive Place (C : Type*) where
  | outside
  | entering
  | body
  | signalling (c : C)
  | signalled
  | suspending (c : C)
  | suspended (c : C)
  deriving DecidableEq

/- The semaphore of the `down` that comes next. -/
def Place.sem : Place C → Option (MonSem C)
  | .entering => some .mutex
  | .signalled => some .next
  | .suspended c => some (.cv c)
  | _ => none

/- From the return of a `down` to the next `up`. -/
def Place.active : Place C → Bool
  | .body => true
  | .signalling _ => true
  | .suspending _ => true
  | _ => false

structure Monitor (C P : Type*) where
  sems : Sems (MonSem C) P
  nextCount : Int
  count : C → Int
  place : P → Place C

def Monitor.move (m : Monitor C P) (p : P) (place : Place C) : Monitor C P :=
  { m with place := Function.update m.place p place }

def Monitor.withSems (m : Monitor C P) (sems : Sems (MonSem C) P) : Monitor C P := { m with sems := sems }

/- What follows the `down`. -/
def Monitor.arrive (m : Monitor C P) (p : P) : Monitor C P :=
  match m.place p with
  | .signalled => { m.move p .body with nextCount := m.nextCount - 1 }
  | .suspended c => { m.move p .body with count := Function.update m.count c (m.count c - 1) }
  | _ => m.move p .body

/- The semaphore that gives up the monitor. -/
def Monitor.exitSem (m : Monitor C P) : MonSem C := if 0 < m.nextCount then .next else .mutex

/- `cond_signal` before its `up`. -/
def condSignal (p : P) (c : C) (m : Monitor C P) : Monitor C P :=
  if 0 < m.count c then { m.move p (.signalling c) with nextCount := m.nextCount + 1 } else m

/- `cond_wait` before its `up`. -/
def condWait (p : P) (c : C) (m : Monitor C P) : Monitor C P :=
  { m.move p (.suspending c) with count := Function.update m.count c (m.count c + 1) }

/-- The steps of the processes in the monitor, and those of the rest of the kernel. -/
inductive MonEvent (C P : Type*) where
  | aside (e : SemEvent (MonSem C) P)
  | enter (p : P)
  | down (p : P) (s : MonSem C)
  | downReturn (p : P) (s : MonSem C)
  | signal (p : P) (c : C)
  | signalUp (p : P) (c : C)
  | wait (p : P) (c : C)
  | waitUp (p : P) (c : C)
  | leave (p : P)

def Monitor.Enabled (m : Monitor C P) : MonEvent C P → Prop
  | .aside e => e.Aside ∧ m.sems.Enabled e ∧ ∀ p, e = .exit p → m.place p = .outside
  | .enter p => m.sems.Runs p ∧ m.place p = .outside
  | .down p s => m.sems.Enabled (.down p s) ∧ (m.place p).sem = some s
  | .downReturn p s => m.sems.Enabled (.downReturn p s) ∧ (m.place p).sem = some s
  | .signal p _ => m.sems.Runs p ∧ m.place p = .body
  | .signalUp p c => m.sems.Runs p ∧ m.place p = .signalling c
  | .wait p _ => m.sems.Runs p ∧ m.place p = .body
  | .waitUp p c => m.sems.Runs p ∧ m.place p = .suspending c
  | .leave p => m.sems.Runs p ∧ m.place p = .body

/- `none` is an assertion. -/
def Monitor.call (m : Monitor C P) : MonEvent C P → Option (Monitor C P)
  | .aside e => (m.sems.call e).map m.withSems
  | .enter p => some (m.move p .entering)
  | .down p s =>
      let waits := m.withSems (down p s m.sems)
      some (if 0 < m.sems.value s then waits.arrive p else waits)
  | .downReturn p s => (downReturn p s m.sems).map fun sems => (m.withSems sems).arrive p
  | .signal p c => some (condSignal p c m)
  | .signalUp p c => (up (.cv c) m.sems).map fun sems => (m.withSems sems).move p .signalled
  | .wait p c => some (condWait p c m)
  | .waitUp p c => (up m.exitSem m.sems).map fun sems => (m.withSems sems).move p (.suspended c)
  | .leave p => (up m.exitSem m.sems).map fun sems => (m.withSems sems).move p .outside

def MonStep (m : Monitor C P) (e : MonEvent C P) (m' : Monitor C P) : Prop := m.Enabled e ∧ m.call e = some m'

/- The values of `monitor_init`. -/
def initValue : MonSem C → Int
  | .mutex => 1
  | _ => 0

/-- After `monitor_init`, with nobody in a routine. -/
structure MonInit (m : Monitor C P) : Prop where
  sems : Init initValue m.sems
  nextCount : m.nextCount = 0
  count : ∀ c, m.count c = 0
  place : ∀ p, m.place p = .outside

end Ucore.Sync
