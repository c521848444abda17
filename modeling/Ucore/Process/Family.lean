import Ucore.Lib.Programs
import Ucore.Lib.Transitions
import Ucore.Process.GetPid
import Ucore.Process.ProcState

/- The family of the processes in lab8/kern/process/proc.c: `set_links`, `remove_links`, and what
   `do_fork`, `do_exit` and `do_wait` do to the links. A process is its address. -/
namespace Ucore.Relations
open Programs Transitions Process

/-- `parent` of the idle process is never read. -/
structure Family where
  idleproc : Nat
  initproc : Nat
  parent : Nat → Nat
  cptr : Nat → Option Nat
  optr : Nat → Option Nat
  yptr : Nat → Option Nat
  state : Nat → ProcState
  waitState : Nat → WaitState
  pid : Nat → Nat
  procList : List Nat
  hashList : Nat → List Nat
  nrProcess : Nat

inductive FamilyStop where
  | idleExit
  | initExit
  | assertion
  | waitKernel
  | endless
  deriving DecidableEq

abbrev FamilyM (α : Type) := Prog FamilyStop Family α

/- `if (proc != NULL) proc->yptr = yptr`. -/
def Family.setYptr (s : Family) (proc yptr : Option Nat) : Family :=
  match proc with
  | some p => { s with yptr := Function.update s.yptr p yptr }
  | none => s

def setLinks (proc : Nat) (s : Family) : Family :=
  let optr := s.cptr (s.parent proc)
  let s := { s with
    procList := proc :: s.procList
    yptr := Function.update s.yptr proc none
    optr := Function.update s.optr proc optr }
  let s := s.setYptr optr (some proc)
  { s with
    cptr := Function.update s.cptr (s.parent proc) (some proc)
    nrProcess := s.nrProcess + 1 }

def removeLinks (proc : Nat) (s : Family) : Family :=
  let s := { s with procList := s.procList.erase proc }
  let s := s.setYptr (s.optr proc) (s.yptr proc)
  let s := match s.yptr proc with
    | some y => { s with optr := Function.update s.optr y (s.optr proc) }
    | none => { s with cptr := Function.update s.cptr (s.parent proc) (s.optr proc) }
  { s with nrProcess := s.nrProcess - 1 }

/- `hash32` with `HASH_SHIFT` bits. -/
def pidHashfn (pid : Nat) : Nat := (pid * 0x9e370001 % 2 ^ 32) >>> 22

def hashProc (proc : Nat) (s : Family) : Family :=
  let bucket := pidHashfn (s.pid proc)
  { s with hashList := Function.update s.hashList bucket (proc :: s.hashList bucket) }

def unhashProc (proc : Nat) (s : Family) : Family :=
  let bucket := pidHashfn (s.pid proc)
  { s with hashList := Function.update s.hashList bucket ((s.hashList bucket).erase proc) }

def Family.findProc (s : Family) (pid : Nat) : Option Nat :=
  if 0 < pid ∧ pid < GetPid.MAX_PID then
    (s.hashList (pidHashfn pid)).find? fun proc => s.pid proc = pid
  else none

def wakeupProc (proc : Nat) : FamilyM Unit := do
  let s ← get
  check .assertion (s.state proc ≠ .zombie)
  if s.state proc ≠ .runnable then
    set { s with
      state := Function.update s.state proc .runnable
      waitState := Function.update s.waitState proc .none }

/- `alloc_proc` at a given address. -/
def allocProc (proc : Nat) (s : Family) : Family :=
  { s with
    cptr := Function.update s.cptr proc none
    optr := Function.update s.optr proc none
    yptr := Function.update s.yptr proc none
    state := Function.update s.state proc .uninit
    waitState := Function.update s.waitState proc .none }

/- `do_fork` by `current`; where a copy fails the process is freed before it has links. -/
def doFork (current proc pid : Nat) (fails : Bool) : FamilyM (Option Nat) := do
  if (← get).nrProcess ≥ GetPid.MAX_PROCESS then return none
  modify (allocProc proc)
  modify fun s => { s with
    parent := Function.update s.parent proc current
    waitState := Function.update s.waitState current .none }
  if fails then return none
  modify fun s => { s with pid := Function.update s.pid proc pid }
  modify (hashProc proc)
  modify (setLinks proc)
  wakeupProc proc
  return some proc

/- The loop body of `do_exit`: the first child of `current` becomes the first child of `initproc`. -/
def adopt (current proc : Nat) (s : Family) : Family :=
  let s := { s with
    cptr := Function.update s.cptr current (s.optr proc)
    yptr := Function.update s.yptr proc none }
  let older := s.cptr s.initproc
  let s := { s with optr := Function.update s.optr proc older }
  let s := s.setYptr older (some proc)
  { s with
    parent := Function.update s.parent proc s.initproc
    cptr := Function.update s.cptr s.initproc (some proc) }

/- The loop of `do_exit` over the children; `fuel` bounds its rounds. -/
def reparent (current : Nat) : Nat → FamilyM Unit
  | 0 => stop .endless
  | fuel + 1 => do
      match (← get).cptr current with
      | none => return ()
      | some proc =>
          modify (adopt current proc)
          let s ← get
          if s.state proc = .zombie ∧ s.waitState s.initproc = .child then wakeupProc s.initproc
          reparent current fuel

def doExit (current : Nat) : FamilyM (Option Nat) := do
  let s ← get
  if current = s.idleproc then stop .idleExit
  if current = s.initproc then stop .initExit
  set { s with state := Function.update s.state current .zombie }
  if s.waitState (s.parent current) = .child then wakeupProc (s.parent current)
  reparent current s.nrProcess
  return none

/- The walk of `do_wait` along `optr` to the first zombie. -/
def firstZombie : Nat → Option Nat → FamilyM (Option Nat)
  | _, none => return none
  | 0, some _ => stop .endless
  | fuel + 1, some proc => do
      let s ← get
      if s.state proc = .zombie then return some proc
      firstZombie fuel (s.optr proc)

/- From the label `found`. -/
def found (proc : Nat) : FamilyM (Option Nat) := do
  let s ← get
  check .waitKernel (proc ≠ s.idleproc ∧ proc ≠ s.initproc)
  modify (unhashProc proc)
  modify (removeLinks proc)
  return some proc

/- The rest of a round: the caller sleeps if it has a child. -/
def waitChild (current : Nat) (haskid : Bool) : FamilyM (Option Nat) := do
  if haskid then
    modify fun s => { s with
      state := Function.update s.state current .sleeping
      waitState := Function.update s.waitState current .child }
  return none

/- One round of `do_wait`: from the start or from `repeat` up to `schedule` or the end. The answer is the
process that was reaped. -/
def doWait (current pid : Nat) : FamilyM (Option Nat) := do
  let s ← get
  if pid ≠ 0 then
    match s.findProc pid with
    | some proc =>
        if s.parent proc = current then
          if s.state proc = .zombie then found proc else waitChild current true
        else waitChild current false
    | none => waitChild current false
  else
    match ← firstZombie s.nrProcess (s.cptr current) with
    | some proc => found proc
    | none => waitChild current (s.cptr current).isSome

/- `wake` is any other wakeup. -/
inductive FamilyOp where
  | fork (current proc pid : Nat) (fails : Bool)
  | exit (current : Nat)
  | wait (current pid : Nat)
  | wake (proc : Nat)

def FamilyOp.run : FamilyOp → FamilyM (Option Nat)
  | .fork current proc pid fails => doFork current proc pid fails
  | .exit current => doExit current
  | .wait current pid => doWait current pid
  | .wake proc => do
      wakeupProc proc
      return none

/-- The process is there, live or zombie. -/
def Family.Present (s : Family) (p : Nat) : Prop := p = s.idleproc ∨ p ∈ s.procList

instance (s : Family) (p : Nat) : Decidable (s.Present p) := inferInstanceAs (Decidable (_ ∨ _))

/-- A process runs; a new one gets an address that is not in use. -/
def FamilyOp.Possible (s : Family) : FamilyOp → Prop
  | .fork current proc _ _ => s.Present current ∧ s.state current = .runnable ∧ ¬ s.Present proc
  | .exit current => s.Present current ∧ s.state current = .runnable
  | .wait current _ => s.Present current ∧ s.state current = .runnable
  | .wake proc => proc ∈ s.procList ∧ s.state proc = .sleeping

instance (s : Family) (op : FamilyOp) : Decidable (op.Possible s) := by
  cases op <;> unfold FamilyOp.Possible <;> infer_instance

structure FamilyEvent where
  op : FamilyOp
  ret : Option Nat

/- The process that the event puts on the list, or takes off. -/
def FamilyEvent.forked (e : FamilyEvent) : Option Nat :=
  match e.op with
  | .fork .. => e.ret
  | _ => none

def FamilyEvent.reaped (e : FamilyEvent) : Option Nat :=
  match e.op with
  | .wait .. => e.ret
  | _ => none

def FamilyStep (s : Family) (e : FamilyEvent) (t : Family) : Prop :=
  e.op.Possible s ∧ e.op.run s = .ok (e.ret, t)

/-- `proc_init` is done. -/
def bootFamily (idle init : Nat) : Family where
  idleproc := idle
  initproc := init
  parent := fun _ => idle
  cptr := fun p => if p = idle then some init else none
  optr := fun _ => none
  yptr := fun _ => none
  state := fun p => if p = idle ∨ p = init then .runnable else .uninit
  waitState := fun _ => .none
  pid := fun p => if p = init then 1 else 0
  procList := [init]
  hashList := fun bucket => if bucket = pidHashfn 1 then [init] else []
  nrProcess := 2

end Ucore.Relations
