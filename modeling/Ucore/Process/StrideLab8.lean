import Ucore.Lib.Transitions
import Ucore.Libs.SkewHeap

/- lab8/kern/schedule/default_sched_stride.c, with the skew heap, under `alloc_proc` and `lab6_set_priority` of
   lab8/kern/process/proc.c. A process is a number, and its `lab6_run_pool` is the node of that number. -/
namespace Ucore.StrideLab8
open SkewHeap Transitions

def BIG_STRIDE : Nat := 2 ^ 30

/-- The run queue with the fields of the processes that the class reads. The code does not keep the processes
allocated, those enqueued and not dequeued, nor what each has `asked` of `lab6_set_priority` since `alloc_proc`. -/
structure RunQueue where
  lab6RunPool : Option Nat
  links : SkewLinks Nat
  procNum : Nat
  maxTimeSlice : Nat
  inRq : Nat → Bool
  timeSlice : Nat → Nat
  lab6Stride : Nat → BitVec 32
  lab6Priority : Nat → BitVec 32
  allocated : Finset Nat
  queued : Finset Nat
  asked : Nat → Option (BitVec 32)

def procStrideCompF (stride : Nat → BitVec 32) (p q : Nat) : Int :=
  let c := (stride p - stride q).toInt
  if c > 0 then 1 else if c = 0 then 0 else -1

def allocProc (proc : Nat) (rq : RunQueue) : RunQueue :=
  { rq with
    inRq := Function.update rq.inRq proc false
    timeSlice := Function.update rq.timeSlice proc 0
    links := skewHeapInit proc rq.links
    lab6Stride := Function.update rq.lab6Stride proc 0
    lab6Priority := Function.update rq.lab6Priority proc 0
    allocated := insert proc rq.allocated
    asked := Function.update rq.asked proc none }

def strideEnqueue (fuel proc : Nat) (rq : RunQueue) : Option RunQueue :=
  (skewHeapInsert (procStrideCompF rq.lab6Stride) fuel rq.lab6RunPool proc rq.links).map fun (pool, links) =>
    { rq with
      lab6RunPool := pool
      links
      timeSlice := Function.update rq.timeSlice proc
        (if rq.timeSlice proc = 0 ∨ rq.timeSlice proc > rq.maxTimeSlice then rq.maxTimeSlice else rq.timeSlice proc)
      inRq := Function.update rq.inRq proc true
      procNum := rq.procNum + 1
      queued := insert proc rq.queued }

/- `none` is the assertion, or the lack of fuel. -/
def strideDequeue (fuel proc : Nat) (rq : RunQueue) : Option RunQueue :=
  if rq.inRq proc = true ∧ rq.procNum > 0 then
    (skewHeapRemove (procStrideCompF rq.lab6Stride) fuel rq.lab6RunPool proc rq.links).map fun (pool, links) =>
      { rq with lab6RunPool := pool, links, procNum := rq.procNum - 1, queued := rq.queued.erase proc }
  else none

/- `none` is the division by zero. -/
def stridePickNext (rq : RunQueue) : Option (Option Nat × RunQueue) :=
  match rq.lab6RunPool with
  | none => some (none, rq)
  | some proc =>
      let priority := (rq.lab6Priority proc).toNat
      if priority = 0 then none
      else
        let stride := rq.lab6Stride proc + BitVec.ofNat 32 (BIG_STRIDE / priority)
        some (some proc, { rq with lab6Stride := Function.update rq.lab6Stride proc stride })

def lab6SetPriority (current : Nat) (priority : BitVec 32) (rq : RunQueue) : RunQueue :=
  { rq with
    lab6Priority := Function.update rq.lab6Priority current (if priority = 0 then 1 else priority)
    asked := Function.update rq.asked current (some priority) }

inductive Call where
  | alloc (proc : Nat)
  | fork (proc : Nat)
  | enqueue (proc : Nat)
  | dequeue (proc : Nat)
  | pickNext
  | setPriority (proc : Nat) (priority : BitVec 32)

/- A `struct proc_struct` that `kmalloc` gives is not queued, and a fork wakes the process up. -/
inductive Step : RunQueue → Call → RunQueue → Prop
  | alloc {rq : RunQueue} {proc : Nat} (out : proc ∉ rq.queued) : Step rq (.alloc proc) (allocProc proc rq)
  | fork {rq rq' : RunQueue} {fuel proc : Nat} (out : proc ∉ rq.queued)
      (done : strideEnqueue fuel proc (allocProc proc rq) = some rq') : Step rq (.fork proc) rq'
  | enqueue {rq rq' : RunQueue} {fuel proc : Nat} (there : proc ∈ rq.allocated) (out : proc ∉ rq.queued)
      (done : strideEnqueue fuel proc rq = some rq') : Step rq (.enqueue proc) rq'
  | dequeue {rq rq' : RunQueue} {fuel proc : Nat} (mem : proc ∈ rq.queued)
      (done : strideDequeue fuel proc rq = some rq') : Step rq (.dequeue proc) rq'
  | pickNext {rq rq' : RunQueue} {picked : Option Nat} (done : stridePickNext rq = some (picked, rq')) :
      Step rq .pickNext rq'
  | setPriority {rq : RunQueue} {proc : Nat} (there : proc ∈ rq.allocated) (priority : BitVec 32) :
      Step rq (.setPriority proc priority) (lab6SetPriority proc priority rq)

/-- `stride_init`, before the first process. -/
structure Init (rq : RunQueue) : Prop where
  pool : rq.lab6RunPool = none
  procNum : rq.procNum = 0
  allocated : rq.allocated = ∅
  queued : rq.queued = ∅

/- A pick from the queue divides by a priority other than 0, and the stride of the process grows. -/
def Progresses (rq : RunQueue) : Prop :=
  rq.queued ≠ ∅ → ∃ p ∈ rq.queued, ∃ rq', stridePickNext rq = some (some p, rq') ∧ rq.lab6Priority p ≠ 0 ∧
    1 ≤ (rq'.lab6Stride p - rq.lab6Stride p).toNat

/- The process at the root of the pool has asked for a priority, and for none above `BIG_STRIDE`. -/
def RootAsked (rq : RunQueue) : Prop :=
  ∀ p, rq.lab6RunPool = some p → ∃ v, rq.asked p = some v ∧ v.toNat ≤ BIG_STRIDE

/- The priority that a process has from what it asked. -/
def priorityOf : Option (BitVec 32) → BitVec 32
  | none => 0
  | some v => if v = 0 then 1 else v

/-- What holds between the calls. -/
structure PoolInv (rq : RunQueue) (h : Heap Nat) : Prop where
  rooted : Rooted rq.links rq.lab6RunPool h
  contents : elems h = rq.queued.val
  known : rq.queued ⊆ rq.allocated
  priority : ∀ p ∈ rq.allocated, rq.lab6Priority p = priorityOf (rq.asked p)

section
variable {rq rq' : RunQueue} {h : Heap Nat} {p proc fuel : Nat} {call : Call} {calls : List Call}

theorem PoolInv.nodup (inv : PoolInv rq h) : (elems h).Nodup := contents_nodup inv.contents

theorem PoolInv.mem (inv : PoolInv rq h) : p ∈ elems h ↔ p ∈ rq.queued := by
  rw [inv.contents, Finset.mem_val]

theorem alloc_inv (inv : PoolInv rq h) (out : proc ∉ rq.queued) : PoolInv (allocProc proc rq) h := by
  have other : ∀ x ∈ elems h, x ≠ proc := fun x mem same => out (same ▸ inv.mem.mp mem)
  obtain ⟨shape, orphan⟩ := inv.rooted
  refine ⟨⟨?_, fun x here => ?_⟩, inv.contents, fun p mem => Finset.mem_insert_of_mem (inv.known mem), fun p mem => ?_⟩
  · exact shape_congr shape inv.nodup
      (fun x mem => ⟨Function.update_of_ne (other x mem) .., Function.update_of_ne (other x mem) ..⟩)
      fun x mem _ => Function.update_of_ne (other x mem) ..
  · exact (Function.update_of_ne (other x (shape_mem shape here)) ..).trans (orphan x here)
  · change Function.update rq.lab6Priority proc 0 p = priorityOf (Function.update rq.asked proc none p)
    by_cases here : p = proc
    · rw [here, Function.update_self, Function.update_self]
      rfl
    · rw [Function.update_of_ne here, Function.update_of_ne here]
      exact inv.priority p ((Finset.mem_insert.mp mem).resolve_left here)

theorem enqueue_inv (inv : PoolInv rq h) (there : proc ∈ rq.allocated) (out : proc ∉ rq.queued)
    (done : strideEnqueue fuel proc rq = some rq') : ∃ k, PoolInv rq' k := by
  obtain ⟨⟨pool, links⟩, ran, rfl⟩ := Option.map_eq_some_iff.mp done
  exact ⟨_, inserted_rooted inv.rooted inv.nodup (fun mem => out (inv.mem.mp mem)) ran, insert_contents inv.contents out,
    Finset.insert_subset there inv.known, inv.priority⟩

theorem dequeue_inv (inv : PoolInv rq h) (mem : proc ∈ rq.queued) (done : strideDequeue fuel proc rq = some rq') :
    ∃ k, PoolInv rq' k := by
  unfold strideDequeue at done
  split_ifs at done
  obtain ⟨⟨pool, links⟩, ran, rfl⟩ := Option.map_eq_some_iff.mp done
  exact ⟨_, removed_rooted inv.rooted inv.nodup (inv.mem.mpr mem) ran, remove_contents inv.contents mem,
    (Finset.erase_subset _ _).trans inv.known, inv.priority⟩

theorem pick_inv {picked : Option Nat} (inv : PoolInv rq h) (done : stridePickNext rq = some (picked, rq')) :
    PoolInv rq' h := by
  unfold stridePickNext at done
  split at done
  · obtain rfl := (Prod.mk.inj (Option.some.inj done)).2
    exact inv
  · dsimp only at done
    split_ifs at done
    obtain rfl := (Prod.mk.inj (Option.some.inj done)).2
    exact ⟨inv.rooted, inv.contents, inv.known, inv.priority⟩

theorem set_priority_inv (inv : PoolInv rq h) (priority : BitVec 32) : PoolInv (lab6SetPriority proc priority rq) h := by
  refine ⟨inv.rooted, inv.contents, inv.known, fun p mem => ?_⟩
  change Function.update rq.lab6Priority proc (if priority = 0 then 1 else priority) p =
    priorityOf (Function.update rq.asked proc (some priority) p)
  by_cases here : p = proc
  · rw [here, Function.update_self, Function.update_self]
    rfl
  · rw [Function.update_of_ne here, Function.update_of_ne here]
    exact inv.priority p mem

theorem step_inv (inv : PoolInv rq h) (step : Step rq call rq') : ∃ k, PoolInv rq' k := by
  cases step with
  | alloc out => exact ⟨h, alloc_inv inv out⟩
  | fork out done => exact enqueue_inv (alloc_inv inv out) (Finset.mem_insert_self ..) out done
  | enqueue there out done => exact enqueue_inv inv there out done
  | dequeue mem done => exact dequeue_inv inv mem done
  | pickNext done => exact ⟨h, pick_inv inv done⟩
  | setPriority there priority => exact ⟨h, set_priority_inv inv priority⟩

/- The step of the stride is 0 exactly above `BIG_STRIDE`. -/
theorem priority_of_step (asked : Option (BitVec 32)) :
    (priorityOf asked ≠ 0 ∧ 1 ≤ (BitVec.ofNat 32 (BIG_STRIDE / (priorityOf asked).toNat)).toNat) ↔
      ∃ v, asked = some v ∧ v.toNat ≤ BIG_STRIDE := by
  cases asked with
  | none => exact ⟨fun ⟨nonzero, _⟩ => absurd rfl nonzero, nofun⟩
  | some v =>
    by_cases zero : v = 0
    · rw [zero]
      exact ⟨fun _ => ⟨0, rfl, Nat.zero_le _⟩, fun _ => ⟨by decide, by decide⟩⟩
    · have mine : priorityOf (some v) = v := if_neg zero
      have positive : 0 < v.toNat := Nat.pos_of_ne_zero fun none_left => zero (BitVec.eq_of_toNat_eq none_left)
      have small : BIG_STRIDE / v.toNat < 2 ^ 32 :=
        Nat.lt_of_le_of_lt (Nat.div_le_self ..) (by decide)
      rw [mine, BitVec.toNat_ofNat, Nat.mod_eq_of_lt small, Nat.le_div_iff_mul_le positive, Nat.one_mul]
      exact ⟨fun ⟨_, below⟩ => ⟨v, rfl, below⟩, fun ⟨w, same, below⟩ => ⟨zero, Option.some.inj same ▸ below⟩⟩

theorem pick_of_root (pool : rq.lab6RunPool = some p) : stridePickNext rq = if (rq.lab6Priority p).toNat = 0 then none
    else
      let stride := rq.lab6Stride p + BitVec.ofNat 32 (BIG_STRIDE / (rq.lab6Priority p).toNat)
      some (some p, { rq with lab6Stride := Function.update rq.lab6Stride p stride }) := by
  unfold stridePickNext
  rw [pool]

theorem inv_progresses (inv : PoolInv rq h) : Progresses rq ↔ RootAsked rq := by
  cases pool : rq.lab6RunPool with
  | none =>
    have empty : rq.queued = ∅ := by
      refine Finset.eq_empty_of_forall_notMem fun p mem => ?_
      have top := shape_start inv.rooted.1
      have mem := inv.mem.mpr mem
      cases h with
      | nil => exact absurd mem (Multiset.notMem_zero p)
      | node l a r => rw [pool] at top; cases top
    refine iff_of_true (fun some_there => absurd empty some_there) fun p here => ?_
    rw [pool] at here
    cases here
  | some p =>
    have mem : p ∈ rq.queued := inv.mem.mp (shape_mem inv.rooted.1 pool)
    have mine := inv.priority p (inv.known mem)
    have asked : RootAsked rq ↔ ∃ v, rq.asked p = some v ∧ v.toNat ≤ BIG_STRIDE := by
      unfold RootAsked
      rw [pool]
      exact ⟨fun all => all p rfl, fun one q here => Option.some.inj here ▸ one⟩
    rw [asked, ← priority_of_step, ← mine]
    constructor
    · intro progress
      obtain ⟨q, _, rq', done, nonzero, grows⟩ := progress (Finset.ne_empty_of_mem mem)
      rw [pick_of_root pool] at done
      split_ifs at done
      obtain ⟨same, rfl⟩ := Prod.mk.inj (Option.some.inj done)
      obtain rfl := Option.some.inj same
      refine ⟨nonzero, ?_⟩
      change 1 ≤ (Function.update rq.lab6Stride p _ p - rq.lab6Stride p).toNat at grows
      rwa [Function.update_self, add_sub_cancel_left] at grows
    · intro ⟨nonzero, grows⟩ _
      have divisor : (rq.lab6Priority p).toNat ≠ 0 := fun zero => nonzero (BitVec.eq_of_toNat_eq zero)
      refine ⟨p, mem, _, (pick_of_root pool).trans (if_neg divisor), nonzero, ?_⟩
      change 1 ≤ (Function.update rq.lab6Stride p _ p - rq.lab6Stride p).toNat
      rwa [Function.update_self, add_sub_cancel_left]

/- Whether a pick progresses is decided by what the process at the root has asked. -/
theorem picks_progress_when_asked (init : Init rq) (run : Run Step rq calls rq') : Progresses rq' ↔ RootAsked rq' := by
  have start : PoolInv rq .nil := by
    refine ⟨⟨init.pool, fun x here => ?_⟩, by rw [init.queued]; rfl, by rw [init.queued]; exact Finset.empty_subset _,
      fun p mem => ?_⟩
    · rw [init.pool] at here
      cases here
    · rw [init.allocated] at mem
      exact absurd mem (Finset.notMem_empty p)
  have keep : ∀ rq call rq', (∃ h, PoolInv rq h) → Step rq call rq' → ∃ h, PoolInv rq' h :=
    fun _ _ _ ⟨_, inv⟩ step => step_inv inv step
  obtain ⟨h, inv⟩ := run_invariant keep run ⟨_, start⟩
  exact inv_progresses inv

end

def emptyQueue : RunQueue :=
  ⟨none, ⟨fun _ => none, fun _ => none, fun _ => none⟩, 0, 5, fun _ => false, fun _ => 0, fun _ => 0, fun _ => 0, ∅, ∅,
    fun _ => none⟩

/- A process that asked for 4 is picked. -/
theorem asked_process_picked : ∃ rq, rq.lab6Stride 1 = 2 ^ 28 ∧ (Progresses rq ↔ RootAsked rq) ∧ RootAsked rq := by
  have run := Run.call (@Step.alloc emptyQueue 1 (by decide)) (.call (@Step.setPriority _ 1 (by decide) 4)
    (.call (@Step.enqueue _ _ 5 1 (by decide) (by decide) rfl) (.call (.pickNext rfl) (.stop _))))
  refine ⟨_, by decide, picks_progress_when_asked ⟨rfl, rfl, rfl, rfl⟩ run, fun p here => ?_⟩
  obtain rfl := Option.some.inj here
  exact ⟨4, rfl, by decide⟩

/- The pick after the first fork divides by 0. -/
theorem first_pick_divides_by_zero : ∃ rq calls rq', Init rq ∧ Run Step rq calls rq' ∧ ¬ Progresses rq' := by
  have run := Run.call (@Step.alloc emptyQueue 0 (by decide)) (.call (@Step.fork _ _ 5 1 (by decide) rfl) (.stop _))
  refine ⟨_, _, _, ⟨rfl, rfl, rfl, rfl⟩, run, fun progress => ?_⟩
  obtain ⟨p, mem, rq', done, nonzero, _⟩ := progress (by decide)
  obtain rfl : p = 1 := Finset.mem_singleton.mp mem
  exact nonzero rfl

end Ucore.StrideLab8
