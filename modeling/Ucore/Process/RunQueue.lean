import Ucore.Process.Kernel

/- The run queue: what enqueues and dequeues keep. -/
namespace Ucore.Sched
open Programs Transitions Process

/-- The run list holds the processes that are runnable and not running. -/
structure Queue (s : Kernel) : Prop where
  distinct : s.runList.Nodup
  queued : ∀ p, p ∈ s.runList ↔ p ∈ s.procs ∧ s.state p = .runnable ∧ p ≠ s.current
  count : s.procNum = s.runList.length
  slices : ∀ p ∈ s.runList, s.timeSlice p ≤ MAX_TIME_SLICE
  slice : s.current ≠ idleproc → s.timeSlice s.current ≤ MAX_TIME_SLICE
  current : s.current ≠ idleproc → s.current ∈ s.procs
  idle : idleproc ∉ s.procs ∧ s.state idleproc = .runnable ∧ s.waitState idleproc = .none
  waits : ∀ p ∈ s.procs, (s.waitState p ≠ .none ↔ s.state p = .sleeping)
  interruptible : ∀ p ∈ s.procs, s.waitState p ≠ .ksem

/-- Nothing happens but that processes are woken. -/
structure Wakes (s t : Kernel) : Prop where
  procs : t.procs = s.procs
  next : t.next = s.next
  parent : t.parent = s.parent
  exiting : t.exiting = s.exiting
  pos : t.pos = s.pos
  current : t.current = s.current
  leaving : t.leaving = s.leaving
  state : ∀ p, (t.state p = s.state p ∧ t.waitState p = s.waitState p) ∨
    (s.state p ≠ .zombie ∧ t.state p = .runnable ∧ t.waitState p = .none)
  order : ∃ woken, t.runList = s.runList ++ woken

section
variable {s t u : Kernel} {p : Nat}

theorem wakes_refl (s : Kernel) : Wakes s s :=
  ⟨rfl, rfl, rfl, rfl, rfl, rfl, rfl, fun _ => .inl ⟨rfl, rfl⟩, [], (List.append_nil _).symm⟩

theorem wakes_trans (first : Wakes s t) (second : Wakes t u) : Wakes s u := by
  refine ⟨second.procs.trans first.procs, second.next.trans first.next, second.parent.trans first.parent,
    second.exiting.trans first.exiting, second.pos.trans first.pos, second.current.trans first.current,
    second.leaving.trans first.leaving, fun p => ?_, ?_⟩
  · rcases first.state p with ⟨state, wait⟩ | ⟨alive, state, wait⟩
    · rcases second.state p with ⟨state', wait'⟩ | ⟨alive', state', wait'⟩
      · exact .inl ⟨state'.trans state, wait'.trans wait⟩
      · rw [state] at alive'
        exact .inr ⟨alive', state', wait'⟩
    · rcases second.state p with ⟨state', wait'⟩ | ⟨_, state', wait'⟩
      · exact .inr ⟨alive, state'.trans state, wait'.trans wait⟩
      · exact .inr ⟨alive, state', wait'⟩
  · obtain ⟨woken, list⟩ := first.order
    obtain ⟨woken', list'⟩ := second.order
    exact ⟨woken ++ woken', by rw [list', list, List.append_assoc]⟩

theorem wakes_zombie (wakes : Wakes s t) : t.state p = .zombie ↔ s.state p = .zombie := by
  rcases wakes.state p with ⟨state, _⟩ | ⟨alive, state, _⟩
  · rw [state]
  · rw [state]
    exact iff_of_false (by decide) alive

theorem wakes_runnable (wakes : Wakes s t) (runnable : s.state p = .runnable) : t.state p = .runnable := by
  rcases wakes.state p with ⟨state, _⟩ | ⟨_, state, _⟩
  · exact state.trans runnable
  · exact state

/- What `RR_enqueue` leaves. -/
def Kernel.enqueue (s : Kernel) (p : Nat) : Kernel :=
  { s with
    runList := s.runList ++ [p]
    timeSlice := Function.update s.timeSlice p
      (if s.timeSlice p = 0 ∨ s.timeSlice p > MAX_TIME_SLICE then MAX_TIME_SLICE else s.timeSlice p)
    procNum := s.procNum + 1 }

theorem enqueue_run (other : p ≠ idleproc) (outside : p ∉ s.runList) :
    schedClassEnqueue p s = .ok ((), s.enqueue p) := by
  unfold schedClassEnqueue rrEnqueue
  rw [if_pos other, run_get_bind, run_check_bind outside]
  rfl

theorem full_slice (n : Nat) : (if n = 0 ∨ n > MAX_TIME_SLICE then MAX_TIME_SLICE else n) ≤ MAX_TIME_SLICE := by
  split_ifs with renewed
  · exact le_refl _
  · omega

theorem enqueue_slice {q : Nat} (bounded : q ≠ p → s.timeSlice q ≤ MAX_TIME_SLICE) :
    (s.enqueue p).timeSlice q ≤ MAX_TIME_SLICE := by
  change Function.update s.timeSlice p _ q ≤ _
  by_cases same : q = p
  · rw [same, Function.update_self]
    exact full_slice _
  · rw [Function.update_of_ne same]
    exact bounded same

def Kernel.awake (s : Kernel) (p : Nat) : Kernel :=
  { s with
    state := Function.update s.state p .runnable
    waitState := Function.update s.waitState p .none }

theorem awake_self : (s.awake p).state p = .runnable := Function.update_self ..

theorem awake_other {q : Nat} (other : q ≠ p) : (s.awake p).state q = s.state q :=
  Function.update_of_ne other ..

theorem awake_wakes (alive : s.state p ≠ .zombie) : Wakes s (s.awake p) := by
  refine ⟨rfl, rfl, rfl, rfl, rfl, rfl, rfl, fun q => ?_, [], (List.append_nil _).symm⟩
  by_cases same : q = p
  · subst q
    exact .inr ⟨alive, awake_self, Function.update_self ..⟩
  · exact .inl ⟨awake_other same, Function.update_of_ne same ..⟩

/- What `wakeup_proc` does. -/
theorem wakeup_meets (queue : Queue s) (known : p ∈ s.procs) (alive : s.state p ≠ .zombie) :
    ∃ t, wakeupProc p s = .ok ((), t) ∧ Queue t ∧ Wakes s t ∧ t.needResched = s.needResched ∧
      t.keyed = s.keyed ∧ t.keyWait = s.keyWait ∧ t.state p = .runnable := by
  have notIdle : p ≠ idleproc := by
    rintro rfl
    exact queue.idle.1 known
  unfold wakeupProc
  rw [run_get_bind, run_check_bind alive]
  by_cases awake : s.state p ≠ .runnable
  · rw [if_pos awake, run_set_bind]
    have outside : p ∉ s.runList := fun mem => awake ((queue.queued p).mp mem).2.1
    have waits : ∀ q ∈ s.procs, ((s.awake p).waitState q ≠ .none ↔ (s.awake p).state q = .sleeping) := by
      intro q mem
      by_cases same : q = p
      · subst q
        rw [awake_self]
        exact iff_of_false (fun waits => waits (Function.update_self ..)) (by decide)
      · rw [awake_other same]
        have wait : (s.awake p).waitState q = s.waitState q := Function.update_of_ne same ..
        rw [wait]
        exact queue.waits q mem
    have interruptible : ∀ q ∈ s.procs, (s.awake p).waitState q ≠ .ksem := by
      intro q mem
      change Function.update s.waitState p .none q ≠ .ksem
      by_cases same : q = p
      · rw [same, Function.update_self]
        decide
      · rw [Function.update_of_ne same]
        exact queue.interruptible q mem
    have idle : idleproc ∉ s.procs ∧ (s.awake p).state idleproc = .runnable ∧
        (s.awake p).waitState idleproc = .none :=
      ⟨queue.idle.1, (awake_other (Ne.symm notIdle)).trans queue.idle.2.1,
        (Function.update_of_ne (Ne.symm notIdle) ..).trans queue.idle.2.2⟩
    by_cases running : p ≠ s.current
    · rw [if_pos running]
      refine ⟨_, enqueue_run (s := s.awake p) notIdle outside, ?_, ?_, rfl, rfl, rfl, awake_self⟩
      · refine ⟨?_, fun q => ?_, ?_, fun q mem => enqueue_slice fun other => ?_,
          fun busy => enqueue_slice fun _ => queue.slice busy, queue.current, idle, waits, interruptible⟩
        · exact List.nodup_append.mpr ⟨queue.distinct, List.nodup_singleton p, by
            intro a mem b last
            rw [List.mem_singleton.mp last]
            rintro rfl
            exact outside mem⟩
        · change q ∈ s.runList ++ [p] ↔ q ∈ s.procs ∧ (s.awake p).state q = .runnable ∧ q ≠ s.current
          rw [List.mem_append, List.mem_singleton]
          by_cases same : q = p
          · subst q
            rw [awake_self]
            exact iff_of_true (.inr rfl) ⟨known, rfl, running⟩
          · rw [awake_other same, or_iff_left same]
            exact queue.queued q
        · change s.procNum + 1 = (s.runList ++ [p]).length
          rw [List.length_append, queue.count]
          rfl
        · have mem' : q ∈ s.runList ++ [p] := mem
          rw [List.mem_append, List.mem_singleton, or_iff_left other] at mem'
          exact queue.slices q mem'
      · have wakes := awake_wakes alive
        exact { wakes with order := ⟨[p], rfl⟩ }
    · rw [if_neg running]
      have here : p = s.current := not_not.mp running
      refine ⟨_, rfl, ?_, awake_wakes alive, rfl, rfl, rfl, awake_self⟩
      refine ⟨queue.distinct, fun q => ?_, queue.count, queue.slices, queue.slice, queue.current, idle, waits,
        interruptible⟩
      change q ∈ s.runList ↔ q ∈ s.procs ∧ (s.awake p).state q = .runnable ∧ q ≠ s.current
      by_cases same : q = p
      · subst q
        exact iff_of_false outside fun ready => ready.2.2 here
      · rw [awake_other same]
        exact queue.queued q
  · rw [if_neg awake]
    exact ⟨s, rfl, queue, wakes_refl s, rfl, rfl, rfl, not_not.mp awake⟩

/- The processes that wait for the processor when the current one has given it up. -/
def Kernel.ready (s : Kernel) : List Nat :=
  if s.state s.current = .runnable ∧ s.current ≠ idleproc then s.runList ++ [s.current] else s.runList

theorem ready_mem (queue : Queue s) : p ∈ s.ready ↔ p ∈ s.procs ∧ s.state p = .runnable := by
  unfold Kernel.ready
  by_cases again : s.state s.current = .runnable ∧ s.current ≠ idleproc
  · rw [if_pos again, List.mem_append, List.mem_singleton, queue.queued]
    constructor
    · rintro (⟨known, runnable, _⟩ | rfl)
      · exact ⟨known, runnable⟩
      · exact ⟨queue.current again.2, again.1⟩
    · rintro ⟨known, runnable⟩
      by_cases same : p = s.current
      · exact .inr same
      · exact .inl ⟨known, runnable, same⟩
  · rw [if_neg again, queue.queued]
    constructor
    · exact fun ⟨known, runnable, _⟩ => ⟨known, runnable⟩
    · rintro ⟨known, runnable⟩
      refine ⟨known, runnable, ?_⟩
      rintro rfl
      refine again ⟨runnable, fun idle => ?_⟩
      rw [idle] at known
      exact queue.idle.1 known

theorem ready_nodup (queue : Queue s) : s.ready.Nodup := by
  unfold Kernel.ready
  split_ifs
  · refine List.nodup_append.mpr ⟨queue.distinct, List.nodup_singleton _, ?_⟩
    intro a mem b last
    rw [List.mem_singleton.mp last]
    rintro rfl
    exact ((queue.queued _).mp mem).2.2 rfl
  · exact queue.distinct

/-- `schedule` takes the process that has been ready for the longest time, and changes nothing else. -/
structure Scheduled (s t : Kernel) : Prop where
  current : t.current = s.ready.head?.getD idleproc
  list : t.runList = s.ready.tail
  leaving : t.leaving = false
  same : t.procs = s.procs ∧ t.next = s.next ∧ t.parent = s.parent ∧ t.state = s.state ∧
    t.waitState = s.waitState ∧ t.exiting = s.exiting ∧ t.pos = s.pos ∧ t.keyed = s.keyed ∧
    t.keyWait = s.keyWait

/- The current process is queued again if it can run. -/
def Kernel.requeued (s : Kernel) : Kernel :=
  let r := { s with needResched := Function.update s.needResched s.current false }
  if s.state s.current = .runnable ∧ s.current ≠ idleproc then r.enqueue s.current else r

theorem requeued_list : s.requeued.runList = s.ready := by
  unfold Kernel.requeued Kernel.ready
  split_ifs <;> rfl

theorem requeued_count (queue : Queue s) : s.requeued.procNum = s.ready.length := by
  unfold Kernel.requeued Kernel.ready
  dsimp only
  split_ifs
  · change s.procNum + 1 = (s.runList ++ [s.current]).length
    rw [List.length_append, queue.count]
    rfl
  · exact queue.count

theorem requeued_slice (queue : Queue s) (mem : p ∈ s.ready) : s.requeued.timeSlice p ≤ MAX_TIME_SLICE := by
  unfold Kernel.requeued
  unfold Kernel.ready at mem
  dsimp only
  split_ifs at mem ⊢ with again
  · apply enqueue_slice
    intro other
    rw [List.mem_append, List.mem_singleton, or_iff_left other] at mem
    exact queue.slices p mem
  · exact queue.slices p mem

/- A process that runs on is behind the queue before the next one is picked. -/
theorem schedule_requeues (queue : Queue s) : schedule s = (do
    match ← rrPickNext with
    | some next =>
        rrDequeue next
        modify fun s => { s with current := next, leaving := false }
    | none => modify fun s => { s with current := idleproc, leaving := false } : KernelM Unit) s.requeued := by
  unfold schedule Kernel.requeued
  rw [run_modify_bind, run_get_bind]
  dsimp only
  by_cases runnable : s.state s.current = .runnable
  · rw [if_pos runnable]
    by_cases busy : s.current ≠ idleproc
    · rw [if_pos ⟨runnable, busy⟩]
      exact run_bind (enqueue_run busy fun mem => ((queue.queued _).mp mem).2.2 rfl)
    · have skipped : ¬ (s.state s.current = .runnable ∧ s.current ≠ idleproc) := fun both => busy both.2
      unfold schedClassEnqueue
      rw [if_neg skipped, if_neg busy]
      rfl
  · have skipped : ¬ (s.state s.current = .runnable ∧ s.current ≠ idleproc) := fun both => runnable both.1
    rw [if_neg runnable]
    exact (congrArg _ (if_neg skipped)).symm

theorem schedule_meets (queue : Queue s) :
    ∃ t, schedule s = .ok ((), t) ∧ Queue t ∧ Scheduled s t := by
  have same : s.requeued.procs = s.procs ∧ s.requeued.next = s.next ∧ s.requeued.parent = s.parent ∧
      s.requeued.state = s.state ∧ s.requeued.waitState = s.waitState ∧ s.requeued.exiting = s.exiting ∧
      s.requeued.pos = s.pos ∧ s.requeued.keyed = s.keyed ∧ s.requeued.keyWait = s.keyWait := by
    unfold Kernel.requeued
    dsimp only
    split_ifs <;> exact ⟨rfl, rfl, rfl, rfl, rfl, rfl, rfl, rfl, rfl⟩
  have list := requeued_list (s := s)
  have pick : rrPickNext s.requeued = .ok (s.ready.head?, s.requeued) := by
    rw [← list]
    rfl
  rw [schedule_requeues queue, run_bind pick]
  obtain ⟨procs, next, parent, state, waitState, exiting, pos, keyed, keyWait⟩ := same
  have keeps : ∀ t : Kernel, t.procs = s.requeued.procs → t.state = s.requeued.state →
      t.waitState = s.requeued.waitState → t.timeSlice = s.requeued.timeSlice →
      t.runList = s.ready.tail → t.procNum = s.ready.tail.length →
      t.current = s.ready.head?.getD idleproc → Queue t := by
    intro t procs' state' wait' slice' list' count' current'
    have rest : s.ready = t.current :: t.runList ∨ (s.ready = [] ∧ t.current = idleproc) := by
      rw [current', list']
      cases s.ready with
      | nil => exact .inr ⟨rfl, rfl⟩
      | cons p le => exact .inl rfl
    have member : ∀ p, p ∈ s.ready ↔ p ∈ t.procs ∧ t.state p = .runnable := by
      intro p
      rw [procs', procs, state', state]
      exact ready_mem queue
    have distinct := ready_nodup queue
    refine ⟨?_, fun p => ?_, ?_, fun p mem => ?_, fun busy => ?_, fun busy => ?_, ?_, ?_, ?_⟩
    · rw [list']
      exact distinct.tail
    · rcases rest with whole | ⟨empty, idle⟩
      · rw [whole] at member distinct
        have outside := (List.nodup_cons.mp distinct).1
        have here := member p
        rw [List.mem_cons] at here
        constructor
        · intro mem
          obtain ⟨known, runnable⟩ := here.mp (.inr mem)
          exact ⟨known, runnable, fun same => outside (same ▸ mem)⟩
        · rintro ⟨known, runnable, other⟩
          exact (here.mpr ⟨known, runnable⟩).resolve_left other
      · rw [list', empty]
        have here := member p
        rw [empty] at here
        exact iff_of_false List.not_mem_nil fun ready => List.not_mem_nil (here.mpr ⟨ready.1, ready.2.1⟩)
    · rw [count', list']
    · rw [slice']
      apply requeued_slice queue
      rw [list'] at mem
      exact List.mem_of_mem_tail mem
    · rw [slice']
      apply requeued_slice queue
      rcases rest with whole | ⟨_, idle⟩
      · rw [whole]
        exact List.mem_cons_self ..
      · exact absurd idle busy
    · rcases rest with whole | ⟨_, idle⟩
      · apply ((member t.current).mp _).1
        rw [whole]
        exact List.mem_cons_self ..
      · exact absurd idle busy
    · rw [procs', procs, state', state, wait', waitState]
      exact queue.idle
    · rw [procs', procs, state', state, wait', waitState]
      exact queue.waits
    · rw [procs', procs, wait', waitState]
      exact queue.interruptible
  cases head : s.ready with
  | nil =>
    let t : Kernel := { s.requeued with current := idleproc, leaving := false }
    refine ⟨t, rfl, ?_, ?_⟩
    · apply keeps t rfl rfl rfl rfl
      · rw [head]
        exact list.trans head
      · rw [head]
        exact (requeued_count queue).trans (congrArg List.length head)
      · rw [head]
        rfl
    · refine ⟨?_, ?_, rfl, procs, next, parent, state, waitState, exiting, pos, keyed, keyWait⟩
      · rw [head]
        rfl
      · rw [head]
        exact list.trans head
  | cons p le =>
    have inside : p ∈ s.requeued.runList := by
      rw [list, head]
      exact List.mem_cons_self ..
    have erased : s.requeued.runList.erase p = le := by
      rw [list, head]
      exact List.erase_cons_head ..
    let t : Kernel := { s.requeued with
      runList := s.requeued.runList.erase p
      procNum := s.requeued.procNum - 1
      current := p
      leaving := false }
    refine ⟨t, ?_, ?_, ?_⟩
    · have dequeued : rrDequeue p s.requeued = .ok ((), { s.requeued with
          runList := s.requeued.runList.erase p
          procNum := s.requeued.procNum - 1 }) := by
        unfold rrDequeue
        rw [run_get_bind, run_check_bind inside]
        rfl
      exact run_bind dequeued
    · apply keeps t rfl rfl rfl rfl
      · rw [head]
        exact erased
      · rw [head]
        change s.requeued.procNum - 1 = le.length
        rw [requeued_count queue, head]
        rfl
      · rw [head]
        rfl
    · refine ⟨?_, ?_, rfl, procs, next, parent, state, waitState, exiting, pos, keyed, keyWait⟩
      · rw [head]
        rfl
      · rw [head]
        exact erased

end

end Ucore.Sched
