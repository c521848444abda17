import Ucore.Process.StrideSteps

/- When the stride scheduler picks the process with the smallest stride, over all runs. -/
namespace Ucore.Stride
open Transitions Process SkewHeap

/-- A process that joins the run queue has a stride close to those there: a child, a woken process, and one
that is put back after others were woken while it ran. -/
def SchedEvent.Near (s : Sched) : SchedEvent → Prop
  | .fork => ∀ q ∈ elems s.pool, Close 0 (s.total q)
  | .wakeup p => p ≠ s.current → ∀ q ∈ elems s.pool, Close (s.total p) (s.total q)
  | .schedule => s.current ≠ idleproc → s.state s.current = .runnable →
      ∀ q ∈ elems s.pool, q ∈ s.joined → Close (s.total s.current) (s.total q)
  | _ => True

/-- At the pick of `schedule` the strides are close, the comparison orders them as the strides without
wrap-around, and the process that is picked has the smallest. -/
def OrderedPick (s : Sched) : Prop :=
  Spread s.requeue ∧
  (∀ p ∈ elems s.requeue.pool, ∀ q ∈ elems s.requeue.pool,
    procStrideCompF s.requeue p q = true ↔ s.requeue.total p < s.requeue.total q) ∧
  ∀ p, (stridePickNext s.requeue).1 = some p → ∀ q ∈ elems s.requeue.pool, s.requeue.total p ≤ s.requeue.total q

structure SchedOk (s : Sched) : Prop where
  pool : PoolOk s
  members : ∀ p ∈ elems s.pool, s.state p = .runnable ∧ p ≠ s.current ∧ p ≠ idleproc
  fresh : ∀ p, s.next ≤ p → s.state p = .uninit ∧ p ≠ s.current ∧ p ≠ idleproc
  idle : s.state idleproc = .runnable
  near : s.current ≠ idleproc → ∀ q ∈ elems s.pool, q ∉ s.joined → Close (s.total s.current) (s.total q)

section
variable {s t : Sched} {p q : Nat} {e : SchedEvent}

theorem spread_cons (pool : elems t.pool = p ::ₘ elems s.pool) (total : t.total = s.total) (spread : Spread s) :
    Spread t ↔ ∀ q ∈ elems s.pool, Close (s.total p) (s.total q) := by
  unfold Spread
  rw [pool, total]
  constructor
  · intro all q mem
    exact all p (Multiset.mem_cons_self _ _) q (Multiset.mem_cons_of_mem mem)
  · intro close x hx y hy
    rcases Multiset.mem_cons.mp hx with rfl | oldX
    · rcases Multiset.mem_cons.mp hy with rfl | oldY
      · exact close_self
      · exact close y oldY
    · rcases Multiset.mem_cons.mp hy with rfl | oldY
      · exact close_symm (close x oldX)
      · exact spread x oldX y oldY

theorem requeue_fields : s.requeue.state = s.state ∧ s.requeue.total = s.total ∧ s.requeue.next = s.next ∧
    s.requeue.joined = s.joined ∧ s.requeue.current = s.current := by
  unfold Sched.requeue schedClassEnqueue
  dsimp only
  split_ifs
  · exact ⟨rfl, rfl, rfl, rfl, rfl⟩
  · exact ⟨rfl, rfl, rfl, rfl, rfl⟩
  · exact ⟨rfl, rfl, rfl, rfl, rfl⟩

/- The pool at the pick. -/
theorem requeue_elems : elems s.requeue.pool =
    if s.current ≠ idleproc ∧ s.state s.current = .runnable then s.current ::ₘ elems s.pool else elems s.pool := by
  unfold Sched.requeue schedClassEnqueue
  dsimp only
  by_cases runnable : s.state s.current = .runnable
  · rw [if_pos runnable]
    by_cases busy : s.current ≠ idleproc
    · rw [if_pos busy, if_pos ⟨busy, runnable⟩]
      exact enqueue_elems
    · rw [if_neg busy, if_neg fun both => busy both.1]
  · rw [if_neg runnable, if_neg fun both => runnable both.2]

theorem current_close (ok : SchedOk s) (near : SchedEvent.Near s .schedule) (busy : s.current ≠ idleproc)
    (runnable : s.state s.current = .runnable) (mem : q ∈ elems s.pool) : Close (s.total s.current) (s.total q) := by
  by_cases joined : q ∈ s.joined
  · exact near busy runnable q mem joined
  · exact ok.near busy q mem joined

theorem requeue_ok (ok : SchedOk s) (near : SchedEvent.Near s .schedule) : PoolOk s.requeue := by
  have start : PoolOk { s with needResched := Function.update s.needResched s.current false } :=
    pool_ok_same ok.pool rfl rfl rfl rfl rfl
  unfold Sched.requeue schedClassEnqueue
  dsimp only
  by_cases runnable : s.state s.current = .runnable
  · rw [if_pos runnable]
    by_cases busy : s.current ≠ idleproc
    · rw [if_pos busy]
      have close : ∀ q ∈ elems s.pool, Close (s.total s.current) (s.total q) :=
        fun q mem => current_close ok near busy runnable mem
      exact enqueue_ok start (fun mem => (ok.members _ mem).2.1 rfl) close
    · rw [if_neg busy]
      exact start
  · rw [if_neg runnable]
    exact start

theorem ordered_pick (ok : PoolOk s.requeue) : OrderedPick s := by
  refine ⟨ok.spread, fun p hp q hq => comp_right ok.stride (ok.spread p hp q hq), fun p pick q mem => ?_⟩
  have here : root s.requeue.pool = some p := by
    unfold stridePickNext at pick
    cases top : root s.requeue.pool with
    | none =>
      rw [top] at pick
      cases pick
    | some a =>
      rw [top] at pick
      exact pick
  exact root_smallest ok here mem

theorem ordered_pick_iff (ok : SchedOk s) : OrderedPick s ↔ SchedEvent.Near s .schedule := by
  refine ⟨fun ordered busy runnable q mem _ => ?_, fun near => ordered_pick (requeue_ok ok near)⟩
  have pool := requeue_elems (s := s)
  rw [if_pos ⟨busy, runnable⟩] at pool
  have close := ordered.1 s.current (pool ▸ Multiset.mem_cons_self _ _) q (pool ▸ Multiset.mem_cons_of_mem mem)
  rw [requeue_fields.2.1] at close
  exact close

/- A process that does not run is woken. -/
theorem wakeup_ok (ok : SchedOk s) (asleep : s.state p ≠ .runnable) (alive : s.state p ≠ .zombie) (old : p < s.next)
    (close : p ≠ s.current → ∀ q ∈ elems s.pool, Close (s.total p) (s.total q)) :
    ∃ t, wakeupProc p s = some t ∧ SchedOk t := by
  have busy : p ≠ idleproc := by
    rintro rfl
    exact asleep ok.idle
  have out : p ∉ elems s.pool := fun mem => asleep (ok.members p mem).1
  have start : PoolOk { s with state := Function.update s.state p .runnable } :=
    pool_ok_same ok.pool rfl rfl rfl rfl rfl
  have states : ∀ q, s.state q = .runnable → Function.update s.state p .runnable q = .runnable := by
    intro q was
    by_cases same : q = p
    · rw [same, Function.update_self]
    · rw [Function.update_of_ne same, was]
  have fresh : ∀ q, s.next ≤ q → Function.update s.state p .runnable q = .uninit ∧ q ≠ s.current ∧ q ≠ idleproc := by
    intro q new
    rw [Function.update_of_ne (by omega)]
    exact ok.fresh q new
  unfold wakeupProc schedClassEnqueue
  rw [if_neg alive, if_pos asleep]
  dsimp only
  by_cases other : p ≠ s.current
  · rw [if_pos other, if_pos busy]
    refine ⟨_, rfl, ?_, fun q mem => ?_, fresh, states _ ok.idle, fun running q mem new => ?_⟩
    · have entered : PoolOk (strideEnqueue p { s with state := Function.update s.state p .runnable }) :=
        enqueue_ok start out (close other)
      exact pool_ok_same entered rfl rfl rfl rfl rfl
    · rcases Multiset.mem_cons.mp (enqueue_elems ▸ mem) with rfl | before
      · exact ⟨Function.update_self .., other, busy⟩
      · obtain ⟨was, notCurrent, notIdle⟩ := ok.members q before
        exact ⟨states q was, notCurrent, notIdle⟩
    · have notNew : q ≠ p := fun same => new (same ▸ List.mem_cons_self ..)
      have before : q ∈ elems s.pool := (Multiset.mem_cons.mp (enqueue_elems ▸ mem)).resolve_left notNew
      exact ok.near running q before fun joined => new (List.mem_cons_of_mem _ joined)
  · rw [if_neg other]
    refine ⟨_, rfl, start, fun q mem => ?_, fresh, states _ ok.idle, ok.near⟩
    obtain ⟨was, notCurrent, notIdle⟩ := ok.members q mem
    exact ⟨states q was, notCurrent, notIdle⟩

/- What a waking does to the pool. -/
theorem wakeup_elems (asleep : s.state p ≠ .runnable) (busy : p ≠ idleproc) (woken : wakeupProc p s = some t) :
    t.total = s.total ∧ elems t.pool = if p ≠ s.current then p ::ₘ elems s.pool else elems s.pool := by
  unfold wakeupProc schedClassEnqueue at woken
  rw [if_pos asleep] at woken
  dsimp only at woken
  by_cases dead : s.state p = .zombie
  · rw [if_pos dead] at woken
    cases woken
  · rw [if_neg dead] at woken
    by_cases other : p ≠ s.current
    · rw [if_pos other, if_pos busy] at woken
      cases woken
      rw [if_pos other]
      exact ⟨rfl, enqueue_elems⟩
    · rw [if_neg other] at woken
      cases woken
      rw [if_neg other]
      exact ⟨rfl, rfl⟩

/-- The state in which `do_fork` wakes the child. -/
def Sched.child (s : Sched) : Sched :=
  { s with
    next := s.next + 1
    inRq := Function.update s.inRq s.next false
    lab6Stride := Function.update s.lab6Stride s.next 0
    lab6Priority := Function.update s.lab6Priority s.next 0
    timeSlice := Function.update s.timeSlice s.next 0
    needResched := Function.update s.needResched s.next false
    state := Function.update s.state s.next .uninit
    total := Function.update s.total s.next 0 }

theorem child_ok (ok : SchedOk s) : SchedOk s.child ∧ ∀ q ∈ elems s.pool, s.child.total q = s.total q := by
  have old : ∀ q, s.state q = .runnable → q ≠ s.next := by
    rintro q runnable rfl
    rw [(ok.fresh s.next (le_refl _)).1] at runnable
    cases runnable
  have same : ∀ q ∈ elems s.pool, s.child.total q = s.total q :=
    fun q mem => Function.update_of_ne (old q (ok.members q mem).1) ..
  have current : s.child.total s.current = s.total s.current :=
    Function.update_of_ne (ok.fresh s.next (le_refl _)).2.1.symm ..
  refine ⟨⟨⟨fun q => ?_, ordered_congr ok.pool.ordered same, ok.pool.nodup, ok.pool.count, fun q mem => ?_,
    fun x hx y hy => ?_⟩, fun q mem => ?_, fun q new => ?_, ?_, fun running q mem notJoined => ?_⟩, same⟩
  · change Function.update s.lab6Stride s.next 0 q = BitVec.ofNat 32 (Function.update s.total s.next 0 q)
    by_cases here : q = s.next
    · rw [here, Function.update_self, Function.update_self]
      rfl
    · rw [Function.update_of_ne here, Function.update_of_ne here]
      exact ok.pool.stride q
  · exact (Function.update_of_ne (old q (ok.members q mem).1) ..).trans (ok.pool.queued q mem)
  · rw [same x hx, same y hy]
    exact ok.pool.spread x hx y hy
  · obtain ⟨runnable, notCurrent, notIdle⟩ := ok.members q mem
    exact ⟨(Function.update_of_ne (old q runnable) ..).trans runnable, notCurrent, notIdle⟩
  · have later : s.next ≤ q := Nat.le_of_succ_le new
    obtain ⟨uninit, notCurrent, notIdle⟩ := ok.fresh q later
    refine ⟨?_, notCurrent, notIdle⟩
    have other : q ≠ s.next := Nat.ne_of_gt new
    exact (Function.update_of_ne other ..).trans uninit
  · exact (Function.update_of_ne (old idleproc ok.idle) ..).trans ok.idle
  · rw [same q mem]
    change Close (s.child.total s.current) _
    rw [current]
    exact ok.near running q mem notJoined

/- Another state of the current process. -/
theorem leave_ok (ok : SchedOk s) (busy : s.current ≠ idleproc) (state : ProcState) :
    SchedOk { s with state := Function.update s.state s.current state } := by
  refine ⟨pool_ok_same ok.pool rfl rfl rfl rfl rfl, fun q mem => ?_, fun q new => ?_, ?_, ok.near⟩
  · obtain ⟨runnable, notCurrent, notIdle⟩ := ok.members q mem
    exact ⟨(Function.update_of_ne notCurrent ..).trans runnable, notCurrent, notIdle⟩
  · obtain ⟨uninit, notCurrent, notIdle⟩ := ok.fresh q new
    exact ⟨(Function.update_of_ne notCurrent ..).trans uninit, notCurrent, notIdle⟩
  · exact (Function.update_of_ne busy.symm ..).trans ok.idle

theorem schedule_ok (ok : SchedOk s) (near : SchedEvent.Near s .schedule) : ∃ t, schedule s = some t ∧ SchedOk t ∧
    ((root s.requeue.pool = none ∧ t = { s.requeue with current := idleproc }) ∨
      ∃ p, root s.requeue.pool = some p ∧ Picked s.requeue t p) := by
  have pool := requeue_ok ok near
  obtain ⟨state, total, next, _, _⟩ := requeue_fields (s := s)
  unfold schedule
  cases top : root s.requeue.pool with
  | none =>
    have pick : stridePickNext s.requeue = (none, s.requeue) := by
      unfold stridePickNext
      rw [top]
    rw [pick]
    have empty : elems s.requeue.pool = 0 := by
      cases whole : s.requeue.pool with
      | nil => rfl
      | node l a r =>
        rw [whole] at top
        cases top
    refine ⟨_, rfl, ⟨pool_ok_same pool rfl rfl rfl rfl rfl, fun q mem => ?_, fun q new => ?_, ?_, ?_⟩, .inl ⟨rfl, rfl⟩⟩
    · change q ∈ elems s.requeue.pool at mem
      rw [empty] at mem
      exact absurd mem (Multiset.notMem_zero q)
    · change s.requeue.next ≤ q at new
      rw [next] at new
      obtain ⟨uninit, _, notIdle⟩ := ok.fresh q new
      exact ⟨(congrFun state q).trans uninit, notIdle, notIdle⟩
    · exact (congrFun state idleproc).trans ok.idle
    · exact fun never => absurd rfl never
  | some p =>
    obtain ⟨t, run, first, after, picked⟩ := pick_run pool top
    have mem := root_mem top
    have members : ∀ q ∈ elems s.requeue.pool, s.state q = .runnable ∧ q ≠ idleproc := by
      intro q hq
      rw [requeue_elems] at hq
      split_ifs at hq with again
      · rcases Multiset.mem_cons.mp hq with rfl | before
        · exact ⟨again.2, again.1⟩
        · exact ⟨(ok.members q before).1, (ok.members q before).2.2⟩
      · exact ⟨(ok.members q hq).1, (ok.members q hq).2.2⟩
    have found : stridePickNext s.requeue = (some p, (stridePickNext s.requeue).2) := Prod.ext first rfl
    rw [found]
    have rest : ∀ q ∈ elems t.pool, q ∈ elems s.requeue.pool ∧ q ≠ p := by
      intro q hq
      rw [picked.elems] at hq
      exact ⟨Multiset.mem_of_mem_erase hq, ((pool.nodup.mem_erase_iff).mp hq).1⟩
    refine ⟨t, run, ⟨after, fun q hq => ?_, fun q new => ?_, ?_, fun _ q hq _ => ?_⟩, .inr ⟨p, rfl, picked⟩⟩
    · obtain ⟨inside, other⟩ := rest q hq
      obtain ⟨runnable, notIdle⟩ := members q inside
      rw [picked.state, picked.current, state]
      exact ⟨runnable, other, notIdle⟩
    · rw [picked.next, next] at new
      obtain ⟨uninit, _, notIdle⟩ := ok.fresh q new
      rw [picked.state, picked.current, state]
      refine ⟨uninit, ?_, notIdle⟩
      rintro rfl
      rw [(members q mem).1] at uninit
      cases uninit
    · rw [picked.state, state]
      exact ok.idle
    · -- The picked process had the smallest stride and has gone on by at most `BIG_STRIDE`.
      obtain ⟨inside, other⟩ := rest q hq
      have least := root_smallest pool top inside
      have close := pool.spread p mem q inside
      have step : s.requeue.pass p ≤ BIG_STRIDE := pass_le
      rw [picked.current, picked.total, Function.update_self, Function.update_of_ne other]
      unfold Close at close ⊢
      omega

theorem step_ok (ok : SchedOk s) (step : SchedStep s e t) (near : e.Near s) : SchedOk t := by
  unfold SchedStep Sched.step at step
  cases e with
  | fork =>
    dsimp only at step
    split_ifs at step
    obtain ⟨childOk, same⟩ := child_ok ok
    have mine : s.child.state s.next = .uninit := Function.update_self ..
    have zero : s.child.total s.next = 0 := Function.update_self ..
    obtain ⟨u, woken, after⟩ := wakeup_ok childOk (by rw [mine]; decide) (by rw [mine]; decide)
      (Nat.lt_succ_self s.next) fun _ q mem => by
        rw [zero, same q mem]
        exact near q mem
    cases woken.symm.trans step
    exact after
  | sleep =>
    dsimp only at step
    split_ifs at step with both
    cases step
    exact leave_ok ok both.1 .sleeping
  | exit =>
    dsimp only at step
    split_ifs at step with both
    cases step
    exact leave_ok ok both.1 .zombie
  | setPriority priority =>
    dsimp only at step
    split_ifs at step
    cases step
    exact ⟨pool_ok_same ok.pool rfl rfl rfl rfl rfl, ok.members, ok.fresh, ok.idle, ok.near⟩
  | wakeup p =>
    dsimp only at step
    split_ifs at step with asleep
    have old : p < s.next := by
      by_contra new
      rw [(ok.fresh p (not_lt.mp new)).1] at asleep
      cases asleep
    obtain ⟨u, woken, after⟩ := wakeup_ok ok (by rw [asleep]; decide) (by rw [asleep]; decide) old near
    cases woken.symm.trans step
    exact after
  | tick =>
    cases step
    unfold schedClassProcTick strideProcTick
    dsimp only
    split_ifs
    · exact ⟨pool_ok_same ok.pool rfl rfl rfl rfl rfl, ok.members, ok.fresh, ok.idle, ok.near⟩
    · exact ⟨pool_ok_same ok.pool rfl rfl rfl rfl rfl, ok.members, ok.fresh, ok.idle, ok.near⟩
    · exact ⟨pool_ok_same ok.pool rfl rfl rfl rfl rfl, ok.members, ok.fresh, ok.idle, ok.near⟩
  | schedule =>
    obtain ⟨u, run, after, _⟩ := schedule_ok ok near
    cases run.symm.trans step
    exact after

/- Only the events that join a process can spread the strides. -/
theorem step_spread (ok : SchedOk s) (step : SchedStep s e t) (other : e ≠ .schedule) : Spread t ↔ e.Near s := by
  have still : ∀ {u : Sched}, u.pool = s.pool → u.total = s.total → Spread u := by
    intro u pool total
    unfold Spread
    rw [pool, total]
    exact ok.pool.spread
  unfold SchedStep Sched.step at step
  cases e with
  | fork =>
    dsimp only at step
    split_ifs at step
    obtain ⟨childOk, same⟩ := child_ok ok
    have mine : s.child.state s.next = .uninit := Function.update_self ..
    have zero : s.child.total s.next = 0 := Function.update_self ..
    obtain ⟨total, pool⟩ := wakeup_elems (s := s.child) (by rw [mine]; decide) (ok.fresh s.next (le_refl _)).2.2 step
    have notCurrent : s.next ≠ s.child.current := (ok.fresh s.next (le_refl _)).2.1
    rw [if_pos notCurrent] at pool
    rw [spread_cons (s := s.child) pool total childOk.pool.spread, zero]
    constructor
    · intro close q mem
      rw [← same q mem]
      exact close q mem
    · intro close q mem
      rw [same q mem]
      exact close q mem
  | sleep =>
    dsimp only at step
    split_ifs at step
    cases step
    exact ⟨fun _ => trivial, fun _ => still rfl rfl⟩
  | exit =>
    dsimp only at step
    split_ifs at step
    cases step
    exact ⟨fun _ => trivial, fun _ => still rfl rfl⟩
  | setPriority priority =>
    dsimp only at step
    split_ifs at step
    cases step
    exact ⟨fun _ => trivial, fun _ => still rfl rfl⟩
  | wakeup p =>
    dsimp only at step
    split_ifs at step with asleep
    have busy : p ≠ idleproc := by
      rintro rfl
      rw [ok.idle] at asleep
      cases asleep
    obtain ⟨total, pool⟩ := wakeup_elems (by rw [asleep]; decide) busy step
    unfold SchedEvent.Near
    by_cases notCurrent : p ≠ s.current
    · rw [if_pos notCurrent] at pool
      rw [spread_cons pool total ok.pool.spread]
      exact ⟨fun close _ => close, fun close => close notCurrent⟩
    · rw [if_neg notCurrent] at pool
      refine ⟨fun _ notNow => absurd notNow notCurrent, fun _ => ?_⟩
      unfold Spread
      rw [pool, total]
      exact ok.pool.spread
  | tick =>
    cases step
    refine ⟨fun _ => trivial, fun _ => ?_⟩
    unfold schedClassProcTick strideProcTick
    dsimp only
    split_ifs
    · exact still rfl rfl
    · exact still rfl rfl
    · exact still rfl rfl
  | schedule => exact absurd rfl other

theorem init_ok (init : Init s) : SchedOk s := by
  have empty : elems s.pool = 0 := by
    rw [init.pool]
    rfl
  have outside : ∀ q, q ∉ elems s.pool := by
    intro q mem
    rw [empty] at mem
    exact Multiset.notMem_zero q mem
  refine ⟨⟨fun q => ?_, ?_, ?_, ?_, fun q mem => absurd mem (outside q), fun q mem => absurd mem (outside q)⟩,
    fun q mem => absurd mem (outside q), fun q new => ?_, init.idle, fun busy => absurd init.current busy⟩
  · rw [init.stride, init.total]
    rfl
  · rw [init.pool]
    trivial
  · rw [empty]
    exact Multiset.nodup_zero
  · rw [init.procNum, empty, Multiset.card_zero]
  · rw [init.next] at new
    have later : q ≠ idleproc := Nat.ne_of_gt new
    rw [init.current]
    exact ⟨init.others q later, later, later⟩

end

/-- As long as every process that joins the run queue has a stride close to those there, the next pick orders
the processes as their strides without wrap-around exactly if the process put back then is close too, and an
event before it keeps the strides in the queue close exactly if the process that joins is close. -/
theorem close_joiners_are_ordered {s₀ s : Sched} {es : List SchedEvent} (init : Init s₀)
    (run : Run (fun s e t => SchedStep s e t ∧ e.Near s) s₀ es s) :
    (OrderedPick s ↔ SchedEvent.Near s .schedule) ∧
      ∀ e t, SchedStep s e t → e ≠ .schedule → (Spread t ↔ e.Near s) := by
  have keep : ∀ s e t, SchedOk s → (SchedStep s e t ∧ e.Near s) → SchedOk t :=
    fun _ _ _ ok step => step_ok ok step.1 step.2
  have ok : SchedOk s := run_invariant keep run (init_ok init)
  exact ⟨ordered_pick_iff ok, fun e t step other => step_spread ok step other⟩

/- `idleproc` alone. -/
def idleOnly : Sched where
  pool := .nil
  procNum := 0
  inRq := fun _ => false
  lab6Stride := fun _ => 0
  lab6Priority := fun _ => 0
  timeSlice := fun _ => 0
  needResched := fun _ => false
  state := fun p => if p = idleproc then .runnable else .uninit
  current := idleproc
  next := 1
  total := fun _ => 0
  joined := []

theorem idle_only_init : Init idleOnly :=
  ⟨rfl, rfl, rfl, rfl, rfl, fun _ busy => if_neg busy, fun _ => rfl, fun _ => rfl⟩

/- The state after an event that is possible. -/
def Sched.after (s : Sched) (e : SchedEvent) : Sched := (s.step e).getD s

theorem step_after {s : Sched} {e : SchedEvent} (possible : (s.step e).isSome = true) : SchedStep s e (s.after e) := by
  unfold SchedStep Sched.after
  rw [Option.getD_of_ne_none (Option.isSome_iff_ne_none.mp possible)]

/- A process that has run once forks, and both are there at the next pick. -/
theorem early_child_is_ordered : ∃ s, Run (fun s e t => SchedStep s e t ∧ e.Near s) idleOnly
    [.fork, .schedule, .fork] s ∧ OrderedPick s := by
  have run : Run (fun s e t => SchedStep s e t ∧ e.Near s) idleOnly [.fork, .schedule, .fork]
      (((idleOnly.after .fork).after .schedule).after .fork) := by
    refine .call ⟨step_after ?_, ?_⟩ (.call ⟨step_after ?_, ?_⟩ (.call ⟨step_after ?_, ?_⟩ (.stop _)))
    · decide +kernel
    · exact fun q mem => absurd mem (Multiset.notMem_zero q)
    · decide +kernel
    · exact fun busy => absurd (by decide +kernel) busy
    · decide +kernel
    · have empty : elems ((idleOnly.after .fork).after .schedule).pool = 0 := by decide +kernel
      intro q mem
      rw [empty] at mem
      exact absurd mem (Multiset.notMem_zero q)
  refine ⟨_, run, (close_joiners_are_ordered idle_only_init run).1.mpr fun _ _ q mem _ => ?_⟩
  have pool : elems (((idleOnly.after .fork).after .schedule).after .fork).pool = {2} := by decide +kernel
  rw [pool] at mem
  obtain rfl : q = 2 := Multiset.mem_singleton.mp mem
  unfold Close
  decide +kernel

/-- A child of a process that has been picked three times starts with stride 0, and its parent is picked
before it. -/
theorem late_child_is_misordered : ∃ s, Run SchedStep idleOnly [.fork, .schedule, .schedule, .schedule, .fork] s ∧
    ¬ OrderedPick s ∧ (stridePickNext s.requeue).1 = some 1 ∧ s.requeue.total 2 < s.requeue.total 1 ∧
    2 ∈ elems s.requeue.pool := by
  refine ⟨((((idleOnly.after .fork).after .schedule).after .schedule).after .schedule).after .fork,
    .call (step_after ?_) (.call (step_after ?_) (.call (step_after ?_) (.call (step_after ?_)
    (.call (step_after ?_) (.stop _))))), ?_, ?_, ?_, ?_⟩
  · decide +kernel
  · decide +kernel
  · decide +kernel
  · decide +kernel
  · decide +kernel
  · intro ordered
    have close := ordered.1 1 (by decide +kernel) 2 (by decide +kernel)
    exact absurd close.1 (by decide +kernel)
  · decide +kernel
  · decide +kernel
  · decide +kernel

end Ucore.Stride
