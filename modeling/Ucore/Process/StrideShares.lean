import Ucore.Process.StrideRuns

/- The shares of processes that are always runnable. -/
namespace Ucore.Stride
open Transitions Process SkewHeap

/-- `schedule` dispatches this process. -/
def Dispatch (s : Sched) (p : Nat) (t : Sched) : Prop := schedule s = some t ∧ t.current = p

/-- The processes of `P` are in the run queue with equal strides and priorities of at least 1. -/
structure Start (s : Sched) (P : Finset Nat) : Prop where
  pool : elems s.pool = P.val
  procNum : s.procNum = P.card
  queued : ∀ p ∈ P, s.inRq p = true
  stride : ∀ p, s.lab6Stride p = BitVec.ofNat 32 (s.total p)
  equal : ∀ p ∈ P, ∀ q ∈ P, s.total p = s.total q
  priority : ∀ p ∈ P, s.lab6Priority p ≠ 0
  runnable : ∀ p ∈ P, s.state p = .runnable ∧ p ≠ idleproc
  current : s.current = idleproc
  idle : s.state idleproc = .runnable
  fresh : ∀ p, s.next ≤ p → s.state p = .uninit ∧ p ≠ idleproc

/-- A process is dispatched again after at most so many others. -/
def waitBound (s : Sched) (P : Finset Nat) : Nat := ∑ p ∈ P, 2 * P.sup s.pass / s.pass p

/-- The processes of `P` share the processor: `ps` are those dispatched since `s₀`. -/
structure Sharing (s₀ : Sched) (P : Finset Nat) (ps : List Nat) (s : Sched) : Prop where
  ok : SchedOk s
  here : (s.current = idleproc ∧ elems s.pool = P.val) ∨
    (s.current ∈ P ∧ elems s.pool = P.val.erase s.current ∧ s.joined = [])
  runnable : ∀ p ∈ P, s.state p = .runnable ∧ p ≠ idleproc
  pass : ∀ p, s.pass p = s₀.pass p
  total : ∀ p ∈ P, s.total p = s₀.total p + ps.count p * s₀.pass p
  least : ∃ m, ∀ p ∈ P, m ≤ s.total p ∧ s.total p ≤ m + P.sup s₀.pass
  members : ∀ p ∈ ps, p ∈ P ∨ P = ∅

section
variable {s₀ s t : Sched} {P : Finset Nat} {ps qs : List Nat} {p : Nat}

theorem ordered_equal {h : Heap Nat} {key : Nat → Nat} (equal : ∀ p ∈ elems h, ∀ q ∈ elems h, key p = key q) :
    Ordered key h := by
  induction h with
  | nil => trivial
  | node l a r ihl ihr =>
    have below : ∀ x ∈ elems l + elems r, x ∈ elems (.node l a r) := fun x mem => Multiset.mem_cons_of_mem mem
    refine ⟨fun x mem => (equal a (Multiset.mem_cons_self _ _) x (below x mem)).le, ihl fun x hx y hy => ?_,
      ihr fun x hx y hy => ?_⟩
    · exact equal x (below x (Multiset.mem_add.mpr (.inl hx))) y (below y (Multiset.mem_add.mpr (.inl hy)))
    · exact equal x (below x (Multiset.mem_add.mpr (.inr hx))) y (below y (Multiset.mem_add.mpr (.inr hy)))

theorem start_ok (start : Start s P) : SchedOk s := by
  have inside : ∀ q, q ∈ elems s.pool ↔ q ∈ P := by
    intro q
    rw [start.pool]
    rfl
  refine ⟨⟨start.stride, ordered_equal fun p hp q hq => ?_, ?_, ?_, fun p mem => ?_, fun p hp q hq => ?_⟩,
    fun p mem => ?_, fun p new => ?_, start.idle, fun busy => absurd start.current busy⟩
  · exact start.equal p ((inside p).mp hp) q ((inside q).mp hq)
  · rw [start.pool]
    exact P.nodup
  · rw [start.pool, start.procNum]
    rfl
  · exact start.queued p ((inside p).mp mem)
  · rw [start.equal p ((inside p).mp hp) q ((inside q).mp hq)]
    exact close_self
  · obtain ⟨runnable, busy⟩ := start.runnable p ((inside p).mp mem)
    rw [start.current]
    exact ⟨runnable, busy, busy⟩
  · obtain ⟨uninit, busy⟩ := start.fresh p new
    rw [start.current]
    exact ⟨uninit, busy, busy⟩

theorem start_sharing (start : Start s P) : Sharing s P [] s := by
  refine ⟨start_ok start, .inl ⟨start.current, start.pool⟩, start.runnable, fun _ => rfl, fun p _ => ?_, ?_,
    fun _ mem => absurd mem List.not_mem_nil⟩
  · rw [List.count_nil, Nat.zero_mul, Nat.add_zero]
  · rcases P.eq_empty_or_nonempty with rfl | ⟨q, hq⟩
    · exact ⟨0, fun p mem => absurd mem (Finset.notMem_empty p)⟩
    · refine ⟨s.total q, fun p mem => ?_⟩
      rw [start.equal p mem q hq]
      exact ⟨le_refl _, Nat.le_add_right _ _⟩

theorem at_least_one_twice {priority : BitVec 32} : atLeastOne (atLeastOne priority) = atLeastOne priority := by
  unfold atLeastOne
  split_ifs with zero one
  · exact absurd one (by decide)
  · rfl
  · rfl

/- All of `P` are in the queue at the pick. -/
theorem sharing_requeue (sharing : Sharing s₀ P ps s) : elems s.requeue.pool = P.val := by
  rw [requeue_elems]
  rcases sharing.here with ⟨current, pool⟩ | ⟨mem, pool, _⟩
  · rw [if_neg fun both => both.1 current, pool]
  · rw [if_pos ⟨(sharing.runnable _ mem).2, (sharing.runnable _ mem).1⟩, pool]
    exact Multiset.cons_erase mem

theorem requeue_pass : s.requeue.pass p = s.pass p := by
  unfold Sched.requeue schedClassEnqueue
  dsimp only
  split_ifs
  · unfold Sched.pass strideEnqueue
    dsimp only
    by_cases same : p = s.current
    · rw [same, Function.update_self, at_least_one_twice]
    · rw [Function.update_of_ne same]
  · rfl
  · rfl

theorem picked_pass {q : Nat} (picked : Picked s t p) : t.pass q = s.pass q := by
  unfold Sched.pass
  rw [picked.priority]
  by_cases same : q = p
  · rw [same, Function.update_self, at_least_one_twice]
  · rw [Function.update_of_ne same]

theorem pass_le_sup {q : Nat} (mem : q ∈ P) : s.pass q ≤ P.sup s.pass := Finset.le_sup mem

/-- One dispatch. -/
theorem sharing_step (sharing : Sharing s₀ P ps s) :
    ∃ t, schedule s = some t ∧ Sharing s₀ P (ps ++ [t.current]) t := by
  have near : SchedEvent.Near s .schedule := by
    intro busy _ q _ joined
    rcases sharing.here with ⟨current, _⟩ | ⟨_, _, none_joined⟩
    · exact absurd current busy
    · rw [none_joined] at joined
      cases joined
  obtain ⟨state, total, next, _, _⟩ := requeue_fields (s := s)
  have all := sharing_requeue sharing
  obtain ⟨t, run, ok, ⟨top, rfl⟩ | ⟨p, top, picked⟩⟩ := schedule_ok sharing.ok near
  · have empty : P = ∅ := by
      rw [← Finset.val_eq_zero, ← all]
      cases whole : s.requeue.pool with
      | nil => rfl
      | node l a r =>
        rw [whole] at top
        cases top
    subst empty
    refine ⟨_, run, ok, .inl ⟨rfl, all⟩, fun p mem => absurd mem (Finset.notMem_empty p), fun p => ?_,
      fun p mem => absurd mem (Finset.notMem_empty p), ⟨0, fun p mem => absurd mem (Finset.notMem_empty p)⟩,
      fun _ _ => .inr rfl⟩
    exact requeue_pass.trans (sharing.pass p)
  · have mem : p ∈ P := by
      have inside := root_mem top
      rw [all] at inside
      exact inside
    have here : s.requeue.pass p = s₀.pass p := requeue_pass.trans (sharing.pass p)
    have step : t.total = Function.update s.total p (s.total p + s₀.pass p) := by
      rw [picked.total, total, here]
    have pool := requeue_ok sharing.ok near
    have smallest : ∀ q ∈ P, s.total p ≤ s.total q := by
      intro q hq
      have least := root_smallest pool top (q := q) (by rw [all]; exact hq)
      rwa [total] at least
    refine ⟨t, run, ok, .inr ⟨?_, ?_, picked.joined⟩, fun q hq => ?_, fun q => ?_, fun q hq => ?_, ?_, fun q hq => ?_⟩
    · rw [picked.current]
      exact mem
    · rw [picked.elems, picked.current, all]
    · rw [picked.state, state]
      exact sharing.runnable q hq
    · rw [picked_pass picked, requeue_pass, sharing.pass]
    · rw [step, picked.current, List.count_append]
      have before := sharing.total q hq
      by_cases same : q = p
      · rw [same] at before ⊢
        rw [Function.update_self, before, List.count_singleton_self, Nat.add_mul, Nat.one_mul, Nat.add_assoc]
      · rw [Function.update_of_ne same, before, List.count_singleton, if_neg, Nat.add_zero]
        intro eq
        exact same (beq_iff_eq.mp eq).symm
    · -- The window starts at the stride of the process that was picked.
      obtain ⟨m, window⟩ := sharing.least
      refine ⟨s.total p, fun q hq => ?_⟩
      have bound : s₀.pass p ≤ P.sup s₀.pass := pass_le_sup mem
      rw [step]
      by_cases same : q = p
      · rw [same, Function.update_self]
        exact ⟨Nat.le_add_right _ _, Nat.add_le_add_left bound _⟩
      · rw [Function.update_of_ne same]
        have low := (window p mem).1
        have high := (window q hq).2
        exact ⟨smallest q hq, by omega⟩
    · rcases List.mem_append.mp hq with before | last
      · exact sharing.members q before
      · rw [List.mem_singleton.mp last, picked.current]
        exact .inl mem

theorem sharing_run (sharing : Sharing s₀ P ps s) (run : Run Dispatch s qs t) : Sharing s₀ P (ps ++ qs) t := by
  induction run generalizing ps with
  | stop s => rwa [List.append_nil]
  | call first rest ih =>
    obtain ⟨u, ran, after⟩ := sharing_step sharing
    cases ran.symm.trans first.1
    rw [first.2] at after
    have whole := ih after
    rwa [List.append_assoc] at whole

theorem sharing_goes_on (sharing : Sharing s₀ P ps s) (n : Nat) : ∃ qs t, qs.length = n ∧ Run Dispatch s qs t := by
  induction n generalizing ps s with
  | zero => exact ⟨[], s, rfl, .stop s⟩
  | succ n ih =>
    obtain ⟨u, ran, after⟩ := sharing_step sharing
    obtain ⟨qs, t, length, run⟩ := ih after
    exact ⟨u.current :: qs, t, congrArg Nat.succ length, .call ⟨ran, rfl⟩ run⟩

/- The strides of two processes of `P` differ by no more than the largest pass. -/
theorem sharing_fair (start : Start s₀ P) (sharing : Sharing s₀ P ps s) {i j : Nat} (hi : i ∈ P) (hj : j ∈ P) :
    |(ps.count i * s₀.pass i : Int) - ps.count j * s₀.pass j| ≤ P.sup s₀.pass := by
  obtain ⟨m, window⟩ := sharing.least
  have ti := sharing.total i hi
  have tj := sharing.total j hj
  have same := start.equal i hi j hj
  have wi := window i hi
  have wj := window j hj
  rw [ti] at wi
  rw [tj] at wj
  rw [← Int.natCast_mul, ← Int.natCast_mul, abs_le]
  constructor
  · omega
  · omega

/- While a process waits, each other one is dispatched at most so often. -/
theorem waiting_count (sharing : Sharing s₀ P ps s) (after : Sharing s₀ P (ps ++ qs) t) {i j : Nat} (hi : i ∈ P)
    (hj : j ∈ P) (waits : i ∉ qs) : qs.count j * s₀.pass j ≤ 2 * P.sup s₀.pass := by
  obtain ⟨m, window⟩ := sharing.least
  obtain ⟨m', window'⟩ := after.least
  have ti := after.total i hi
  have tj := after.total j hj
  rw [List.count_append, List.count_eq_zero.mpr waits, Nat.add_zero, ← sharing.total i hi] at ti
  rw [List.count_append, Nat.add_mul, ← Nat.add_assoc, ← sharing.total j hj] at tj
  have wi := window i hi
  have wj := window j hj
  have wi' := window' i hi
  have wj' := window' j hj
  omega

theorem waiting_bound (sharing : Sharing s₀ P ps s) (after : Sharing s₀ P (ps ++ qs) t) {i : Nat} (hi : i ∈ P)
    (steps : ∀ j ∈ P, 1 ≤ s₀.pass j) (waits : i ∉ qs) : qs.length ≤ waitBound s₀ P := by
  have inside : ∀ q ∈ qs, q ∈ P := by
    intro q hq
    rcases after.members q (List.mem_append_right _ hq) with mem | empty
    · exact mem
    · rw [empty] at hi
      exact absurd hi (Finset.notMem_empty i)
  have total : qs.length = ∑ j ∈ P, qs.count j := by
    have counted := Multiset.sum_count_eq_card (s := P) (m := (qs : Multiset Nat)) fun q hq => inside q hq
    rw [Multiset.coe_card] at counted
    rw [← counted]
    exact Finset.sum_congr rfl fun j _ => Multiset.coe_count j qs
  rw [total]
  apply Finset.sum_le_sum
  intro j hj
  rw [Nat.le_div_iff_mul_le (steps j hj)]
  exact waiting_count sharing after hi hj waits

theorem pass_positive (priority : s.lab6Priority p ≠ 0) : 1 ≤ s.pass p ↔ (s.lab6Priority p).toNat ≤ BIG_STRIDE := by
  have one : atLeastOne (s.lab6Priority p) = s.lab6Priority p := if_neg priority
  have positive : 0 < (s.lab6Priority p).toNat := by
    rw [Nat.pos_iff_ne_zero]
    intro zero
    exact priority (BitVec.eq_of_toNat_eq zero)
  unfold Sched.pass
  rw [one, Nat.le_div_iff_mul_le positive, Nat.one_mul]

end

/-- The dispatches go on for ever. Their shares are proportional to the inverse passes, every pass is at least 1
and no process waits longer than the bound, exactly when no priority is above `BIG_STRIDE`. -/
theorem shares_are_proportional_exactly_when {s₀ : Sched} {P : Finset Nat} (start : Start s₀ P) :
    (∀ n, ∃ ps s, ps.length = n ∧ Run Dispatch s₀ ps s) ∧
    (((∀ ps s, Run Dispatch s₀ ps s → ∀ i ∈ P, ∀ j ∈ P,
        |(ps.count i * s₀.pass i : Int) - ps.count j * s₀.pass j| ≤ P.sup s₀.pass) ∧
      (∀ i ∈ P, 1 ≤ s₀.pass i) ∧
      (∀ i ∈ P, ∀ ps s qs t, Run Dispatch s₀ ps s → Run Dispatch s qs t → waitBound s₀ P < qs.length → i ∈ qs)) ↔
    ∀ i ∈ P, (s₀.lab6Priority i).toNat ≤ BIG_STRIDE) := by
  have begins := start_sharing start
  refine ⟨sharing_goes_on begins, ⟨fun fair i hi => ?_, fun small => ⟨fun ps s run i hi j hj => ?_, fun i hi => ?_, ?_⟩⟩⟩
  · exact (pass_positive (start.priority i hi)).mp (fair.2.1 i hi)
  · have sharing := sharing_run begins run
    rw [List.nil_append] at sharing
    exact sharing_fair start sharing hi hj
  · exact (pass_positive (start.priority i hi)).mpr (small i hi)
  · intro i hi ps s qs t first rest long
    have sharing := sharing_run begins first
    have after := sharing_run sharing rest
    by_contra waits
    have bound := waiting_bound sharing after hi (fun j hj => (pass_positive (start.priority j hj)).mpr (small j hj)) waits
    exact absurd long (not_lt.mpr bound)

/- Two processes in the queue, with strides 0. -/
def twoProcesses (first second : BitVec 32) : Sched where
  pool := .node .nil 1 (.node .nil 2 .nil)
  procNum := 2
  inRq := fun _ => true
  lab6Stride := fun _ => 0
  lab6Priority := fun p => if p = 1 then first else second
  timeSlice := fun _ => MAX_TIME_SLICE
  needResched := fun _ => false
  state := fun p => if p < 3 then .runnable else .uninit
  current := idleproc
  next := 3
  total := fun _ => 0
  joined := []

theorem two_processes_start {first second : BitVec 32} (one : first ≠ 0) (two : second ≠ 0) :
    Start (twoProcesses first second) {1, 2} := by
  refine ⟨rfl, rfl, fun _ _ => rfl, fun _ => rfl, fun _ _ _ _ => rfl, fun p _ => ?_, fun p mem => ?_, rfl, rfl,
    fun p new => ?_⟩
  · unfold twoProcesses
    dsimp only
    split_ifs
    · exact one
    · exact two
  · rcases Finset.mem_insert.mp mem with rfl | last
    · exact ⟨rfl, by decide⟩
    · obtain rfl := Finset.mem_singleton.mp last
      exact ⟨rfl, by decide⟩
  · have far : ¬ p < 3 := not_lt.mpr new
    exact ⟨if_neg far, Nat.ne_of_gt (by omega : 0 < p)⟩

/- The state after the next dispatch. -/
def Sched.dispatched (s : Sched) : Sched := (schedule s).getD s

theorem dispatch_next {s : Sched} {p : Nat} (picks : (schedule s).isSome) (current : s.dispatched.current = p) :
    Dispatch s p s.dispatched := by
  refine ⟨?_, current⟩
  obtain ⟨t, call⟩ := Option.isSome_iff_exists.mp picks
  unfold Sched.dispatched
  rw [call]
  rfl

theorem two_processes_share : ∃ t, Run Dispatch (twoProcesses 1 2) [1, 2] t ∧
    |(([1, 2].count 1 * (twoProcesses 1 2).pass 1 : Nat) : Int) - [1, 2].count 2 * (twoProcesses 1 2).pass 2| ≤ 2 ^ 30 := by
  have start : Start (twoProcesses 1 2) {1, 2} := two_processes_start (by decide) (by decide)
  have small : ∀ i ∈ ({1, 2} : Finset Nat), ((twoProcesses 1 2).lab6Priority i).toNat ≤ BIG_STRIDE := by
    intro i mem
    rcases Finset.mem_insert.mp mem with rfl | last
    · decide
    · obtain rfl := Finset.mem_singleton.mp last
      decide
  have run : Run Dispatch (twoProcesses 1 2) [1, 2] (twoProcesses 1 2).dispatched.dispatched := by
    refine .call (dispatch_next ?_ ?_) (.call (dispatch_next ?_ ?_) (.stop _))
    all_goals decide +kernel
  have close := ((shares_are_proportional_exactly_when start).2.mpr small).1 _ _ run 1 (by decide) 2 (by decide)
  have most : ({1, 2} : Finset Nat).sup (twoProcesses 1 2).pass = 2 ^ 30 := by decide +kernel
  rw [most] at close
  refine ⟨_, run, ?_⟩
  rw [Int.natCast_mul]
  exact close

/-- A process whose priority is above `BIG_STRIDE` has pass 0 and keeps the other one waiting beyond the bound. -/
theorem huge_priority_starves : Start (twoProcesses (BitVec.ofNat 32 (2 ^ 30 + 1)) 1) {1, 2} ∧
    (twoProcesses (BitVec.ofNat 32 (2 ^ 30 + 1)) 1).pass 1 = 0 ∧
    waitBound (twoProcesses (BitVec.ofNat 32 (2 ^ 30 + 1)) 1) {1, 2} = 2 ∧
    ∃ t, Run Dispatch (twoProcesses (BitVec.ofNat 32 (2 ^ 30 + 1)) 1) [1, 1, 1] t := by
  refine ⟨two_processes_start (by decide +kernel) (by decide), by decide +kernel, by decide +kernel,
    (twoProcesses (BitVec.ofNat 32 (2 ^ 30 + 1)) 1).dispatched.dispatched.dispatched, ?_⟩
  refine .call (dispatch_next ?_ ?_) (.call (dispatch_next ?_ ?_) (.call (dispatch_next ?_ ?_) (.stop _)))
  all_goals decide +kernel

end Ucore.Stride
