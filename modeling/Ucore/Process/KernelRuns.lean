import Ucore.Process.KernelEvents

/- The kernel over whole runs: the run queue, the kills, and the end of `initproc`. -/
namespace Ucore.Sched
open Programs Transitions Process

section
variable {s t u : Kernel} {e : Event} {es : List Event}

theorem syscall_meets {call : Syscall} (inv : Inv s) (user : s.InUser)
    (finds : ∀ pid zombie, call = .wait pid zombie → s.Finds pid zombie) :
    Meets call.run s (fun _ t => Outcome (Alert s ∧ Event.Noticed s (.sys call)) (Event.Spares (.sys call)) s t)
      (Ruin s) := by
  have serving := serving_user inv user
  have lives : Alert s → s.exiting s.current = false := fun alert => lives_user inv alert user
  cases call with
  | fork succeeds =>
    cases succeeds with
    | true =>
      obtain ⟨t, forked, invT, order, exiting, alert, current, leaving, keyWait, _⟩ :=
        do_fork_ends inv serving.stays serving.busy
      have servingT : Serving t := by
        refine ⟨invT, leaving.trans serving.stays, ?_, ?_, ?_⟩
        · rw [current]
          exact serving.busy
        · rw [current]
          exact serving.other
        · rw [current, keyWait]
          exact serving.out
      obtain ⟨u, ended, outcome⟩ := trap_end servingT
      have ran : (Syscall.fork true).run s = .ok ((), u) := (run_bind forked).trans ended
      apply meets_of_run ran
      apply outcome_trans order
      · intro _ dying
        rwa [exiting] at dying
      · exact outcome_mono outcome (fun both => others_alert (alert both.1)) fun _ => trivial
    | false =>
      obtain ⟨t, ended, outcome⟩ := trap_end serving
      exact meets_of_run ended (outcome_mono outcome (fun both => others_alert both.1) fun _ => trivial)
  | exit =>
    obtain ⟨t, ran, invT, _, exiting, order, alert⟩ :=
      exit_ends inv serving.stays serving.busy serving.other serving.out
    apply meets_of_run ran
    refine ⟨invT, order, fun _ dying => ?_, fun both => alert (others_alert both.1)⟩
    rwa [exiting] at dying
  | wait pid zombie =>
    have found : ∀ p, zombie = some p → p ∈ s.awaited pid ∧ s.state p = .zombie := by
      rintro p rfl
      exact finds pid _ rfl
    refine meets_mono (do_wait_meets inv serving.stays serving.busy serving.out found
      fun init => absurd init serving.other) (fun _ t outcome => ?_) fun _ ruin => ruin
    exact outcome_mono outcome (fun both => ⟨others_alert both.1, lives both.1⟩) fun _ => trivial
  | kill p =>
    obtain ⟨t, killed, invT, order, spared, alert, current, leaving, keyWait⟩ := do_kill_ends inv
    have servingT : Serving t := by
      refine ⟨invT, leaving.trans serving.stays, ?_, ?_, ?_⟩
      · rw [current]
        exact serving.busy
      · rw [current]
        exact serving.other
      · rw [current, keyWait]
        exact serving.out
    obtain ⟨u, ended, outcome⟩ := trap_end servingT
    have ran : (Syscall.kill p).run s = .ok ((), u) := (run_bind killed).trans ended
    apply meets_of_run ran
    apply outcome_trans order
    · intro kind dying
      exact spared kind dying
    · exact outcome_mono outcome (fun both => alert both.1 both.2) fun _ => trivial
  | sleep =>
    have fits : Fits s.current .sleeping := fits_user serving (by decide)
    obtain ⟨t, ran, outcome⟩ := block_ends (w := .timer) inv serving.stays serving.busy serving.out fits
      (by decide) (by decide) (.inr rfl)
    exact meets_of_run ran (outcome_mono outcome (fun both => ⟨others_alert both.1, lives both.1⟩) fun _ => trivial)
  | read buffered =>
    cases buffered with
    | true =>
      obtain ⟨t, ended, outcome⟩ := trap_end serving
      exact meets_of_run ended (outcome_mono outcome (fun both => others_alert both.1) fun _ => trivial)
    | false =>
      obtain ⟨t, ran, outcome⟩ := wait_for_key_ends serving
      exact meets_of_run ran
        (outcome_mono outcome (fun both => ⟨others_alert both.1, lives both.1⟩) fun _ => trivial)
  | yield =>
    let v : Kernel := { s with needResched := Function.update s.needResched s.current true }
    have servingV : Serving v := ⟨{ inv with }, serving.stays, serving.busy, serving.other, serving.out⟩
    obtain ⟨t, ended, outcome⟩ := trap_end servingV
    have ran : Syscall.yield.run s = .ok ((), t) := ended
    apply meets_of_run ran
    refine ⟨outcome.inv, outcome.order, fun _ => outcome.spared trivial, fun both => outcome.alert ?_⟩
    exact fun p mem other => told_congr (both.1 p mem) rfl rfl rfl rfl

theorem not_reading (inv : Inv s) (elsewhere : s.pos s.current ≠ .reading) : s.current ∉ s.keyWait :=
  fun mem => elsewhere (inv.readers _ mem).2

theorem not_idle (inv : Inv s) (elsewhere : s.pos s.current ≠ .idle) : s.current ≠ idleproc := by
  intro idle
  rw [idle] at elsewhere
  exact elsewhere inv.idlePos

/- Where `initproc` never is. -/
theorem is_user (inv : Inv s) {place : Pos} (here : s.pos s.current = place)
    (elsewhere : place ≠ .begin ∧ place ≠ .again ∧ place ≠ .waiting none) : s.current ≠ initproc := by
  obtain ⟨noBegin, noAgain, noWait⟩ := elsewhere
  intro init
  rw [init] at here
  rcases inv.initPos with begin | again | waits
  · exact noBegin (here.symm.trans begin)
  · exact noAgain (here.symm.trans again)
  · exact noWait (here.symm.trans waits)

theorem unchanged (inv : Inv s) : Outcome (Alert s) True s s :=
  ⟨inv, ⟨[], (List.append_nil _).symm⟩, fun _ dying => dying, fun alert => alert⟩

theorem begin_meets {zombie : Option Nat} {buffered : Bool} (inv : Inv s) (possible : (Event.resume zombie buffered).Possible s)
    (here : s.pos s.current = .begin) : Meets (goOn zombie buffered) s (fun _ t => Outcome (Alert s) True s t) (Ruin s) := by
  obtain ⟨stays, _, finds⟩ := possible
  unfold goOn Meets
  rw [run_get_bind, here]
  rw [here] at finds
  have busy := not_idle inv (here ▸ Pos.noConfusion)
  obtain ⟨t, forked, invT, order, exiting, alert, current, leaving, keyWait, same, kept⟩ :=
    do_fork_ends inv stays busy
  dsimp only
  rw [run_bind forked]
  have outT : t.current ∉ t.keyWait := by
    rw [current, keyWait]
    exact not_reading inv (here ▸ Pos.noConfusion)
  have busyT : t.current ≠ idleproc := by
    rw [current]
    exact busy
  rw [show zombie = none from finds]
  refine meets_mono (do_wait_meets invT (leaving.trans stays) busyT outT (fun p found => by cases found)
    fun _ => rfl) (fun _ u outcome => ?_) fun e ruin => ⟨ruin.1, ?_⟩
  · apply outcome_trans order
    · intro _ dying
      rwa [exiting] at dying
    · refine outcome_mono outcome (fun wary => ⟨others_alert (alert wary), ?_⟩) fun kind => kind
      rw [current, same]
      exact lives_of_alert inv wary stays busy
        (careless_at here ⟨fun _ => Pos.noConfusion, Pos.noConfusion, Pos.noConfusion⟩)
  · rcases ruin.2 with dying | alone
    · rw [exiting] at dying
      exact .inl dying
    · exact .inr fun p mem => alone p (kept p mem)

theorem again_meets {zombie : Option Nat} {buffered : Bool} (inv : Inv s) (possible : (Event.resume zombie buffered).Possible s)
    (here : s.pos s.current = .again) : Meets (goOn zombie buffered) s (fun _ t => Outcome (Alert s) True s t) (Ruin s) := by
  obtain ⟨stays, _, finds⟩ := possible
  unfold goOn Meets
  rw [run_get_bind, here]
  rw [here] at finds
  have busy := not_idle inv (here ▸ Pos.noConfusion)
  have found : ∀ p, zombie = some p → p ∈ s.awaited none ∧ s.state p = .zombie := by
    rintro p rfl
    exact finds
  refine meets_mono (do_wait_meets inv stays busy (not_reading inv (here ▸ Pos.noConfusion)) found fun _ => rfl)
    (fun _ t outcome => ?_) fun _ ruin => ruin
  refine outcome_mono outcome (fun alert => ⟨others_alert alert, ?_⟩) fun kind => kind
  exact lives_of_alert inv alert stays busy
    (careless_at here ⟨fun _ => Pos.noConfusion, Pos.noConfusion, Pos.noConfusion⟩)

theorem waiting_meets {zombie : Option Nat} {buffered : Bool} {pid : Option Nat} (inv : Inv s) (possible : (Event.resume zombie buffered).Possible s)
    (here : s.pos s.current = .waiting pid) : Meets (goOn zombie buffered) s (fun _ t => Outcome (Alert s) True s t) (Ruin s) := by
  obtain ⟨stays, _, finds⟩ := possible
  unfold goOn Meets
  rw [run_get_bind, here]
  rw [here] at finds
  have busy := not_idle inv (here ▸ Pos.noConfusion)
  have out := not_reading inv (here ▸ Pos.noConfusion)
  have any : s.current = initproc → pid = none := by
    intro init
    rw [init] at here
    rcases inv.initPos with begin | again | waits
    · cases here.symm.trans begin
    · cases here.symm.trans again
    · cases here.symm.trans waits
      rfl
  dsimp only
  by_cases dying : s.exiting s.current = true
  · rw [if_pos dying]
    by_cases init : s.current = initproc
    · rw [init_exit init]
      rw [init] at dying
      exact ⟨rfl, .inl dying⟩
    · obtain ⟨t, ran, invT, _, exiting, order, alert⟩ := exit_ends inv stays busy init out
      rw [ran]
      refine ⟨invT, order, fun _ killed => ?_, fun all => alert (others_alert all)⟩
      rwa [exiting] at killed
  · rw [if_neg dying]
    have found : ∀ p, zombie = some p → p ∈ s.awaited pid ∧ s.state p = .zombie := by
      rintro p rfl
      exact finds
    refine meets_mono (do_wait_meets inv stays busy out found any) (fun _ t outcome => ?_) fun _ ruin => ruin
    exact outcome_mono outcome (fun alert => ⟨others_alert alert, Bool.eq_false_iff.mpr dying⟩) fun kind => kind

theorem sleeping_meets {zombie : Option Nat} {buffered : Bool} (inv : Inv s) (possible : (Event.resume zombie buffered).Possible s)
    (here : s.pos s.current = .sleeping) : Meets (goOn zombie buffered) s (fun _ t => Outcome (Alert s) True s t) (Ruin s) := by
  obtain ⟨stays, _, _⟩ := possible
  unfold goOn Meets
  rw [run_get_bind, here]
  have serving : Serving s := ⟨inv, stays, not_idle inv (here ▸ Pos.noConfusion),
    is_user inv here ⟨Pos.noConfusion, Pos.noConfusion, Pos.noConfusion⟩, not_reading inv (here ▸ Pos.noConfusion)⟩
  obtain ⟨t, ended, outcome⟩ := trap_end serving
  dsimp only
  rw [ended]
  exact outcome_mono outcome others_alert fun kind => kind

theorem reading_meets {zombie : Option Nat} {buffered : Bool} (inv : Inv s) (possible : (Event.resume zombie buffered).Possible s)
    (here : s.pos s.current = .reading) : Meets (goOn zombie buffered) s (fun _ t => Outcome (Alert s) True s t) (Ruin s) := by
  obtain ⟨stays, _, _⟩ := possible
  unfold goOn Meets
  rw [run_get_bind, here]
  have busy := not_idle inv (here ▸ Pos.noConfusion)
  have other := is_user inv here ⟨Pos.noConfusion, Pos.noConfusion, Pos.noConfusion⟩
  let v : Kernel := { s with keyWait := s.keyWait.erase s.current }
  have servingV : Serving v := by
    refine ⟨?_, stays, busy, other, fun mem => ?_⟩
    · exact { inv with
        readers := fun p mem => inv.readers p (List.mem_of_mem_erase mem)
        queuedOnce := inv.queuedOnce.erase _ }
    · exact (List.Nodup.mem_erase_iff inv.queuedOnce).mp mem |>.1 rfl
  have alertV : Alert s → Alert v := fun alert p mem => told_congr (alert p mem) rfl rfl rfl rfl
  dsimp only
  rw [run_set_bind]
  by_cases again : s.keyed s.current = true ∧ (!buffered) = true
  · rw [if_pos again]
    obtain ⟨t, ran, outcome⟩ := wait_for_key_ends servingV
    rw [ran]
    refine ⟨outcome.inv, outcome.order, outcome.spared, fun alert => outcome.alert ⟨others_alert (alertV alert), ?_⟩⟩
    refine lives_of_alert (s := s) inv alert stays busy ?_
    rintro (⟨pid, waiting⟩ | sleeping | ⟨_, unkeyed⟩)
    · cases here.symm.trans waiting
    · cases here.symm.trans sleeping
    · rw [again.1] at unkeyed
      cases unkeyed
  · rw [if_neg again]
    obtain ⟨t, ended, outcome⟩ := trap_end servingV
    rw [ended]
    exact ⟨outcome.inv, outcome.order, outcome.spared, fun alert => outcome.alert (others_alert (alertV alert))⟩

theorem idle_meets {zombie : Option Nat} {buffered : Bool} (inv : Inv s) (possible : (Event.resume zombie buffered).Possible s)
    (here : s.pos s.current = .idle) : Meets (goOn zombie buffered) s (fun _ t => Outcome (Alert s) True s t) (Ruin s) := by
  obtain ⟨stays, _, _⟩ := possible
  unfold goOn Meets
  rw [run_get_bind, here]
  have out := not_reading inv (here ▸ Pos.noConfusion)
  have idle : s.current = idleproc := by
    by_contra busy
    by_cases init : s.current = initproc
    · rw [init] at here
      rcases inv.initPos with begin | again | waits
      · cases here.symm.trans begin
      · cases here.symm.trans again
      · cases here.symm.trans waits
    · exact (inv.userPos _ (inv.current busy) init).2.2 here
  dsimp only
  by_cases resched : s.needResched s.current = true
  · rw [if_pos resched]
    have fits : Fits s.current .idle := by
      rw [Fits, if_pos idle]
    have moved := inv_moved inv true out (inv.running stays) fits
    refine ⟨moved, ⟨[], (List.append_nil _).symm⟩, fun _ dying => dying, fun alert p mem => ?_⟩
    refine others_moved (others_alert alert) p mem ?_
    intro same
    have mem' : s.current ∈ s.procs := same ▸ mem
    rw [idle] at mem'
    exact inv.idle.1 mem'
  · rw [if_neg resched]
    exact unchanged inv

/- The current process goes on where it had called `schedule`. -/
theorem go_on_meets {zombie : Option Nat} {buffered : Bool} (inv : Inv s)
    (possible : (Event.resume zombie buffered).Possible s) :
    Meets (goOn zombie buffered) s (fun _ t => Outcome (Alert s) True s t) (Ruin s) := by
  cases here : s.pos s.current with
  | begin => exact begin_meets inv possible here
  | again => exact again_meets inv possible here
  | waiting pid => exact waiting_meets inv possible here
  | sleeping => exact sleeping_meets inv possible here
  | reading => exact reading_meets inv possible here
  | idle => exact idle_meets inv possible here
  | user | gone =>
    unfold goOn Meets
    rw [run_get_bind, here]
    exact unchanged inv

theorem tick_meets {timers : List Nat} {key : Bool} (inv : Inv s)
    (possible : (Event.tick timers key).Possible s) :
    Meets (Event.tick timers key).run s
      (fun _ t => Outcome (Alert s ∧ (Event.tick timers key).Noticed s) True s t) (Ruin s) := by
  obtain ⟨v, interrupted, invV, wakes, keyWait, alert⟩ := interrupt_ends inv possible
  have spared : v.exiting initproc = true → s.exiting initproc = true := by
    intro dying
    rwa [wakes.exiting] at dying
  have start : (Event.tick timers key).run s = (do if s.InUser then trapEnd : KernelM Unit) v := by
    unfold Event.run
    dsimp only
    rw [run_get_bind, run_bind interrupted]
  by_cases user : s.InUser
  · have serving := serving_user inv user
    have servingV : Serving v := by
      refine ⟨invV, wakes.leaving.trans serving.stays, ?_, ?_, fun mem => ?_⟩
      · rw [wakes.current]
        exact serving.busy
      · rw [wakes.current]
        exact serving.other
      · rw [wakes.current] at mem
        exact serving.out (keyWait _ mem)
    obtain ⟨t, ended, outcome⟩ := trap_end servingV
    rw [if_pos user, ended] at start
    apply meets_of_run start
    apply outcome_trans wakes.order fun _ => spared
    exact outcome_mono outcome (fun both => others_alert (alert both.1 both.2)) fun kind => kind
  · rw [if_neg user] at start
    apply meets_of_run start
    exact ⟨invV, wakes.order, fun _ => spared, fun both => alert both.1 both.2⟩

/- Whatever can happen but `schedule`. -/
theorem event_meets (inv : Inv s) (possible : e.Possible s) (other : e ≠ .schedule) :
    Meets e.run s (fun _ t => Outcome (Alert s ∧ e.Noticed s) e.Spares s t) (Ruin s) := by
  cases e with
  | tick timers key =>
    refine meets_mono (tick_meets inv possible) (fun _ t outcome => ?_) fun _ ruin => ruin
    exact outcome_mono outcome (fun both => both) fun _ => trivial
  | sys call =>
    apply syscall_meets inv
    · cases call with
      | wait pid zombie => exact possible.1
      | fork | exit | kill | sleep | read | yield => exact possible
    · rintro pid zombie rfl
      exact possible.2
  | resume zombie buffered =>
    refine meets_mono (go_on_meets inv possible) (fun _ t outcome => ?_) fun _ ruin => ruin
    exact outcome_mono outcome (fun both => both.1) fun _ => trivial
  | schedule => exact absurd rfl other

theorem schedule_ends (inv : Inv s) : ∃ t, schedule s = .ok ((), t) ∧ Inv t ∧ Scheduled s t ∧
    t.exiting = s.exiting ∧ (Alert s → Alert t) := by
  obtain ⟨t, ran, queue, scheduled⟩ := schedule_meets inv.toQueue
  obtain ⟨procs, next, parent, state, waitState, exiting, pos, keyed, keyWait⟩ := scheduled.same
  refine ⟨t, ran, ?_, scheduled, exiting, fun alert p mem => ?_⟩
  · refine { queue with
      init := ?_, eldest := ?_, family := ?_, young := ?_, running := fun _ => ?_, gone := ?_, initPos := ?_,
      userPos := ?_, idlePos := ?_, readers := ?_, queuedOnce := ?_ }
    · rw [procs, state]
      exact inv.init
    · rw [parent]
      exact inv.eldest
    · rw [procs, parent, state]
      exact inv.family
    · rw [procs, next]
      exact inv.young
    · have head := scheduled.current
      cases ready : s.ready with
      | nil =>
        rw [ready] at head
        rw [head]
        exact queue.idle.2.1
      | cons p le =>
        rw [ready] at head
        have mem : p ∈ s.ready := by
          rw [ready]
          exact List.mem_cons_self ..
        rw [head, state]
        exact ((ready_mem inv.toQueue).mp mem).2
    · rw [procs, state, pos]
      exact inv.gone
    · rw [pos]
      exact inv.initPos
    · rw [procs, pos]
      exact inv.userPos
    · rw [pos]
      exact inv.idlePos
    · rw [keyWait, procs, pos]
      exact inv.readers
    · rw [keyWait]
      exact inv.queuedOnce
  · rw [procs] at mem
    exact told_congr (alert p mem) (congrFun state p) (congrFun exiting p) (congrFun pos p) (congrFun keyed p)

/- What any step keeps. -/
theorem step_keeps (inv : Inv s) (step : KernelStep s e t) : Inv t ∧
    (e.Spares → t.exiting initproc = true → s.exiting initproc = true) ∧
    (Alert s → e.Noticed s → Alert t) := by
  obtain ⟨possible, ran⟩ := step
  by_cases schedules : e = .schedule
  · subst e
    obtain ⟨u, ran', invU, _, exiting, alert⟩ := schedule_ends inv
    cases ran.symm.trans ran'
    refine ⟨invU, fun _ dying => ?_, fun wary _ => alert wary⟩
    rwa [exiting] at dying
  · have met := event_meets inv possible schedules
    unfold Meets at met
    rw [ran] at met
    exact ⟨met.inv, met.spared, fun wary noticed => met.alert ⟨wary, noticed⟩⟩

theorem boot_inv : Inv bootKernel where
  distinct := List.nodup_singleton _
  queued := by
    intro p
    change p ∈ [initproc] ↔ p ∈ ({initproc} : Finset Nat) ∧ _ ∧ p ≠ idleproc
    rw [List.mem_singleton, Finset.mem_singleton]
    constructor
    · rintro rfl
      exact ⟨rfl, rfl, by decide⟩
    · exact fun ready => ready.1
  count := rfl
  slices := by
    intro p mem
    rw [List.mem_singleton.mp mem]
    decide
  slice := fun busy => absurd rfl busy
  current := fun busy => absurd rfl busy
  idle := ⟨by decide, rfl, rfl⟩
  waits := by
    intro p mem
    rw [Finset.mem_singleton.mp mem]
    exact iff_of_false (fun waits => waits rfl) (by decide)
  interruptible := fun p _ waits => by cases waits
  init := ⟨Finset.mem_singleton_self _, by decide⟩
  eldest := rfl
  family := fun p mem other => absurd (Finset.mem_singleton.mp mem) other
  young := by
    intro p mem
    rw [Finset.mem_singleton.mp mem]
    decide
  running := fun _ => rfl
  gone := by
    intro p mem zombie
    rw [Finset.mem_singleton.mp mem] at zombie
    cases zombie
  initPos := .inl rfl
  userPos := fun p mem other => absurd (Finset.mem_singleton.mp mem) other
  idlePos := rfl
  readers := fun p mem => by cases mem
  queuedOnce := List.nodup_nil

theorem run_inv (run : Run KernelStep bootKernel es s) : Inv s := by
  have keep : ∀ s e t, Inv s → KernelStep s e t → Inv t := fun _ _ _ inv step => (step_keeps inv step).1
  exact run_invariant keep run boot_inv

/- The run of a list of events, computed. -/
def kernelReplay (may : Kernel → Event → Prop) [∀ s e, Decidable (may s e)] (s : Kernel) (e : Event) :
    Option Kernel := ended (may s e ∧ e.Possible s) (e.run s)

theorem kernel_replayed {may : Kernel → Event → Prop} [∀ s e, Decidable (may s e)] (done : replay (kernelReplay may) s es = some t) :
    Run (fun s e t => may s e ∧ KernelStep s e t) s es t := by
  refine run_mono (fun s e t step => ?_) (replay_run done)
  obtain ⟨⟨allowed, possible⟩, _, ran⟩ := of_ended step
  exact ⟨allowed, possible, ran⟩

theorem kernel_runs (done : replay (kernelReplay fun _ _ => True) s es = some t) :
    Run KernelStep s es t :=
  run_mono (fun _ _ _ step => step.2) (kernel_replayed done)

/- `initproc` forks the first user process and waits for it. -/
def firstUser : List Event := [.resume none false, .schedule, .resume none false, .schedule]

/- It forks a second one and is preempted, and the second one kills it. -/
def killPreempted : List Event :=
  firstUser ++ [.sys (.fork true), .sys .yield, .schedule, .sys (.kill 2), .sys .yield, .schedule]

theorem run_queue_invariant (run : Run KernelStep bootKernel es s) :
    s.runList.Nodup ∧
    (∀ p, p ∈ s.runList ↔ p ∈ s.procs ∧ s.state p = .runnable ∧ p ≠ s.current ∧ p ≠ idleproc) ∧
    s.procNum = s.runList.length ∧
    (s.current ≠ idleproc → s.timeSlice s.current ≤ MAX_TIME_SLICE) ∧
    ∀ e : Event, e.Possible s → e.run s ≠ .error .assertion ∧
      ∀ t, e.run s = .ok ((), t) →
        (e = .schedule → t.current = s.ready.head?.getD idleproc ∧ t.runList = s.ready.tail) ∧
        (e ≠ .schedule → ∃ woken, t.runList = s.runList ++ woken) := by
  have inv := run_inv run
  refine ⟨inv.distinct, fun p => ?_, inv.count, inv.slice, fun e possible => ?_⟩
  · rw [inv.queued]
    refine ⟨fun ready => ⟨ready.1, ready.2.1, ready.2.2, ?_⟩, fun ready => ⟨ready.1, ready.2.1, ready.2.2.1⟩⟩
    rintro rfl
    exact inv.idle.1 ready.1
  · by_cases schedules : e = .schedule
    · subst e
      obtain ⟨u, ran, _, scheduled, _⟩ := schedule_ends inv
      have runs : Event.schedule.run s = .ok ((), u) := ran
      refine ⟨fun stopped => (by cases runs.symm.trans stopped), fun t ran' => ?_⟩
      cases runs.symm.trans ran'
      exact ⟨fun _ => ⟨scheduled.current, scheduled.list⟩, fun other => absurd rfl other⟩
    · have met := event_meets inv possible schedules
      unfold Meets at met
      refine ⟨fun stopped => ?_, fun t ran => ?_⟩
      · rw [stopped] at met
        cases met.1
      · rw [ran] at met
        exact ⟨fun same => absurd same schedules, fun _ => met.order⟩

theorem two_users_queue : ∃ s, Run KernelStep bootKernel killPreempted s ∧ s.runList.Nodup ∧ s.current = 2 ∧
    s.runList = [3] := by
  have seen : (replay (kernelReplay fun _ _ => True) bootKernel killPreempted).any
      (fun t => decide (t.current = 2 ∧ t.runList = [3])) = true := by
    decide +kernel
  obtain ⟨t, done, facts⟩ := (Option.any_eq_true _ _).mp seen
  have run := kernel_runs done
  exact ⟨t, run, (run_queue_invariant run).1, of_decide_eq_true facts⟩

/- A run whose kills spare `initproc` leaves it as it was. -/
theorem init_unharmed (run : Run (fun s e t => e.Spares ∧ KernelStep s e t) bootKernel es s) :
    Inv s ∧ s.exiting initproc = false := by
  have keep : ∀ s e t, Inv s ∧ s.exiting initproc = false → e.Spares ∧ KernelStep s e t →
      Inv t ∧ t.exiting initproc = false := by
    rintro s e t ⟨inv, lives⟩ ⟨spares, step⟩
    obtain ⟨invT, spared, _⟩ := step_keeps inv step
    refine ⟨invT, ?_⟩
    by_contra dying
    have killed := spared spares (by rwa [Bool.not_eq_false] at dying)
    rw [lives] at killed
    cases killed
  exact run_invariant keep run ⟨boot_inv, rfl⟩

theorem spared_init_never_exits (run : Run (fun s e t => e.Spares ∧ KernelStep s e t) bootKernel es s)
    (users : ∃ p ∈ s.procs, p ≠ initproc) (possible : e.Possible s) :
    e.run s ≠ .error .initExit ∧ e.run s ≠ .error .idleExit := by
  obtain ⟨inv, lives⟩ := init_unharmed run
  obtain ⟨p, mem, other⟩ := users
  by_cases schedules : e = .schedule
  · subst e
    obtain ⟨t, ran, _⟩ := schedule_ends inv
    have runs : Event.schedule.run s = .ok ((), t) := ran
    rw [runs]
    exact ⟨fun stopped => (by cases stopped), fun stopped => (by cases stopped)⟩
  · have met := event_meets inv possible schedules
    unfold Meets at met
    constructor
    · intro stopped
      rw [stopped] at met
      rcases met.2 with dying | alone
      · rw [lives] at dying
        cases dying
      · exact other (alone p mem)
    · intro stopped
      rw [stopped] at met
      cases met.1

/- The first user process gives up the processor with a child queued. -/
theorem init_outlives_a_fork : ∃ s, Run (fun s e t => e.Spares ∧ KernelStep s e t) bootKernel
    (firstUser ++ [.sys (.fork true), .sys (.kill 3)]) s ∧
    (Event.sys .exit).run s ≠ .error .initExit ∧ (Event.sys .exit).run s ≠ .error .idleExit := by
  have seen : (replay (kernelReplay fun _ e => e.Spares) bootKernel
      (firstUser ++ [.sys (.fork true), .sys (.kill 3)])).any
      (fun t => decide (2 ∈ t.procs ∧ t.InUser)) = true := by
    decide +kernel
  obtain ⟨t, done, facts⟩ := (Option.any_eq_true _ _).mp seen
  obtain ⟨user, inUser⟩ := of_decide_eq_true facts
  have run := kernel_replayed done
  exact ⟨t, run, spared_init_never_exits (e := .sys .exit) run ⟨2, user, by decide⟩ inUser⟩

/- The first user process kills `initproc`, which waits for it. -/
theorem killed_init_panics : ¬ ∀ es s, Run KernelStep bootKernel es s → (∃ p ∈ s.procs, p ≠ initproc) →
    ∀ e : Event, e.Possible s → e.run s ≠ .error .initExit := by
  intro never
  have seen : (replay (kernelReplay fun _ _ => True) bootKernel
      (firstUser ++ [.sys (.kill 1), .sys .yield, .schedule])).any
      (fun t => decide (2 ∈ t.procs ∧ (Event.resume none false).Possible t) &&
        match (Event.resume none false).run t with
        | .ok _ => false
        | .error e => decide (e = .initExit)) = true := by
    decide +kernel
  obtain ⟨t, done, facts⟩ := (Option.any_eq_true _ _).mp seen
  obtain ⟨alive, stops⟩ := Bool.and_eq_true_iff.mp facts
  obtain ⟨user, possible⟩ := of_decide_eq_true alive
  have safe := never _ t (kernel_runs done) ⟨2, user, by decide⟩ _ possible
  cases ran : (Event.resume none false).run t with
  | ok r =>
    rw [ran] at stops
    cases stops
  | error e =>
    rw [ran] at stops safe
    rw [of_decide_eq_true stops] at safe
    exact safe rfl

theorem kills_are_noticed (run : Run (fun s e t => e.Noticed s ∧ KernelStep s e t) bootKernel es s) :
    ∀ p ∈ s.procs, s.state p = .sleeping → (s.waitState p).interrupted = true → s.exiting p = false := by
  have keep : ∀ s e t, Inv s ∧ Alert s → e.Noticed s ∧ KernelStep s e t → Inv t ∧ Alert t := by
    rintro s e t ⟨inv, wary⟩ ⟨noticed, step⟩
    obtain ⟨invT, _, alert⟩ := step_keeps inv step
    exact ⟨invT, alert wary noticed⟩
  have start : Alert bootKernel := by
    intro p mem
    rw [Finset.mem_singleton.mp mem]
    exact ⟨fun sleeps => (by cases sleeps), fun killed => (by cases killed)⟩
  obtain ⟨_, alert⟩ := run_invariant keep run ⟨boot_inv, start⟩
  intro p mem sleeps _
  by_contra dying
  rcases (alert p mem).killed (by rwa [Bool.not_eq_false] at dying) with zombie | ⟨runnable, _⟩
  · rw [sleeps] at zombie
    cases zombie
  · rw [sleeps] at runnable
    cases runnable

/- The first user process waits for its child, which kills it. -/
theorem killed_waiter_wakes : ∃ s, Run (fun s e t => e.Noticed s ∧ KernelStep s e t) bootKernel
    (firstUser ++ [.sys (.fork true), .sys (.wait none none), .schedule, .sys (.kill 2), .sys .sleep]) s ∧
    s.exiting 2 = true ∧ s.runList = [2] ∧
    (s.state 3 = .sleeping → (s.waitState 3).interrupted = true → s.exiting 3 = false) := by
  have seen : (replay (kernelReplay fun s e => e.Noticed s) bootKernel
      (firstUser ++ [.sys (.fork true), .sys (.wait none none), .schedule, .sys (.kill 2), .sys .sleep])).any
      (fun t => decide (3 ∈ t.procs ∧ t.exiting 2 = true ∧ t.runList = [2])) = true := by
    decide +kernel
  obtain ⟨t, done, facts⟩ := (Option.any_eq_true _ _).mp seen
  obtain ⟨known, dying, queued⟩ := of_decide_eq_true facts
  have run := kernel_replayed done
  exact ⟨t, run, dying, queued, kills_are_noticed run 3 known⟩

/- A process that is killed where it has been preempted sleeps all the same. -/
theorem kill_slept_through : ¬ ∀ es s, Run KernelStep bootKernel es s →
    ∀ p ∈ s.procs, s.state p = .sleeping → (s.waitState p).interrupted = true → s.exiting p = false := by
  intro noticed
  have seen : (replay (kernelReplay fun _ _ => True) bootKernel (killPreempted ++ [.sys .sleep])).any
      (fun t => decide (2 ∈ t.procs ∧ t.state 2 = .sleeping ∧ (t.waitState 2).interrupted = true ∧
        t.exiting 2 = true)) = true := by
    decide +kernel
  obtain ⟨t, done, facts⟩ := (Option.any_eq_true _ _).mp seen
  obtain ⟨known, sleeps, interrupted, dying⟩ := of_decide_eq_true facts
  have spared := noticed _ t (kernel_runs done) 2 known sleeps interrupted
  rw [dying] at spared
  cases spared

end

end Ucore.Sched
