import Ucore.Process.RunQueue

/- What the steps of the kernel keep: the run queue, the family of the processes and the places where
   they wait, and, as long as no kill comes between a test and a sleep, that kills are noticed. -/
namespace Ucore.Sched
open Programs Transitions Process

/-- What holds between the steps. -/
structure Inv (s : Kernel) : Prop extends Queue s where
  init : initproc ∈ s.procs ∧ s.state initproc ≠ .zombie
  eldest : s.parent initproc = idleproc
  family : ∀ p ∈ s.procs, p ≠ initproc →
    s.parent p ∈ s.procs ∧ s.state (s.parent p) ≠ .zombie ∧ s.parent p < p
  young : ∀ p ∈ s.procs, p < s.next
  running : s.leaving = false → s.state s.current = .runnable
  gone : ∀ p ∈ s.procs, s.state p = .zombie → s.pos p = .gone
  initPos : s.pos initproc = .begin ∨ s.pos initproc = .again ∨ s.pos initproc = .waiting none
  userPos : ∀ p ∈ s.procs, p ≠ initproc → s.pos p ≠ .begin ∧ s.pos p ≠ .again ∧ s.pos p ≠ .idle
  idlePos : s.pos idleproc = .idle
  readers : ∀ p ∈ s.keyWait, p ∈ s.procs ∧ s.pos p = .reading
  queuedOnce : s.keyWait.Nodup

/- A process that goes on here finds out that it is to be killed before it sleeps again. -/
def Kernel.Heeds (s : Kernel) (p : Nat) : Prop :=
  (∃ pid, s.pos p = .waiting pid) ∨ s.pos p = .sleeping ∨ (s.pos p = .reading ∧ s.keyed p = false)

instance (s : Kernel) (p : Nat) : Decidable (s.Heeds p) :=
  match place : s.pos p with
  | .waiting pid => .isTrue (.inl ⟨pid, place⟩)
  | .sleeping => .isTrue (.inr (.inl place))
  | .reading => decidable_of_iff (s.keyed p = false) (by simp [Kernel.Heeds, place])
  | .user | .begin | .again | .idle | .gone => .isFalse (by simp [Kernel.Heeds, place])

/-- If the process is to be killed it is gone or will find out, and so will one that is asleep. -/
structure Kernel.Told (s : Kernel) (p : Nat) : Prop where
  asleep : s.state p = .sleeping → s.Heeds p
  killed : s.exiting p = true → s.state p = .zombie ∨ (s.state p = .runnable ∧ s.Heeds p)

def Alert (s : Kernel) : Prop := ∀ p ∈ s.procs, s.Told p

/- All but the current process. -/
def OthersAlert (s : Kernel) : Prop := ∀ p ∈ s.procs, p ≠ s.current → s.Told p

section
variable {s t u : Kernel} {p : Nat}

theorem heeds_congr (pos : t.pos p = s.pos p) (keyed : t.keyed p = s.keyed p) : t.Heeds p ↔ s.Heeds p := by
  unfold Kernel.Heeds
  rw [pos, keyed]

theorem inv_wakes (inv : Inv s) (queue : Queue t) (wakes : Wakes s t) (keyWait : ∀ p ∈ t.keyWait, p ∈ s.keyWait)
    (once : t.keyWait.Nodup) : Inv t := by
  have alive : ∀ p, s.state p ≠ .zombie → t.state p ≠ .zombie :=
    fun p alive zombie => alive ((wakes_zombie wakes).mp zombie)
  refine { queue with
    init := ?_, eldest := ?_, family := ?_, young := ?_, running := ?_, gone := ?_, initPos := ?_,
    userPos := ?_, idlePos := ?_, readers := ?_, queuedOnce := once }
  · rw [wakes.procs]
    exact ⟨inv.init.1, alive _ inv.init.2⟩
  · rw [wakes.parent]
    exact inv.eldest
  · rw [wakes.procs, wakes.parent]
    intro p mem other
    obtain ⟨known, living, older⟩ := inv.family p mem other
    exact ⟨known, alive _ living, older⟩
  · rw [wakes.procs, wakes.next]
    exact inv.young
  · rw [wakes.leaving, wakes.current]
    exact fun stays => wakes_runnable wakes (inv.running stays)
  · rw [wakes.procs, wakes.pos]
    exact fun p mem zombie => inv.gone p mem ((wakes_zombie wakes).mp zombie)
  · rw [wakes.pos]
    exact inv.initPos
  · rw [wakes.procs, wakes.pos]
    exact inv.userPos
  · rw [wakes.pos]
    exact inv.idlePos
  · rw [wakes.procs, wakes.pos]
    exact fun p mem => inv.readers p (keyWait p mem)

theorem told_wakes (told : s.Told p) (wakes : Wakes s t) (keyed : t.state p ≠ .runnable ∨
    s.exiting p = true → t.keyed p = s.keyed p) : t.Told p := by
  have pos : t.pos p = s.pos p := congrFun wakes.pos p
  refine ⟨fun sleeps => ?_, fun exiting => ?_⟩
  · have same : t.keyed p = s.keyed p := keyed (.inl (by rw [sleeps]; decide))
    refine (heeds_congr pos same).mpr (told.asleep ?_)
    rcases wakes.state p with ⟨state, _⟩ | ⟨_, state, _⟩
    · exact state.symm.trans sleeps
    · rw [state] at sleeps
      cases sleeps
  · rw [wakes.exiting] at exiting
    rcases told.killed exiting with zombie | ⟨runnable, heeds⟩
    · exact .inl ((wakes_zombie wakes).mpr zombie)
    · exact .inr ⟨wakes_runnable wakes runnable, (heeds_congr pos (keyed (.inr exiting))).mpr heeds⟩

/- A runnable process waits for nothing. -/
theorem waits_for_nothing (queue : Queue s) (known : p ∈ s.procs) (runnable : s.state p = .runnable) :
    s.waitState p = .none := by
  by_contra waits
  have sleeps := (queue.waits p known).mp waits
  rw [runnable] at sleeps
  cases sleeps

theorem positive (inv : Inv s) (known : p ∈ s.procs) (other : p ≠ initproc) : initproc < p := by
  have notIdle : p ≠ idleproc := by
    rintro rfl
    exact inv.idle.1 known
  unfold initproc idleproc at *
  omega

/- `wakeup_proc` of a process that is not gone. -/
theorem wakeup_ends (inv : Inv s) (known : p ∈ s.procs) (alive : s.state p ≠ .zombie) :
    ∃ t, wakeupProc p s = .ok ((), t) ∧ Inv t ∧ Wakes s t ∧ t.needResched = s.needResched ∧
      t.keyed = s.keyed ∧ t.keyWait = s.keyWait ∧ t.state p = .runnable := by
  obtain ⟨t, ran, queue, wakes, resched, keyed, keyWait, runnable⟩ := wakeup_meets inv.toQueue known alive
  refine ⟨t, ran, inv_wakes inv queue wakes ?_ ?_, wakes, resched, keyed, keyWait, runnable⟩
  · rw [keyWait]
    exact fun p mem => mem
  · rw [keyWait]
    exact inv.queuedOnce

/- The timers that are due wake processes that are asleep. -/
theorem fire_ends {timers : List Nat} (inv : Inv s)
    (asleep : ∀ p ∈ timers, p ∈ s.procs ∧ s.pos p = .sleeping) :
    ∃ t, fireTimers timers s = .ok ((), t) ∧ Inv t ∧ Wakes s t ∧ t.needResched = s.needResched ∧
      t.keyed = s.keyed ∧ t.keyWait = s.keyWait := by
  induction timers generalizing s with
  | nil => exact ⟨s, rfl, inv, wakes_refl s, rfl, rfl, rfl⟩
  | cons p timers ih =>
    obtain ⟨known, sleeping⟩ := asleep p (List.mem_cons_self ..)
    have alive : s.state p ≠ .zombie := by
      intro zombie
      have gone := inv.gone p known zombie
      rw [sleeping] at gone
      cases gone
    obtain ⟨t, ran, inv', wakes, resched, keyed, keyWait, _⟩ := wakeup_ends inv known alive
    have later : ∀ q ∈ timers, q ∈ t.procs ∧ t.pos q = .sleeping := by
      rw [wakes.procs, wakes.pos]
      exact fun q mem => asleep q (List.mem_cons_of_mem _ mem)
    obtain ⟨u, ran', inv'', wakes', resched', keyed', keyWait'⟩ := ih inv' later
    refine ⟨u, ?_, inv'', wakes_trans wakes wakes', resched'.trans resched, keyed'.trans keyed,
      keyWait'.trans keyWait⟩
    have woken : (wakeupProc p >>= fun _ => fireTimers timers) s = .ok ((), u) := by
      rw [run_bind ran]
      exact ran'
    unfold fireTimers
    rw [run_get_bind]
    by_cases waits : s.waitState p ≠ .none
    · have interrupted : (s.waitState p).interrupted = true := by
        have not_semaphore := inv.interruptible p known
        cases wait : s.waitState p with
        | none => exact absurd wait waits
        | ksem => exact absurd wait not_semaphore
        | child | timer | kbd => rfl
      rw [if_pos waits, run_check_bind interrupted]
      exact woken
    · rw [if_neg waits]
      exact woken

/- The readers are woken by a key. -/
theorem readers_end {queue : List Nat} (inv : Inv s)
    (reading : ∀ p ∈ queue, p ∈ s.procs ∧ s.pos p = .reading) :
    ∃ t, wakeReaders queue s = .ok ((), t) ∧ Inv t ∧ Wakes s t ∧ (∀ p ∈ t.keyWait, p ∈ s.keyWait) ∧
      (∀ p, p ∉ queue → t.keyed p = s.keyed p) ∧ ∀ p ∈ queue, t.state p = .runnable := by
  induction queue generalizing s with
  | nil => exact ⟨s, rfl, inv, wakes_refl s, fun _ mem => mem, fun _ _ => rfl, fun _ mem => by cases mem⟩
  | cons p queue ih =>
    obtain ⟨known, reads⟩ := reading p (List.mem_cons_self ..)
    have alive : s.state p ≠ .zombie := by
      intro zombie
      have gone := inv.gone p known zombie
      rw [reads] at gone
      cases gone
    let v : Kernel := { s with keyed := Function.update s.keyed p true, keyWait := s.keyWait.erase p }
    have off : Wakes s v :=
      ⟨rfl, rfl, rfl, rfl, rfl, rfl, rfl, fun _ => .inl ⟨rfl, rfl⟩, [], (List.append_nil _).symm⟩
    have queueOk : Queue v := { inv.toQueue with }
    have invOff : Inv v := inv_wakes inv queueOk off (fun q mem => List.mem_of_mem_erase mem)
      (inv.queuedOnce.erase p)
    obtain ⟨t, ran, inv', wakes, _, keyed, keyWait, awake⟩ := wakeup_ends invOff known alive
    have later : ∀ q ∈ queue, q ∈ t.procs ∧ t.pos q = .reading := by
      rw [wakes.procs, wakes.pos]
      exact fun q mem => reading q (List.mem_cons_of_mem _ mem)
    obtain ⟨u, ran', inv'', wakes', keyWait', keyed', awake'⟩ := ih inv' later
    refine ⟨u, ?_, inv'', wakes_trans off (wakes_trans wakes wakes'), fun q mem => ?_, fun q outside => ?_,
      fun q mem => ?_⟩
    · unfold wakeReaders
      rw [run_modify_bind]
      exact (run_bind ran).trans ran'
    · have before := keyWait' q mem
      rw [keyWait] at before
      exact List.mem_of_mem_erase before
    · rw [List.mem_cons, not_or] at outside
      rw [keyed' q outside.2, keyed]
      exact Function.update_of_ne outside.1 ..
    · rcases List.mem_cons.mp mem with rfl | mem'
      · exact wakes_runnable wakes' awake
      · exact awake' q mem'

/- The tick takes from the time slice of the current process. -/
theorem proc_tick_ends (inv : Inv s) : ∃ t, schedClassProcTick s.current s = .ok ((), t) ∧ Inv t ∧
    Wakes s t ∧ t.keyed = s.keyed ∧ t.keyWait = s.keyWait := by
  unfold schedClassProcTick
  by_cases busy : s.current ≠ idleproc
  · rw [if_pos busy]
    have less : ∀ p, Function.update s.timeSlice s.current (s.timeSlice s.current - 1) p ≤ s.timeSlice p := by
      intro p
      by_cases same : p = s.current
      · rw [same, Function.update_self]
        exact Nat.sub_le ..
      · rw [Function.update_of_ne same]
    let t : Kernel := { s with
      timeSlice := Function.update s.timeSlice s.current (s.timeSlice s.current - 1)
      needResched := if s.timeSlice s.current - 1 = 0 then Function.update s.needResched s.current true
        else s.needResched }
    have queue : Queue t := { inv.toQueue with
      slices := fun p mem => (less p).trans (inv.slices p mem)
      slice := fun busy => (less s.current).trans (inv.slice busy) }
    have wakes : Wakes s t :=
      ⟨rfl, rfl, rfl, rfl, rfl, rfl, rfl, fun _ => .inl ⟨rfl, rfl⟩, [], (List.append_nil _).symm⟩
    exact ⟨t, rfl, inv_wakes inv queue wakes (fun _ mem => mem) inv.queuedOnce, wakes, rfl, rfl⟩
  · rw [if_neg busy]
    let t : Kernel := { s with needResched := Function.update s.needResched s.current true }
    have wakes : Wakes s t :=
      ⟨rfl, rfl, rfl, rfl, rfl, rfl, rfl, fun _ => .inl ⟨rfl, rfl⟩, [], (List.append_nil _).symm⟩
    have queue : Queue t := { inv.toQueue with }
    exact ⟨t, rfl, inv_wakes inv queue wakes (fun _ mem => mem) inv.queuedOnce, wakes, rfl, rfl⟩

theorem interrupt_ends {timers : List Nat} {key : Bool} (inv : Inv s)
    (asleep : ∀ p ∈ timers, p ∈ s.procs ∧ s.pos p = .sleeping) :
    ∃ t, timerInterrupt timers key s = .ok ((), t) ∧ Inv t ∧ Wakes s t ∧
      (∀ p ∈ t.keyWait, p ∈ s.keyWait) ∧
      (Alert s → (key = true → ∀ p ∈ s.keyWait, s.exiting p = false) → Alert t) := by
  obtain ⟨v, fired, invV, wakes, _, keyed, keyWait⟩ := fire_ends inv asleep
  obtain ⟨w, ticked, invW, wakesW, keyedW, keyWaitW⟩ := proc_tick_ends invV
  have start : timerInterrupt timers key s = (do if key then wakeReaders (← get).keyWait : KernelM Unit) w := by
    unfold timerInterrupt
    rw [run_bind fired, run_get_bind, run_bind ticked]
  have both := wakes_trans wakes wakesW
  rw [start]
  cases key with
  | false =>
    refine ⟨w, rfl, invW, both, ?_, fun alert _ p mem => ?_⟩
    · rw [keyWaitW, keyWait]
      exact fun p mem => mem
    · rw [both.procs] at mem
      refine told_wakes (alert p mem) both fun _ => ?_
      rw [keyedW, keyed]
  | true =>
    have reading : ∀ p ∈ w.keyWait, p ∈ w.procs ∧ w.pos p = .reading := invW.readers
    obtain ⟨t, ran, invT, wakesT, keyWaitT, keyedT, awakeT⟩ := readers_end invW reading
    have all := wakes_trans both wakesT
    refine ⟨t, ran, invT, all, ?_, fun alert quiet p mem => ?_⟩
    · intro p mem
      have before := keyWaitT p mem
      rwa [keyWaitW, keyWait] at before
    · rw [all.procs] at mem
      refine told_wakes (alert p mem) all fun asked => ?_
      have outside : p ∉ w.keyWait := by
        intro waits
        rcases asked with idle | exiting
        · exact idle (awakeT p waits)
        · rw [keyWaitW, keyWait] at waits
          have spared := quiet rfl p waits
          rw [exiting] at spared
          cases spared
      rw [keyedT p outside, keyedW, keyed]

/- The process at work has ended, and its parents are told after that. -/
def Kernel.ended (s : Kernel) : Kernel :=
  { s with
    state := Function.update s.state s.current .zombie
    pos := Function.update s.pos s.current .gone
    leaving := true }

theorem ended_state_other {p : Nat} (other : p ≠ s.current) : s.ended.state p = s.state p := Function.update_of_ne other ..

theorem ended_pos_other {p : Nat} (other : p ≠ s.current) : s.ended.pos p = s.pos p := Function.update_of_ne other ..

theorem ended_state_self : s.ended.state s.current = .zombie := Function.update_self ..

theorem ended_pos_self : s.ended.pos s.current = .gone := Function.update_self ..

theorem ended_queue (inv : Inv s) (stays : s.leaving = false) (busy : s.current ≠ idleproc) : Queue s.ended := by
  have calm : s.waitState s.current = .none := waits_for_nothing inv.toQueue (inv.current busy) (inv.running stays)
  refine { inv.toQueue with queued := fun p => ?_, idle := ?_, waits := fun p mem => ?_ }
  · change p ∈ s.runList ↔ p ∈ s.procs ∧ s.ended.state p = .runnable ∧ p ≠ s.current
    rw [inv.queued]
    by_cases same : p = s.current
    · exact iff_of_false (fun ready => ready.2.2 same) fun ready => ready.2.2 same
    · rw [ended_state_other same]
  · rw [ended_state_other (Ne.symm busy)]
    exact inv.idle
  · by_cases same : p = s.current
    · subst p
      rw [ended_state_self]
      exact iff_of_false (fun waits => waits calm) (by decide)
    · rw [ended_state_other same]
      exact inv.waits p mem

/- A process that waits for a child is woken, and nothing happens otherwise. -/
theorem child_told {p : Nat} {c : Prop} [Decidable c] (queue : Queue t) (known : p ∈ t.procs) (alive : t.state p ≠ .zombie) :
    ∃ u, (do if c then wakeupProc p : KernelM Unit) t = .ok ((), u) ∧ Queue u ∧ Wakes t u ∧ u.keyWait = t.keyWait ∧
      u.keyed = t.keyed := by
  by_cases waits : c
  · obtain ⟨u, ran, queueU, wakes, _, keyed, keyWait, _⟩ := wakeup_meets queue known alive
    rw [if_pos waits]
    exact ⟨u, ran, queueU, wakes, keyWait, keyed⟩
  · rw [if_neg waits]
    exact ⟨t, rfl, queue, wakes_refl t, rfl, rfl⟩

/-- What the end of a process leaves: its children are those of `initproc`, and only processes have been woken. -/
structure Ended (s t : Kernel) : Prop where
  queue : Queue t
  wakes : Wakes s.ended { t with parent := s.parent }
  parents : t.parent = fun q => if q ∈ s.children s.current then initproc else s.parent q
  keyWait : t.keyWait = s.keyWait
  keyed : t.keyed = s.keyed

theorem exit_run (inv : Inv s) (stays : s.leaving = false) (busy : s.current ≠ idleproc) (other : s.current ≠ initproc) :
    ∃ t, doExit s = .ok ((), t) ∧ Ended s t := by
  obtain ⟨parentKnown, parentAlive, older⟩ := inv.family s.current (inv.current busy) other
  have apart : s.parent s.current ≠ s.current := Nat.ne_of_lt older
  have queue := ended_queue inv stays busy
  obtain ⟨w, woke, queueW, wakesW, keyWaitW, keyedW⟩ := @child_told s.ended (s.parent s.current)
    (s.ended.waitState (s.parent s.current) = .child) _ queue parentKnown (by rwa [ended_state_other apart])
  let x : Kernel := { w with parent := fun q => if q ∈ s.children s.current then initproc else w.parent q }
  have queueX : Queue x := { queueW with }
  have knownX : initproc ∈ x.procs := by
    change initproc ∈ w.procs
    rw [wakesW.procs]
    exact inv.init.1
  have aliveX : x.state initproc ≠ .zombie := by
    intro zombie
    have before := (wakes_zombie wakesW).mp zombie
    rw [ended_state_other (Ne.symm other)] at before
    exact inv.init.2 before
  obtain ⟨t, wokeT, queueT, wakesT, keyWaitT, keyedT⟩ := @child_told x initproc
    ((∃ q ∈ s.children s.current, w.state q = .zombie) ∧ w.waitState initproc = .child) _ queueX knownX aliveX
  refine ⟨t, ?_, queueT, ?_, ?_, keyWaitT.trans keyWaitW, keyedT.trans keyedW⟩
  · have rest : (do
        if s.ended.waitState (s.parent s.current) = .child then wakeupProc (s.parent s.current)
        let t ← get
        set { t with parent := fun q => if q ∈ s.children s.current then initproc else t.parent q }
        if (∃ q ∈ s.children s.current, t.state q = .zombie) ∧ t.waitState initproc = .child then
          wakeupProc initproc : KernelM Unit) s.ended = .ok ((), t) := by
      by_cases waits : s.ended.waitState (s.parent s.current) = .child
      · rw [if_pos waits] at woke ⊢
        exact (run_bind woke).trans wokeT
      · rw [if_neg waits] at woke ⊢
        cases woke
        exact wokeT
    unfold doExit
    rw [run_get_bind, if_neg busy, if_neg other]
    exact rest
  · have again : Wakes w { t with parent := w.parent } :=
      ⟨wakesT.procs, wakesT.next, rfl, wakesT.exiting, wakesT.pos, wakesT.current, wakesT.leaving,
        wakesT.state, wakesT.order⟩
    have whole := wakes_trans wakesW again
    rw [wakesW.parent] at whole
    exact whole
  · rw [wakesT.parent]
    funext q
    change (if q ∈ s.children s.current then initproc else w.parent q) = _
    rw [wakesW.parent]
    rfl

theorem ended_zombies (ended : Ended s t) (p : Nat) : t.state p = .zombie ↔ s.ended.state p = .zombie :=
  @wakes_zombie _ { t with parent := s.parent } _ ended.wakes

theorem ended_zombie {p : Nat} (ended : Ended s t) (zombie : t.state p = .zombie) : p = s.current ∨ s.state p = .zombie := by
  by_cases same : p = s.current
  · exact .inl same
  · rw [ended_zombies ended, ended_state_other same] at zombie
    exact .inr zombie

theorem ended_inv (inv : Inv s) (busy : s.current ≠ idleproc) (other : s.current ≠ initproc) (out : s.current ∉ s.keyWait)
    (ended : Ended s t) : Inv t := by
  have idleApart : idleproc ≠ s.current := Ne.symm busy
  have procs : t.procs = s.procs := ended.wakes.procs
  have pos : t.pos = s.ended.pos := ended.wakes.pos
  have initAlive : t.state initproc ≠ .zombie := by
    intro zombie
    rcases ended_zombie ended zombie with same | gone
    · exact other same.symm
    · exact inv.init.2 gone
  refine { ended.queue with
    init := ?_, eldest := ?_, family := ?_, young := ?_, running := ?_, gone := ?_, initPos := ?_,
    userPos := ?_, idlePos := ?_, readers := ?_, queuedOnce := ?_ }
  · rw [procs]
    exact ⟨inv.init.1, initAlive⟩
  · rw [ended.parents]
    have elder : initproc ∉ s.children s.current := by
      intro mem
      have parent := (Finset.mem_filter.mp mem).2
      rw [inv.eldest] at parent
      exact idleApart parent
    exact (if_neg elder).trans inv.eldest
  · rw [procs, ended.parents]
    intro p mem notInit
    by_cases child : p ∈ s.children s.current
    · dsimp only
      rw [if_pos child]
      exact ⟨inv.init.1, initAlive, positive inv mem notInit⟩
    · dsimp only
      rw [if_neg child]
      obtain ⟨knownP, aliveP, olderP⟩ := inv.family p mem notInit
      refine ⟨knownP, fun zombie => ?_, olderP⟩
      rcases ended_zombie ended zombie with same | gone
      · exact child (Finset.mem_filter.mpr ⟨mem, same⟩)
      · exact aliveP gone
  · rw [procs]
    have next : t.next = s.next := ended.wakes.next
    rw [next]
    exact inv.young
  · have leaves : t.leaving = true := ended.wakes.leaving
    rw [leaves]
    exact fun stays => Bool.noConfusion stays
  · rw [procs, pos]
    intro p mem zombie
    by_cases same : p = s.current
    · rw [same, ended_pos_self]
    · rw [ended_pos_other same]
      exact inv.gone p mem ((ended_zombie ended zombie).resolve_left same)
  · rw [pos, ended_pos_other (Ne.symm other)]
    exact inv.initPos
  · rw [procs, pos]
    intro p mem notInit
    by_cases same : p = s.current
    · rw [same, ended_pos_self]
      decide
    · rw [ended_pos_other same]
      exact inv.userPos p mem notInit
  · rw [pos, ended_pos_other idleApart]
    exact inv.idlePos
  · rw [ended.keyWait, procs, pos]
    intro p mem
    have same : p ≠ s.current := by
      rintro rfl
      exact out mem
    rw [ended_pos_other same]
    exact inv.readers p mem
  · rw [ended.keyWait]
    exact inv.queuedOnce

theorem ended_alert (alert : OthersAlert s) (ended : Ended s t) : Alert t := by
  have procs : t.procs = s.procs := ended.wakes.procs
  intro p mem
  rw [procs] at mem
  by_cases same : p = s.current
  · have zombie : t.state p = .zombie := by
      rw [ended_zombies ended, same]
      exact ended_state_self
    refine ⟨fun sleeps => ?_, fun _ => .inl zombie⟩
    rw [zombie] at sleeps
    cases sleeps
  · have told := alert p mem same
    have toldV : s.ended.Told p := by
      have heeds : s.ended.Heeds p ↔ s.Heeds p := heeds_congr (ended_pos_other same) rfl
      refine ⟨fun sleeps => ?_, fun exiting => ?_⟩
      · rw [ended_state_other same] at sleeps
        exact heeds.mpr (told.asleep sleeps)
      · rw [ended_state_other same, heeds]
        exact told.killed exiting
    have toldT := told_wakes toldV ended.wakes fun _ => congrFun ended.keyed p
    exact ⟨toldT.asleep, toldT.killed⟩

/- The end of a process. -/
theorem exit_ends (inv : Inv s) (stays : s.leaving = false) (busy : s.current ≠ idleproc)
    (other : s.current ≠ initproc) (out : s.current ∉ s.keyWait) :
    ∃ t, doExit s = .ok ((), t) ∧ Inv t ∧ t.procs = s.procs ∧ t.exiting = s.exiting ∧
      (∃ woken, t.runList = s.runList ++ woken) ∧ (OthersAlert s → Alert t) := by
  obtain ⟨t, ran, ended⟩ := exit_run inv stays busy other
  exact ⟨t, ran, ended_inv inv busy other out ended, ended.wakes.procs, ended.wakes.exiting, ended.wakes.order,
    fun alert => ended_alert alert ended⟩

end

end Ucore.Sched
