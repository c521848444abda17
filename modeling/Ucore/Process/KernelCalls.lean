import Ucore.Process.KernelSteps

/- Where the system calls and the end of a trap leave the kernel. -/
namespace Ucore.Sched
open Programs Transitions Process

/-- A step keeps the invariant and puts processes only at the end of the run list. If the kernel was
`wary` it still is, and if the step has `mercy` on `initproc` then that is not killed. -/
structure Outcome (wary mercy : Prop) (s t : Kernel) : Prop where
  inv : Inv t
  order : ∃ woken, t.runList = s.runList ++ woken
  spared : mercy → t.exiting initproc = true → s.exiting initproc = true
  alert : wary → Alert t

/-- The kernel stops only when `initproc` is killed or has no process left to wait for. -/
def Ruin (s : Kernel) (e : KernelStop) : Prop :=
  e = .initExit ∧ (s.exiting initproc = true ∨ ∀ p ∈ s.procs, p = initproc)

/- The places in the kernel where a process can be. -/
def Fits (p : Nat) (pos : Pos) : Prop :=
  if p = idleproc then pos = .idle
  else if p = initproc then pos = .begin ∨ pos = .again ∨ pos = .waiting none
  else pos ≠ .begin ∧ pos ≠ .again ∧ pos ≠ .idle

/- The current process, on behalf of which a system call runs. -/
structure Serving (s : Kernel) : Prop where
  inv : Inv s
  stays : s.leaving = false
  busy : s.current ≠ idleproc
  other : s.current ≠ initproc
  out : s.current ∉ s.keyWait

section
variable {s t u : Kernel} {p : Nat} {place : Pos} {wary mercy : Prop}

theorem outcome_mono {wary' mercy' : Prop} (outcome : Outcome wary mercy s t) (warier : wary' → wary)
    (kinder : mercy' → mercy) : Outcome wary' mercy' s t :=
  ⟨outcome.inv, outcome.order, fun kind => outcome.spared (kinder kind), fun alert => outcome.alert (warier alert)⟩

/- Two steps, one after the other. -/
theorem outcome_trans (order : ∃ woken, t.runList = s.runList ++ woken)
    (spared : mercy → t.exiting initproc = true → s.exiting initproc = true)
    (rest : Outcome wary mercy t u) : Outcome wary mercy s u := by
  obtain ⟨woken, list⟩ := order
  obtain ⟨woken', list'⟩ := rest.order
  refine ⟨rest.inv, ⟨woken ++ woken', ?_⟩, fun kind killed => spared kind (rest.spared kind killed), rest.alert⟩
  rw [list', list, List.append_assoc]

theorem told_congr (told : s.Told p) (state : t.state p = s.state p) (exiting : t.exiting p = s.exiting p)
    (pos : t.pos p = s.pos p) (keyed : t.keyed p = s.keyed p) : t.Told p := by
  refine ⟨fun sleeps => ?_, fun killed => ?_⟩
  · rw [heeds_congr pos keyed]
    exact told.asleep (state.symm.trans sleeps)
  · rw [heeds_congr pos keyed, state]
    exact told.killed (exiting.symm.trans killed)

/- A step of a process that is not to be killed. -/
theorem alert_step (alert : OthersAlert s) (procs : t.procs = s.procs) (exiting : t.exiting = s.exiting)
    (others : ∀ p, p ≠ s.current → t.state p = s.state p ∧ t.pos p = s.pos p ∧ t.keyed p = s.keyed p)
    (spared : s.exiting s.current = false) (heeds : t.state s.current = .sleeping → t.Heeds s.current) :
    Alert t := by
  intro p mem
  rw [procs] at mem
  by_cases same : p = s.current
  · subst p
    refine ⟨heeds, fun killed => ?_⟩
    rw [exiting, spared] at killed
    cases killed
  · obtain ⟨state, pos, keyed⟩ := others p same
    exact told_congr (alert p mem same) state (congrFun exiting p) pos keyed

/- The current process goes to another place. -/
def Kernel.moved (s : Kernel) (place : Pos) (leaving : Bool) : Kernel :=
  { s with pos := Function.update s.pos s.current place, leaving := leaving }

theorem moved_other {leaving : Bool} (other : p ≠ s.current) : (s.moved place leaving).pos p = s.pos p :=
  Function.update_of_ne other ..

theorem moved_self {leaving : Bool} : (s.moved place leaving).pos s.current = place :=
  Function.update_self ..

theorem inv_moved (inv : Inv s) (leaving : Bool) (out : s.current ∉ s.keyWait)
    (runnable : s.state s.current = .runnable) (fits : Fits s.current place) : Inv (s.moved place leaving) := by
  refine { inv with
    running := fun _ => runnable, gone := fun p mem zombie => ?_, initPos := ?_,
    userPos := fun p mem notInit => ?_, idlePos := ?_, readers := fun p mem => ?_ }
  · have same : p ≠ s.current := by
      rintro rfl
      change s.state s.current = .zombie at zombie
      rw [runnable] at zombie
      cases zombie
    rw [moved_other same]
    exact inv.gone p mem zombie
  · by_cases same : initproc = s.current
    · rw [same, moved_self]
      rw [← same] at fits
      exact fits
    · rw [moved_other same]
      exact inv.initPos
  · by_cases same : p = s.current
    · subst p
      rw [moved_self]
      have notIdle : s.current ≠ idleproc := by
        intro idle
        rw [idle] at mem
        exact inv.idle.1 mem
      rw [Fits, if_neg notIdle, if_neg notInit] at fits
      exact fits
    · rw [moved_other same]
      exact inv.userPos p mem notInit
  · by_cases same : idleproc = s.current
    · rw [same, moved_self]
      rw [← same] at fits
      exact fits
    · rw [moved_other same]
      exact inv.idlePos
  · have same : p ≠ s.current := by
      rintro rfl
      exact out mem
    rw [moved_other same]
    exact inv.readers p mem

theorem fits_user (serving : Serving s) (away : place ≠ .begin ∧ place ≠ .again ∧ place ≠ .idle) :
    Fits s.current place := by
  rw [Fits, if_neg serving.busy, if_neg serving.other]
  exact away

theorem others_moved {leaving : Bool} (alert : OthersAlert s) : OthersAlert (s.moved place leaving) :=
  fun p mem other => told_congr (alert p mem other) rfl rfl (moved_other other) rfl

/- The end of a trap. -/
theorem trap_end (serving : Serving s) :
    ∃ t, trapEnd s = .ok ((), t) ∧ Outcome (OthersAlert s) True s t := by
  have runnable := serving.inv.running serving.stays
  have fits : Fits s.current .user := fits_user serving (by decide)
  have invMoved := inv_moved serving.inv s.leaving serving.out runnable fits
  let v := s.moved .user s.leaving
  unfold trapEnd
  rw [run_get_bind, run_set_bind]
  by_cases killed : s.exiting s.current = true
  · rw [if_pos killed]
    obtain ⟨t, ran, inv, procs, exiting, order, alert⟩ :=
      exit_ends (s := v) invMoved serving.stays serving.busy serving.other serving.out
    refine ⟨t, ran, inv, order, fun _ dying => ?_, fun others => alert (others_moved others)⟩
    rw [exiting] at dying
    exact dying
  · have lives : s.exiting s.current = false := Bool.eq_false_iff.mpr killed
    rw [if_neg killed]
    have alert : ∀ leaving, OthersAlert s → Alert (v.moved .user leaving) := by
      intro leaving others
      have others' : OthersAlert v := others_moved others
      refine alert_step others' rfl rfl (fun p other => ⟨rfl, ?_, rfl⟩) lives fun sleeps => ?_
      · exact moved_other (s := v) other
      · change s.state s.current = .sleeping at sleeps
        rw [runnable] at sleeps
        cases sleeps
    have twice : v.moved .user s.leaving = v := by
      unfold v Kernel.moved
      simp
    by_cases resched : s.needResched s.current = true
    · rw [if_pos resched]
      exact ⟨v.moved .user true, rfl, inv_moved invMoved true serving.out runnable fits,
        ⟨[], (List.append_nil _).symm⟩, fun _ dying => dying, alert true⟩
    · rw [if_neg resched]
      refine ⟨v, rfl, invMoved, ⟨[], (List.append_nil _).symm⟩, fun _ dying => dying, fun others => ?_⟩
      have whole := alert s.leaving others
      rwa [twice] at whole

/- What `block` leaves. -/
def Kernel.blocked (s : Kernel) (w : WaitState) (place : Pos) : Kernel :=
  { s with
    state := Function.update s.state s.current .sleeping
    waitState := Function.update s.waitState s.current w
    pos := Function.update s.pos s.current place
    leaving := true }

theorem inv_blocked {w : WaitState} (inv : Inv s) (stays : s.leaving = false) (busy : s.current ≠ idleproc)
    (out : s.current ∉ s.keyWait) (fits : Fits s.current place) (waits : w ≠ .none) (light : w ≠ .ksem) :
    Inv (s.blocked w place) := by
  have runnable := inv.running stays
  have stateOther : ∀ {p}, p ≠ s.current → (s.blocked w place).state p = s.state p :=
    fun other => Function.update_of_ne other ..
  have stateSelf : (s.blocked w place).state s.current = .sleeping := Function.update_self ..
  have waitOther : ∀ {p}, p ≠ s.current → (s.blocked w place).waitState p = s.waitState p :=
    fun other => Function.update_of_ne other ..
  have waitSelf : (s.blocked w place).waitState s.current = w := Function.update_self ..
  have alive : ∀ p, s.state p ≠ .zombie → (s.blocked w place).state p ≠ .zombie := by
    intro p living
    by_cases same : p = s.current
    · rw [same, stateSelf]
      decide
    · rw [stateOther same]
      exact living
  have moved := inv_moved inv true out runnable fits
  refine { moved with
    queued := fun p => ?_, idle := ?_, waits := fun p mem => ?_, interruptible := fun p mem => ?_,
    init := ⟨inv.init.1, alive _ inv.init.2⟩, family := fun p mem other => ?_,
    running := fun stays => Bool.noConfusion stays, gone := fun p mem zombie => ?_ }
  · change p ∈ s.runList ↔ p ∈ s.procs ∧ (s.blocked w place).state p = .runnable ∧ p ≠ s.current
    rw [inv.queued]
    by_cases same : p = s.current
    · exact iff_of_false (fun ready => ready.2.2 same) fun ready => ready.2.2 same
    · rw [stateOther same]
  · rw [stateOther (Ne.symm busy), waitOther (Ne.symm busy)]
    exact inv.idle
  · by_cases same : p = s.current
    · subst p
      rw [waitSelf, stateSelf]
      exact iff_of_true waits rfl
    · rw [waitOther same, stateOther same]
      exact inv.waits p mem
  · by_cases same : p = s.current
    · subst p
      rw [waitSelf]
      exact light
    · rw [waitOther same]
      exact inv.interruptible p mem
  · obtain ⟨known, living, older⟩ := inv.family p mem other
    exact ⟨known, alive _ living, older⟩
  · have same : p ≠ s.current := by
      rintro rfl
      rw [stateSelf] at zombie
      cases zombie
    rw [stateOther same] at zombie
    exact moved.gone p mem zombie

theorem blocked_others {w : WaitState} (other : p ≠ s.current) : (s.blocked w place).state p = s.state p ∧
    (s.blocked w place).pos p = s.pos p ∧ (s.blocked w place).keyed p = s.keyed p :=
  ⟨Function.update_of_ne other .., Function.update_of_ne other .., rfl⟩

/- The current process goes to sleep at a place where it heeds a kill. -/
theorem block_ends {w : WaitState} (inv : Inv s) (stays : s.leaving = false) (busy : s.current ≠ idleproc)
    (out : s.current ∉ s.keyWait) (fits : Fits s.current place) (waits : w ≠ .none) (light : w ≠ .ksem)
    (heeds : (∃ pid, place = .waiting pid) ∨ place = .sleeping) :
    ∃ t, block w place s = .ok ((), t) ∧
      Outcome (OthersAlert s ∧ s.exiting s.current = false) True s t := by
  refine ⟨s.blocked w place, rfl, inv_blocked inv stays busy out fits waits light,
    ⟨[], (List.append_nil _).symm⟩, fun _ dying => dying, fun ⟨alert, lives⟩ => ?_⟩
  refine alert_step alert rfl rfl (fun p other => blocked_others other) lives fun _ => ?_
  have here : (s.blocked w place).pos s.current = place := Function.update_self ..
  unfold Kernel.Heeds
  rw [here]
  rcases heeds with waiting | sleeping
  · exact .inl waiting
  · exact .inr (.inl sleeping)

/- `dev_stdin_read` with an empty buffer. -/
theorem wait_for_key_ends (serving : Serving s) : ∃ t, waitForKey s = .ok ((), t) ∧
    Outcome (OthersAlert s ∧ s.exiting s.current = false) True s t := by
  have fits : Fits s.current .reading := fits_user serving (by decide)
  have inv := inv_blocked serving.inv serving.stays serving.busy serving.out fits (w := .kbd) (by decide)
    (by decide)
  have here : (s.blocked .kbd .reading).pos s.current = .reading := Function.update_self ..
  let t : Kernel := { s.blocked .kbd .reading with
    keyed := Function.update s.keyed s.current false
    keyWait := s.keyWait ++ [s.current] }
  refine ⟨t, rfl, ?_, ⟨[], (List.append_nil _).symm⟩, fun _ dying => dying, fun ⟨alert, lives⟩ => ?_⟩
  · refine { inv with readers := fun p mem => ?_, queuedOnce := ?_ }
    · rcases List.mem_append.mp mem with before | last
      · exact inv.readers p before
      · rw [List.mem_singleton.mp last]
        exact ⟨serving.inv.current serving.busy, here⟩
    · refine List.nodup_append.mpr ⟨serving.inv.queuedOnce, List.nodup_singleton _, ?_⟩
      intro a mem b last
      rw [List.mem_singleton.mp last]
      rintro rfl
      exact serving.out mem
  · refine alert_step alert rfl rfl (fun p other => ?_) lives fun _ => .inr (.inr ⟨here, ?_⟩)
    · have same : (s.blocked .kbd .reading).state p = s.state p ∧ (s.blocked .kbd .reading).pos p = s.pos p ∧ _ :=
        blocked_others other
      exact ⟨same.1, same.2.1, Function.update_of_ne other ..⟩
    · exact Function.update_self ..

end

end Ucore.Sched
