import Ucore.Sync.PhiCondvarRuns
import Ucore.Sync.PhiSemaRuns

/- Both tables: neighbours never eat together, and no signal is lost. -/
namespace Ucore.Sync
open Transitions Process
variable {n : Nat} {t : TableCondvar n} {i q c : Philosopher n}

theorem granted_own (table : CondSound t) (granted : t.mt.sems.Granted q (.cv c)) : q = c := by
  rcases place_of_body (table.fits q) (table.monitored.placed q (.cv c) granted.1) with
    ⟨_, _, same⟩ | ⟨_, _, _, same⟩ | ⟨_, same⟩
  · cases same
  · cases same
  · exact (MonSem.cv.inj same).symm

theorem condvar_philosophers (table : CondSound t) (idle : ∀ p, (t.mt.place p).active = false)
    (nobody_signals : ∀ p, t.mt.place p ≠ .signalled) :
    (∀ h, t.stateCondvar h = .hungry → t.stateCondvar (left h) = .eating ∨ t.stateCondvar (right h) = .eating) ∧
    ∀ i, t.stateCondvar i = .eating → i ∉ t.mt.sems.waitQueue (.cv i) ∧
      (t.place i = .waiting → 0 < t.mt.sems.value (.cv i) ∨ t.mt.sems.Granted i (.cv i)) ∧
      (0 < t.mt.sems.value .mutex → ∀ s, i ∉ t.mt.sems.waitQueue s) := by
  have not_body : ∀ p, t.mt.place p ≠ .body := by
    intro p body
    have rests := idle p
    rw [body] at rests
    cases rests
  have not_signalling : ∀ p c, t.mt.place p ≠ .signalling c := by
    intro p c signalling
    have rests := idle p
    rw [signalling] at rests
    cases rests
  have waits : ∀ i, t.stateCondvar i = .eating → t.place i = .waiting → i ∉ t.mt.sems.waitQueue (.cv i) ∧
      (0 < t.mt.sems.value (.cv i) ∨ t.mt.sems.Granted i (.cv i)) := by
    intro i eats waiting
    rcases table.owed i eats waiting with (positive | ⟨q, granted⟩) | ⟨p, call, todo, calling⟩ | ⟨p, signalling⟩
    · rw [table.monitored.sound.served _ positive]
      exact ⟨List.not_mem_nil, .inl positive⟩
    · obtain rfl := granted_own table granted
      exact ⟨granted.2, .inr granted⟩
    · exact absurd (calling_body (table.fits p) calling) (not_body p)
    · exact absurd signalling (not_signalling p i)
  refine ⟨fun h hungry => ?_, fun i eats => ?_⟩
  · rcases table.seated.served h hungry with on_left | on_right | ⟨p, mem⟩
    · exact .inl on_left
    · exact .inr on_right
    · have fits := table.fits p
      cases place : t.place p with
      | testing call todo => rw [place] at fits; exact absurd fits (not_body p)
      | calling call j todo => rw [place] at fits; exact absurd fits (not_body p)
      | signalling call todo =>
        rw [place] at fits
        rcases fits with signalled | ⟨c, signalling⟩
        · exact absurd signalled (nobody_signals p)
        · exact absurd signalling (not_signalling p c)
      | _ => rw [place] at mem; cases mem
  · have queued : ∀ s, i ∈ t.mt.sems.waitQueue s → s = .mutex ∨ t.place i = .waiting ∧ s = .cv i := by
      intro s mem
      have goes := table.monitored.placed i s (table.monitored.sound.queued s i mem).1
      rcases place_of_body (table.fits i) goes with ⟨_, _, same⟩ | ⟨call, todo, place, rfl⟩ | at_cv
      · exact .inl same
      · have fits := table.fits i
        rw [place] at fits
        rcases fits with signalled | ⟨c, signalling⟩
        · exact absurd signalled (nobody_signals i)
        · exact absurd signalling (not_signalling i c)
      · exact .inr at_cv
    have apart : i ∉ t.mt.sems.waitQueue (.cv i) := by
      intro mem
      rcases queued _ mem with same | ⟨waiting, _⟩
      · cases same
      · exact (waits i eats waiting).1 mem
    refine ⟨apart, fun waiting => (waits i eats waiting).2, fun free s mem => ?_⟩
    rcases queued s mem with rfl | ⟨_, rfl⟩
    · rw [table.monitored.sound.served .mutex free] at mem
      cases mem
    · exact apart mem

/-- For every number of philosophers from 2 on and every run of either version: no two neighbours eat; while nobody is in
the critical section, nor suspended in `cond_signal`, who is hungry has a neighbour that eats, and who eats is in no
queue of its own semaphore or condition variable, where its unit lies ready if it still has to pass there; with
`mutex` free it is in no queue at all. No assertion fails. -/
theorem philosophers_eat_apart {t₀ t : TableSema n} (init : SemaInit t₀) {es : List (SemaEvent n)}
    (run : Run SemaStep t₀ es t) {u₀ u : TableCondvar n} (init' : CondInit u₀) {fs : List (CondEvent n)}
    (run' : Run CondStep u₀ fs u) :
    ((∀ i, t.stateSema i = .eating → t.stateSema (right i) ≠ .eating) ∧
      ((∀ p, (t.place p).active = false) →
        (∀ h, t.stateSema h = .hungry → t.stateSema (left h) = .eating ∨ t.stateSema (right h) = .eating) ∧
        ∀ i, t.stateSema i = .eating → i ∉ t.sems.waitQueue (.s i) ∧
          (t.place i = .waiting → 0 < t.sems.value (.s i) ∨ t.sems.Granted i (.s i)) ∧
          (0 < t.sems.value .mutex → ∀ s, i ∉ t.sems.waitQueue s)) ∧
      ∀ e, t.Enabled e → ∃ t', t.call e = some t') ∧
    ((∀ i, u.stateCondvar i = .eating → u.stateCondvar (right i) ≠ .eating) ∧
      ((∀ p, (u.mt.place p).active = false) → (∀ p, u.mt.place p ≠ .signalled) →
        (∀ h, u.stateCondvar h = .hungry → u.stateCondvar (left h) = .eating ∨ u.stateCondvar (right h) = .eating) ∧
        ∀ i, u.stateCondvar i = .eating → i ∉ u.mt.sems.waitQueue (.cv i) ∧
          (u.place i = .waiting → 0 < u.mt.sems.value (.cv i) ∨ u.mt.sems.Granted i (.cv i)) ∧
          (0 < u.mt.sems.value .mutex → ∀ s, i ∉ u.mt.sems.waitQueue s)) ∧
      ∀ e, u.Enabled e → ∃ u', u.call e = some u') := by
  have kept : ∀ t (e : SemaEvent n) t', TableSound t → SemaStep t e t' → TableSound t' := fun _ _ _ => step_table
  have kept' : ∀ u (e : CondEvent n) u', CondSound u → CondStep u e u' → CondSound u' := fun _ _ _ => step_condvar
  have table : TableSound t := run_invariant kept run (init_table init)
  have table' : CondSound u := run_invariant kept' run' (init_condvar init')
  refine ⟨⟨table.phases.seated.apart, sema_philosophers table, fun e enabled => ?_⟩, table'.seated.apart,
    condvar_philosophers table', fun e enabled => ?_⟩
  · obtain ⟨t', call, _⟩ := call_table table enabled
    exact ⟨t', call⟩
  · obtain ⟨u', call, _⟩ := call_condvar table' enabled
    exact ⟨u', call⟩

def twoAtTable : TableSema 0 where
  sems := idleSems phiInitValue
  stateSema := fun _ => .thinking
  place := fun _ => .outside

def twoAtMonitor : TableCondvar 0 where
  mt := { sems := idleSems initValue, nextCount := 0, count := fun _ => 0, place := fun _ => .outside }
  stateCondvar := fun _ => .thinking
  place := fun _ => .outside

/- Philosopher 0 takes the forks. -/
def eats : List (SemaEvent 0) :=
  [.take 0, .down 0 .mutex, .setState 0 .takeForks, .test 0 .takeForks 0 [], .up 0 .takeForks 0 [], .leave 0 .takeForks]

def condEats : List (CondEvent 0) :=
  [.take 0, .down 0 .mutex, .setState 0 .takeForks, .test 0 .takeForks 0 [], .signal 0 .takeForks 0 [],
    .tested 0 .takeForks, .leave 0 .takeForks]

/-- At both tables philosopher 0 eats and philosopher 1 does not. -/
theorem first_eats : ∃ t u, Run SemaStep twoAtTable eats t ∧ Run CondStep twoAtMonitor condEats u ∧
    t.stateSema 0 = .eating ∧ t.stateSema (right 0) ≠ .eating ∧
    u.stateCondvar 0 = .eating ∧ u.stateCondvar (right 0) ≠ .eating := by
  have init : SemaInit twoAtTable := by
    refine ⟨idle_sems_init fun s => ?_, fun _ => rfl, fun _ => rfl⟩
    cases s with
    | mutex => decide
    | s i => exact (by decide : (0 : Int) ≤ 0 ∧ (0 : Int) ≤ INT_MAX)
  have init' : CondInit twoAtMonitor := by
    refine ⟨⟨idle_sems_init fun s => ?_, rfl, fun _ => rfl, fun _ => rfl⟩, fun _ => rfl, fun _ => rfl⟩
    cases s with
    | mutex => decide
    | next => decide
    | cv c => exact (by decide : (0 : Int) ≤ 0 ∧ (0 : Int) ≤ INT_MAX)
  have run : Run SemaStep twoAtTable eats _ :=
    .call ⟨⟨⟨rfl, rfl⟩, rfl⟩, rfl⟩ (.call ⟨⟨⟨rfl, rfl⟩, rfl⟩, rfl⟩ (.call ⟨⟨⟨rfl, rfl⟩, rfl⟩, rfl⟩
      (.call ⟨⟨⟨rfl, rfl⟩, rfl⟩, rfl⟩ (.call ⟨⟨⟨rfl, rfl⟩, rfl⟩, rfl⟩ (.call ⟨⟨⟨rfl, rfl⟩, rfl⟩, rfl⟩ (.stop _))))))
  have run' : Run CondStep twoAtMonitor condEats _ :=
    .call ⟨⟨⟨⟨rfl, rfl⟩, rfl⟩, rfl⟩, rfl⟩ (.call ⟨⟨⟨rfl, rfl⟩, rfl⟩, rfl⟩ (.call ⟨⟨⟨rfl, rfl⟩, rfl⟩, rfl⟩
      (.call ⟨⟨⟨rfl, rfl⟩, rfl⟩, rfl⟩ (.call ⟨⟨⟨⟨rfl, rfl⟩, rfl⟩, rfl⟩, rfl⟩ (.call ⟨⟨⟨rfl, rfl⟩, rfl⟩, rfl⟩
        (.call ⟨⟨⟨⟨rfl, rfl⟩, rfl⟩, rfl⟩, rfl⟩ (.stop _)))))))
  have both := philosophers_eat_apart init run init' run'
  exact ⟨_, _, run, run', rfl, both.1.1 0 rfl, rfl, both.2.1 0 rfl⟩

end Ucore.Sync
