import Ucore.Sync.SemDowns

/- The semaphores over all runs. -/
namespace Ucore.Sync
open Transitions Process
variable {S P : Type*} {v : S → Int} {k k' : Sems S P} {p : P} {s : S}

theorem runs_not_down (runs : k.Runs p) (t : S) : k.pos p ≠ .down t := by
  rw [runs.1]
  exact fun same => nomatch same

theorem granted_of_enabled (sound : Sound v k) (enabled : k.pos p = .down s ∧ k.state p = .runnable) : k.Granted p s := by
  refine ⟨enabled.1, fun mem => ?_⟩
  have sleeps := (sound.queued s p mem).2.1
  rw [enabled.2] at sleeps
  cases sleeps

variable [DecidableEq S] [DecidableEq P]

theorem up_sound (sound : Sound v k) (fits : k.value s < INT_MAX) :
    ∃ k', up s k = some k' ∧ Sound v k' ∧ (Raised s k k' ∨ ∃ p, Released s p k k') := by
  cases queue : k.waitQueue s with
  | nil =>
    obtain ⟨k', call, raised, ups, downs, clock⟩ := up_raises sound fits queue
    exact ⟨k', call, raised_sound raised ups downs clock fits sound, .inl raised⟩
  | cons p rest =>
    obtain ⟨k', call, released, ups, downs, clock⟩ := up_releases sound queue
    exact ⟨k', call, released_sound released ups downs clock sound, .inr ⟨p, released⟩⟩

theorem down_sound (sound : Sound v k) (running : k.pos p = .running) : Sound v (down p s k) := by
  rw [down_eq]
  split_ifs with positive
  · exact taken_sound sound positive
  · exact waiting_sound sound running positive

theorem aside_call (sound : Sound v k) {e : SemEvent S P} (elsewhere : e.Aside) (enabled : k.Enabled e) :
    ∃ k', k.call e = some k' ∧ Aside k k' := by
  cases e with
  | up p s => cases elsewhere
  | down p s => cases elsewhere
  | downReturn p s => cases elsewhere
  | tryDown p s => cases elsewhere
  | kill q => exact kill_aside sound q
  | create p =>
    obtain ⟨pos, state⟩ := enabled
    have moved := move_aside sound p .runnable (k.waitState p) (k.pos p)
      (fun s down => nomatch pos.symm.trans down) (fun s down => nomatch pos.symm.trans down)
      (fun _ => ⟨ProcState.noConfusion, (sound.running p pos).2⟩) (fun asleep => nomatch pos.symm.trans asleep)
    rw [Function.update_eq_self, Function.update_eq_self] at moved
    exact ⟨_, rfl, moved⟩
  | exit p =>
    have moved := move_aside sound p .zombie (k.waitState p) (k.pos p)
      (runs_not_down enabled) (runs_not_down enabled) (fun _ => ⟨ProcState.noConfusion, (sound.running p enabled.1).2⟩)
      (fun asleep => nomatch enabled.1.symm.trans asleep)
    rw [Function.update_eq_self, Function.update_eq_self] at moved
    exact ⟨_, rfl, moved⟩
  | sleep p wait =>
    exact ⟨_, rfl, move_aside sound p .sleeping wait .asleep (runs_not_down enabled.1) (fun _ down => nomatch down)
      (fun run => nomatch run) fun _ => .inl rfl⟩
  | wakeup p => exact wakeup_aside sound enabled
  | resume p =>
    obtain ⟨pos, state⟩ := enabled
    have rest : k.waitState p = .none := by
      rcases sound.asleep p pos with sleeps | runs
      · rw [state] at sleeps
        cases sleeps
      · exact runs.2
    have moved := move_aside sound p (k.state p) (k.waitState p) .running
      (fun s down => nomatch pos.symm.trans down) (fun _ down => nomatch down)
      (fun _ => ⟨state ▸ ProcState.noConfusion, rest⟩) (fun asleep => nomatch asleep)
    rw [Function.update_eq_self, Function.update_eq_self] at moved
    exact ⟨_, rfl, moved⟩

/- No assertion fails, and the semaphores stay sound. -/
theorem call_sound (sound : Sound v k) {e : SemEvent S P} (enabled : k.Enabled e) (fits : k.Fits e) :
    ∃ k', k.call e = some k' ∧ Sound v k' := by
  by_cases aside : e.Aside
  · obtain ⟨k', call, kept⟩ := aside_call sound aside enabled
    exact ⟨k', call, aside_sound kept sound⟩
  · cases e with
    | up p s =>
      obtain ⟨k', call, sound', _⟩ := up_sound sound fits
      exact ⟨k', call, sound'⟩
    | down p s => exact ⟨_, rfl, down_sound sound enabled.1⟩
    | downReturn p s =>
      have granted := granted_of_enabled sound enabled
      obtain ⟨k', call, returned, ups, downs, clock, since⟩ := down_returns sound granted
      exact ⟨k', call, returned_sound granted returned ups downs clock since sound⟩
    | tryDown p s =>
      refine ⟨_, rfl, ?_⟩
      unfold tryDown
      split_ifs with positive
      · exact taken_sound sound positive
      · exact sound
    | _ => exact absurd trivial aside

theorem step_sound {e : SemEvent S P} (sound : Sound v k) (step : FittingStep k e k') : Sound v k' := by
  obtain ⟨next, call, sound'⟩ := call_sound sound step.1.1 step.2
  obtain rfl := Option.some.inj (call.symm.trans step.1.2)
  exact sound'

/- Also where the value overflows. -/
theorem call_succeeds (sound : Sound v k) {e : SemEvent S P} (enabled : k.Enabled e) : ∃ k', k.call e = some k' := by
  cases e with
  | up p s =>
    cases queue : k.waitQueue s with
    | nil =>
      change ∃ k', up s k = some k'
      unfold up
      dsimp only
      rw [queue]
      exact ⟨_, rfl⟩
    | cons q rest =>
      obtain ⟨k', call, _⟩ := up_releases sound queue
      exact ⟨k', call⟩
  | _ =>
    obtain ⟨k', call, _⟩ := call_sound sound enabled trivial
    exact ⟨k', call⟩

/-- As long as no `up` finds the value at `INT_MAX`: the value is not negative, units and unserved waiters do not meet,
every unit is accounted for, no assertion fails, and an `up` raises the value or releases the first to wait. -/
theorem semaphores_are_correct {k₀ : Sems S P} (start : Init v k₀) {es : List (SemEvent S P)}
    (run : Run FittingStep k₀ es k) :
    (∀ s, 0 ≤ k.value s) ∧ (∀ s, 0 < k.value s → k.waitQueue s = []) ∧
    (∀ s, (k.downs s : Int) + {p | k.Granted p s}.ncard = v s + k.ups s - k.value s) ∧
    (∀ e, k.Enabled e → ∃ k', k.call e = some k') ∧
    ∀ p s k', FittingStep k (.up p s) k' → Raised s k k' ∨ ∃ q, Released s q k k' := by
  have kept : ∀ k (e : SemEvent S P) k', Sound v k → FittingStep k e k' → Sound v k' := fun _ _ _ => step_sound
  have sound : Sound v k := run_invariant kept run (init_sound start)
  refine ⟨fun s => (sound.room s).1, sound.served, sound.account, fun e enabled => call_succeeds sound enabled,
    fun p s k' step => ?_⟩
  obtain ⟨next, call, _, outcome⟩ := up_sound sound step.2
  obtain rfl := Option.some.inj (call.symm.trans step.1.2)
  exact outcome

/- One semaphore. -/
def oneSem (value : Int) : Sems Unit Nat := idleSems fun _ => value

theorem one_sem_init {value : Int} (room : 0 ≤ value ∧ value ≤ INT_MAX) : Init (fun _ => value) (oneSem value) :=
  idle_sems_init fun _ => room

/-- Process 1 waits and is handed the unit of process 2. -/
theorem waiter_is_released : ∃ k, Run FittingStep (oneSem 0) [.down 1 (), .up 2 ()] k ∧
    (k.downs () : Int) + {p | k.Granted p ()}.ncard = 1 - k.value () := by
  have run : Run FittingStep (oneSem 0) [.down 1 (), .up 2 ()] _ :=
    .call ⟨⟨⟨rfl, rfl⟩, rfl⟩, trivial⟩ (.call ⟨⟨⟨rfl, rfl⟩, rfl⟩, show (0 : Int) < INT_MAX by decide⟩ (.stop _))
  exact ⟨_, run, (semaphores_are_correct (one_sem_init (by decide)) run).2.2.1 ()⟩

/-- One more unit than an `int` counts. -/
theorem value_overflows : Init (fun _ => INT_MAX) (oneSem INT_MAX) ∧
    ∃ k, Run SemStep (oneSem INT_MAX) [.up 1 ()] k ∧ k.value () = -(2 ^ 31) :=
  ⟨one_sem_init (by decide), _, .call ⟨⟨rfl, rfl⟩, rfl⟩ (.stop _), by decide⟩

end Ucore.Sync
