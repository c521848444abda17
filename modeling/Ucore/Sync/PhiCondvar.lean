import Ucore.Sync.Forks
import Ucore.Sync.MonitorRuns

/- The philosophers with the monitor: what their steps keep, over the monitor's own invariant. -/
namespace Ucore.Sync
open Process
variable {n : Nat} {t t' : TableCondvar n} {state : Philosopher n → Phase} {place : Philosopher n → CondAt n}
  {mt : Monitor (Philosopher n) (Philosopher n)} {i j p q c : Philosopher n} {x : CondAt n} {call : PhiCall}
  {y : Place (Philosopher n)}

def CondAt.todo : CondAt n → List (Philosopher n)
  | .testing _ todo => todo
  | .calling _ _ todo => todo
  | .signalling _ todo => todo
  | _ => []

/- The phase before the call sets it. -/
def PhiCall.condBefore : PhiCall → Phase
  | .takeForks => .thinking
  | .putForks => .eating

def CondAt.Allows (phase : Phase) : CondAt n → Prop
  | .outside => phase = .thinking
  | .entering call => phase = call.condBefore
  | .inside call => phase = call.condBefore
  | .testing .takeForks _ => phase ≠ .thinking
  | .testing .putForks _ => phase = .thinking
  | .calling .takeForks _ _ => phase ≠ .thinking
  | .calling .putForks _ _ => phase = .thinking
  | .signalling .takeForks _ => phase ≠ .thinking
  | .signalling .putForks _ => phase = .thinking
  | .waiting => phase ≠ .thinking
  | .leaving .takeForks => phase = .eating
  | .leaving .putForks => phase = .thinking
  | .eating => phase = .eating

theorem cond_hungry_eats (hungry : x.Allows .hungry) : x.Allows .eating := by
  cases x with
  | testing call _ => cases call <;> first | exact Phase.noConfusion | cases hungry
  | calling call _ _ => cases call <;> first | exact Phase.noConfusion | cases hungry
  | signalling call _ => cases call <;> first | exact Phase.noConfusion | cases hungry
  | entering call => cases call <;> cases hungry
  | inside call => cases call <;> cases hungry
  | leaving call => cases call <;> cases hungry
  | waiting => exact Phase.noConfusion
  | _ => cases hungry

/-- Where the philosopher is for the monitor. -/
def CondAt.Fits (i : Philosopher n) (y : Place (Philosopher n)) : CondAt n → Prop
  | .outside => y = .outside
  | .entering _ => y = .entering
  | .signalling _ _ => y = .signalled ∨ ∃ c, y = .signalling c
  | .waiting => y = .suspending i ∨ y = .suspended i
  | .eating => y = .outside
  | _ => y = .body

/-- A philosopher that was let eat while it waits will be signalled, or its unit is on its way. -/
structure CondSound (t : TableCondvar n) : Prop where
  monitored : Monitored t.mt
  fits : ∀ i, (t.place i).Fits i (t.mt.place i)
  seated : Seated (fun x phase => CondAt.Allows phase x) CondAt.todo t.place t.stateCondvar
  calling : ∀ p call j todo, t.place p = .calling call j todo → t.stateCondvar j = .eating
  signalling : ∀ p c, t.mt.place p = .signalling c → t.stateCondvar c = .eating
  handed : ∀ c, t.mt.Handed c → t.stateCondvar c = .eating
  owed : ∀ j, t.stateCondvar j = .eating → t.place j = .waiting →
    t.mt.Handed j ∨ (∃ p call todo, t.place p = .calling call j todo) ∨ ∃ p, t.mt.place p = .signalling j

theorem calling_body (fits : x.Fits i y) {todo : List (Philosopher n)} (calling : x = .calling call j todo) : y = .body := by
  subst calling
  exact fits

theorem not_handed (monitored : Monitored mt) (active : (mt.place i).active = true) (c : Philosopher n) : ¬ mt.Handed c := by
  intro handed
  rcases handed_baton (monitored.active active).1 handed with free | ⟨q, given⟩
  · cases free
  · cases given

/- While another philosopher is in the monitor and lets nobody eat, nobody who waits was let eat. -/
theorem CondSound.settled (table : CondSound t) (active : (t.mt.place i).active = true)
    (no_call : ∀ call k todo, t.place i ≠ .calling call k todo) (no_signal : ∀ c, t.mt.place i ≠ .signalling c)
    (eats : t.stateCondvar j = .eating) : t.place j ≠ .waiting := by
  intro waiting
  rcases table.owed j eats waiting with handed | ⟨p, call, todo, calling⟩ | ⟨p, signalling⟩
  · exact not_handed table.monitored active j handed
  · have body := calling_body (table.fits p) calling
    have same := one_active table.monitored (p := i) (q := p) active (by rw [body]; rfl)
    subst same
    exact no_call call j todo calling
  · have same := one_active table.monitored (p := i) (q := p) active (by rw [signalling]; rfl)
    subst same
    exact no_signal j signalling

theorem CondSound.alone (table : CondSound t) (active : (t.mt.place i).active = true) (other : p ≠ i) :
    (∀ call k todo, t.place p ≠ .calling call k todo) ∧ ∀ c, t.mt.place p ≠ .signalling c := by
  constructor
  · intro call k todo calling
    have body := calling_body (table.fits p) calling
    exact other (one_active table.monitored (by rw [body]; rfl) active)
  · intro c signalling
    exact other (one_active table.monitored (by rw [signalling]; rfl) active)

theorem fits_update (fits : ∀ i, (place i).Fits i (mt.place i)) (own : x.Fits i (mt.place i)) :
    ∀ p, (Function.update place i x p).Fits p (mt.place p) := by
  intro p
  by_cases here : p = i
  · subst here
    rw [Function.update_self]
    exact own
  · rw [Function.update_of_ne here]
    exact fits p

/- A step of the active philosopher inside the body; `state'` are the phases after it. -/
theorem body_step (table : CondSound t) (body : t.mt.place i = .body)
    (no_call : ∀ call k todo, t.place i ≠ .calling call k todo) {state : Philosopher n → Phase}
    (seated : Seated (fun x phase => CondAt.Allows phase x) CondAt.todo (Function.update t.place i x) state)
    (fits : x.Fits i .body) (calls : ∀ call j todo, x = .calling call j todo → state j = .eating)
    (owed : ∀ j, state j = .eating → t.stateCondvar j = .eating ∨ ∃ call todo, x = .calling call j todo) :
    CondSound { t.move i x with stateCondvar := state } := by
  have active : (t.mt.place i).active = true := by
    rw [body]
    rfl
  have no_signal : ∀ c, t.mt.place i ≠ .signalling c := fun c same => nomatch body.symm.trans same
  refine ⟨table.monitored, fits_update table.fits (body ▸ fits), seated, fun p call j todo calling => ?_,
    fun p c signalling => ?_, fun c handed => absurd handed (not_handed table.monitored active c), fun j eats waiting => ?_⟩
  · change Function.update t.place i x p = _ at calling
    by_cases here : p = i
    · subst here
      rw [Function.update_self] at calling
      exact calls call j todo calling
    · rw [Function.update_of_ne here] at calling
      exact absurd calling ((table.alone active here).1 call j todo)
  · by_cases here : p = i
    · subst here
      exact absurd signalling (no_signal c)
    · exact absurd signalling ((table.alone active here).2 c)
  · rcases owed j eats with before | ⟨call, todo, calling⟩
    · have rests := table.settled active no_call no_signal before
      change Function.update t.place i x j = _ at waiting
      by_cases here : j = i
      · subst here
        rw [Function.update_self] at waiting
        rw [waiting] at fits
        rcases fits with suspending | suspended
        · cases suspending
        · cases suspended
      · rw [Function.update_of_ne here] at waiting
        exact absurd waiting rests
    · refine .inr (.inl ⟨i, call, todo, ?_⟩)
      change Function.update t.place i x i = _
      rw [Function.update_self]
      exact calling

end Ucore.Sync
