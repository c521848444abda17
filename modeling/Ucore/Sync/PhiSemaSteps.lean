import Ucore.Sync.Baton
import Ucore.Sync.Forks

/- What the steps of the philosophers with semaphores keep. -/
namespace Ucore.Sync
open Process
variable {n : Nat} {t t' : TableSema n} {state : Philosopher n → Phase} {place : Philosopher n → SemaAt n}
  {sems : Sems (PhiSem n) (Philosopher n)} {i j p q : Philosopher n} {x : SemaAt n} {call : PhiCall}

/- In the critical section. -/
def SemaAt.active : SemaAt n → Bool
  | .inside _ => true
  | .testing _ _ => true
  | .signalling _ _ _ => true
  | _ => false

def SemaAt.todo : SemaAt n → List (Philosopher n)
  | .testing _ todo => todo
  | .signalling _ _ todo => todo
  | _ => []

/- The philosopher that eats now and is to get its `up`. -/
def SemaAt.signals : SemaAt n → Option (Philosopher n)
  | .signalling _ j _ => some j
  | _ => none

/- From its test to the return from its semaphore. -/
def SemaAt.takes : SemaAt n → Bool
  | .testing .takeForks _ => true
  | .signalling .takeForks _ _ => true
  | .waiting => true
  | _ => false

/- The phase before the call sets it. -/
def PhiCall.before : PhiCall → Phase
  | .takeForks => .thinking
  | .putForks => .eating

def SemaAt.Allows (phase : Phase) : SemaAt n → Prop
  | .outside => phase = .thinking
  | .entering call => phase = call.before
  | .inside call => phase = call.before
  | .testing .takeForks _ => phase ≠ .thinking
  | .testing .putForks _ => phase = .thinking
  | .signalling .takeForks _ _ => phase ≠ .thinking
  | .signalling .putForks _ _ => phase = .thinking
  | .waiting => phase ≠ .thinking
  | .eating => phase = .eating

theorem hungry_takes (allows : x.Allows .hungry) : x.takes = true := by
  cases x with
  | testing call _ => cases call <;> first | rfl | cases allows
  | signalling call _ _ => cases call <;> first | rfl | cases allows
  | entering call => cases call <;> cases allows
  | inside call => cases call <;> cases allows
  | waiting => rfl
  | _ => cases allows

theorem takes_eating (takes : x.takes = true) : x.Allows .eating := by
  cases x with
  | testing call _ => cases call <;> first | exact Phase.noConfusion | cases takes
  | signalling call _ _ => cases call <;> first | exact Phase.noConfusion | cases takes
  | waiting => exact Phase.noConfusion
  | _ => cases takes

/-- The phases fit the places. -/
structure PhasesOk (place : Philosopher n → SemaAt n) (state : Philosopher n → Phase) : Prop where
  seated : Seated (fun x phase => SemaAt.Allows phase x) SemaAt.todo place state
  signals : ∀ p j, (place p).signals = some j → state j = .eating ∧ (place j).takes = true

/-- The philosopher eats and has not got its unit back from its semaphore. -/
def Owed (place : Philosopher n → SemaAt n) (state : Philosopher n → Phase) (j : Philosopher n) : Prop :=
  state j = .eating ∧ (place j).takes = true ∧ ∀ p, (place p).signals ≠ some j

/- A philosopher goes on; its phase stays. -/
theorem signals_move (ok : PhasesOk place state)
    (signals : ∀ j, x.signals = some j → state j = .eating ∧ (Function.update place i x j).takes = true)
    (takes : ∀ p, p ≠ i → (place p).signals = some i → x.takes = true) :
    ∀ p j, (Function.update place i x p).signals = some j → state j = .eating ∧ (Function.update place i x j).takes = true := by
  intro p j asks
  by_cases here : p = i
  · subst here
    rw [Function.update_self] at asks
    exact signals j asks
  · rw [Function.update_of_ne here] at asks
    refine ⟨(ok.signals p j asks).1, ?_⟩
    by_cases own : j = i
    · subst own
      rw [Function.update_self]
      exact takes p here asks
    · rw [Function.update_of_ne own]
      exact (ok.signals p j asks).2

theorem owed_move (takes : x.takes = (place i).takes) (signals : x.signals = (place i).signals) :
    Owed (Function.update place i x) state j ↔ Owed place state j := by
  have same_takes : (Function.update place i x j).takes = (place j).takes := by
    by_cases here : j = i
    · subst here
      rw [Function.update_self, takes]
    · rw [Function.update_of_ne here]
  have same_signals : ∀ p, (Function.update place i x p).signals = (place p).signals := by
    intro p
    by_cases here : p = i
    · subst here
      rw [Function.update_self, signals]
    · rw [Function.update_of_ne here]
  unfold Owed
  rw [same_takes]
  simp only [same_signals]

/- The caller sets its phase. -/
theorem phases_set (ok : PhasesOk place state) (inside : place i = .inside call) (alone : ∀ p, (place p).signals = none) :
    PhasesOk (Function.update place i (.testing call (call.tests i))) (Function.update state i call.phase) := by
  have before := ok.seated.allows i
  rw [inside] at before
  refine ⟨ok.seated.sets (by rw [inside]; rfl) (fun takes => ?_) rfl ?_, fun p j asks => ?_⟩
  · subst takes
    rw [show state i = .thinking from before]
    exact Phase.noConfusion
  · cases call with
    | takeForks => exact Phase.noConfusion
    | putForks => rfl
  · by_cases here : p = i
    · subst here
      rw [Function.update_self] at asks
      cases asks
    · rw [Function.update_of_ne here, alone p] at asks
      cases asks

theorem phases_test (ok : PhasesOk place state) {todo : List (Philosopher n)} (testing : place i = .testing call (j :: todo))
    (may : MayEat state j) :
    PhasesOk (Function.update place i (.signalling call j todo)) (Function.update state j .eating) := by
  have takes : (place j).takes = true := hungry_takes (may.1 ▸ ok.seated.allows j)
  have same : ∀ p, (Function.update place i (.signalling call j todo) p).takes = (place p).takes := by
    intro p
    by_cases here : p = i
    · subst here
      rw [Function.update_self, testing]
      cases call <;> rfl
    · rw [Function.update_of_ne here]
  have own := ok.seated.allows i
  rw [testing] at own
  refine ⟨ok.seated.eats (by rw [testing]; rfl) may (fun y hungry => takes_eating (hungry_takes hungry)) ?_, fun p k asks => ?_⟩
  · cases call <;> exact own
  · rw [same k]
    by_cases here : p = i
    · subst here
      rw [Function.update_self] at asks
      cases asks
      exact ⟨Function.update_self .., takes⟩
    · rw [Function.update_of_ne here] at asks
      refine ⟨?_, (ok.signals p k asks).2⟩
      by_cases fed : k = j
      · rw [fed, Function.update_self]
      · rw [Function.update_of_ne fed]
        exact (ok.signals p k asks).1

/- The test of a philosopher that must not eat. -/
theorem phases_tested (ok : PhasesOk place state) {todo : List (Philosopher n)}
    (testing : place i = .testing call (j :: todo)) (may : ¬ MayEat state j) :
    PhasesOk (Function.update place i (.testing call todo)) state := by
  have own := ok.seated.allows i
  rw [testing] at own
  refine ⟨ok.seated.tested (by rw [testing]; rfl) may ?_, signals_move ok (fun k asks => nomatch asks) fun p _ asks => ?_⟩
  · cases call <;> exact own
  · have takes := (ok.signals p i asks).2
    rw [testing] at takes
    cases call <;> exact takes

/- The semaphore of `j` has no unit, or one that may also be on its way back. -/
def NoUnit (sems : Sems (PhiSem n) (Philosopher n)) (j : Philosopher n) : Prop := Holds (· = .s j) (.active j) sems

def HasUnit (sems : Sems (PhiSem n) (Philosopher n)) (j : Philosopher n) : Prop :=
  ∃ b, Holds (· = .s j) b sems ∧ (b = .free (.s j) ∨ ∃ q, b = .handed q (.s j))

structure TableSound (t : TableSema n) : Prop where
  sound : Sound phiInitValue t.sems
  placed : ∀ q s, t.sems.pos q = .down s → (t.place q).sem q = some s
  mutex : ∃ b, Holds (· = .mutex) b t.sems ∧ ∀ p, (t.place p).active = true ↔ b = .active p
  phases : PhasesOk t.place t.stateSema
  units : ∀ j, (Owed t.place t.stateSema j → HasUnit t.sems j) ∧ (¬ Owed t.place t.stateSema j → NoUnit t.sems j)

theorem TableSound.alone (table : TableSound t) (here : (t.place i).active = true) (other : p ≠ i) :
    (t.place p).active = false := by
  obtain ⟨b, _, carries⟩ := table.mutex
  rw [Bool.eq_false_iff]
  intro active
  exact other (Baton.active.inj (((carries p).mp active).symm.trans ((carries i).mp here)))

theorem signals_active (asks : x.signals = some j) : x.active = true := by
  cases x with
  | signalling call k todo => rfl
  | _ => cases asks

theorem placed_update {x : SemaAt n} (placed : ∀ q s, sems.pos q = .down s → (place q).sem q = some s)
    (running : sems.pos i = .running) : ∀ q s, sems.pos q = .down s → (Function.update place i x q).sem q = some s := by
  intro q s down
  have other : q ≠ i := by
    rintro rfl
    rw [running] at down
    cases down
  rw [Function.update_of_ne other]
  exact placed q s down

end Ucore.Sync
