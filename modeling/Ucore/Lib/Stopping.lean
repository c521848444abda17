import Mathlib

/- Programs that stop in a state: `Holds m s Q E` says that `m` started in `s` ends in `Q` or
   stops in `E`, and both speak of the state that it leaves. -/
namespace Stopping
variable {ε σ α β : Type}

def check (e : ε) (p : Prop) [Decidable p] : EStateM ε σ Unit := if p then pure () else throw e

def Holds (m : EStateM ε σ α) (s : σ) (Q : α → σ → Prop) (E : ε → σ → Prop) : Prop :=
  match m s with
  | .ok a t => Q a t
  | .error e t => E e t

/-- The state that a program leaves. -/
def left : EStateM.Result ε σ α → σ
  | .ok _ t => t
  | .error _ t => t

section
variable {m : EStateM ε σ α} {f : α → EStateM ε σ β} {s t : σ} {a : α} {e : ε} {Q Q' : α → σ → Prop}
  {R : β → σ → Prop} {E E' : ε → σ → Prop}

theorem holds_pure : Holds (pure a : EStateM ε σ α) s Q E ↔ Q a s := Iff.rfl

theorem holds_stop : Holds (throw e : EStateM ε σ α) s Q E ↔ E e s := Iff.rfl

theorem run_bind (run : m s = .ok a t) : (m >>= f) s = f a t := by
  change EStateM.bind m f s = _
  unfold EStateM.bind
  rw [run]

theorem run_bind_stop (stopped : m s = .error e t) : (m >>= f) s = .error e t := by
  change EStateM.bind m f s = _
  unfold EStateM.bind
  rw [stopped]

theorem holds_bind : Holds (m >>= f) s R E ↔ Holds m s (fun a t => Holds (f a) t R E) E := by
  unfold Holds
  cases run : m s with
  | ok a t => rw [run_bind run]
  | error e t => rw [run_bind_stop run]

theorem holds_mono (holds : Holds m s Q E) (weaker : ∀ a t, Q a t → Q' a t) (milder : ∀ e t, E e t → E' e t) :
    Holds m s Q' E' := by
  unfold Holds at *
  cases run : m s with
  | ok a t =>
    rw [run] at holds
    exact weaker a t holds
  | error e t =>
    rw [run] at holds
    exact milder e t holds

theorem holds_of_run (run : m s = .ok a t) (post : Q a t) : Holds m s Q E := by
  unfold Holds
  rw [run]
  exact post

/-- The rule of sequence. -/
theorem holds_step (first : Holds m s Q E) (rest : ∀ a t, Q a t → Holds (f a) t R E) : Holds (m >>= f) s R E :=
  holds_bind.mpr (holds_mono first rest fun _ _ stopped => stopped)

theorem holds_get_bind {f : σ → EStateM ε σ β} : Holds (get >>= f) s R E ↔ Holds (f s) s R E := holds_bind

theorem holds_modify_bind {g : σ → σ} {f : PUnit → EStateM ε σ β} :
    Holds (modify g >>= f) s R E ↔ Holds (f ⟨⟩) (g s) R E := holds_bind

theorem holds_set_bind {f : PUnit → EStateM ε σ β} : Holds (set t >>= f) s R E ↔ Holds (f ⟨⟩) t R E := holds_bind

theorem holds_check {p : Prop} [Decidable p] {Q : Unit → σ → Prop} :
    Holds (check e p : EStateM ε σ Unit) s Q E ↔ if p then Q () s else E e s := by
  unfold check
  by_cases holds : p
  · rw [if_pos holds, if_pos holds, holds_pure]
  · rw [if_neg holds, if_neg holds, holds_stop]

theorem run_check_bind {p : Prop} [Decidable p] {f : Unit → EStateM ε σ β} (holds : p) :
    ((check e p : EStateM ε σ Unit) >>= f) s = f () s := by
  unfold check
  rw [if_pos holds]
  rfl

/-- What holds whether the program ends or stops. -/
theorem holds_left {P : σ → Prop} (holds : Holds m s (fun _ t => P t) fun _ t => P t) : P (left (m s)) := by
  unfold Holds at holds
  cases run : m s with
  | ok a t =>
    rw [run] at holds
    exact holds
  | error e t =>
    rw [run] at holds
    exact holds

end
end Stopping
