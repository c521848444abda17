import Mathlib

/- Programs with a state that end with a value or stop for a reason, and the rules of
   their postconditions: `Meets m s Q E` says that `m` started in `s` ends in `Q` or
   stops in `E`. -/
namespace Programs
variable {ε σ α β : Type}

abbrev Prog (ε σ α : Type) := StateT σ (Except ε) α

def stop (e : ε) : Prog ε σ α := fun _ => .error e

def check (e : ε) (p : Prop) [Decidable p] : Prog ε σ Unit := if p then pure () else stop e

def Meets (m : Prog ε σ α) (s : σ) (Q : α → σ → Prop) (E : ε → Prop) : Prop :=
  match m s with
  | .ok (a, t) => Q a t
  | .error e => E e

section
variable {m : Prog ε σ α} {f : α → Prog ε σ β} {s t : σ} {a : α} {Q Q' : α → σ → Prop}
  {R : β → σ → Prop} {E E' : ε → Prop}

theorem meets_pure : Meets (pure a : Prog ε σ α) s Q E ↔ Q a s := Iff.rfl

theorem meets_stop {e : ε} : Meets (stop e : Prog ε σ α) s Q E ↔ E e := Iff.rfl

theorem meets_bind : Meets (m >>= f) s R E ↔ Meets m s (fun a t => Meets (f a) t R E) E := by
  unfold Meets
  change (match (m s).bind fun r => f r.1 r.2 with | .ok (a, t) => R a t | .error e => E e) ↔ _
  cases m s <;> rfl

theorem meets_get {Q : σ → σ → Prop} : Meets (get : Prog ε σ σ) s Q E ↔ Q s s := Iff.rfl

theorem meets_check {e : ε} {p : Prop} [Decidable p] {Q : Unit → σ → Prop} :
    Meets (check e p : Prog ε σ Unit) s Q E ↔ if p then Q () s else E e := by
  unfold check
  by_cases holds : p
  · rw [if_pos holds, if_pos holds, meets_pure]
  · rw [if_neg holds, if_neg holds, meets_stop]

theorem meets_mono (met : Meets m s Q E) (weaker : ∀ a t, Q a t → Q' a t)
    (milder : ∀ e, E e → E' e) : Meets m s Q' E' := by
  unfold Meets at *
  cases run : m s with
  | ok r =>
    rw [run] at met
    exact weaker r.1 r.2 met
  | error e =>
    rw [run] at met
    exact milder e met

/-- The rule of sequence. -/
theorem meets_step (first : Meets m s Q E) (rest : ∀ a t, Q a t → Meets (f a) t R E) :
    Meets (m >>= f) s R E :=
  meets_bind.mpr (meets_mono first rest fun _ stopped => stopped)

theorem meets_of_run (run : m s = .ok (a, t)) (post : Q a t) : Meets m s Q E := by
  unfold Meets
  rw [run]
  exact post

theorem run_bind (run : m s = .ok (a, t)) : (m >>= f) s = f a t := by
  change (m s).bind (fun r => f r.1 r.2) = _
  rw [run]
  rfl

theorem run_bind_stop {e : ε} (stopped : m s = .error e) : (m >>= f) s = .error e := by
  change (m s).bind (fun r => f r.1 r.2) = _
  rw [stopped]
  rfl

theorem run_pure : (pure a : Prog ε σ α) s = .ok (a, s) := rfl

theorem run_get_bind {f : σ → Prog ε σ β} : ((get : Prog ε σ σ) >>= f) s = f s s := rfl

theorem run_set_bind {f : PUnit → Prog ε σ β} :
    ((set t : Prog ε σ PUnit) >>= f) s = f ⟨⟩ t := rfl

theorem run_modify_bind {g : σ → σ} {f : PUnit → Prog ε σ β} :
    ((modify g : Prog ε σ PUnit) >>= f) s = f ⟨⟩ (g s) := rfl

theorem run_check_bind {e : ε} {p : Prop} [Decidable p] {f : Unit → Prog ε σ β} (holds : p) :
    ((check e p : Prog ε σ Unit) >>= f) s = f () s := by
  unfold check
  rw [if_pos holds]
  rfl

theorem run_check_stop {e : ε} {p : Prop} [Decidable p] {f : Unit → Prog ε σ β} (fails : ¬ p) :
    ((check e p : Prog ε σ Unit) >>= f) s = .error e := by
  unfold check
  rw [if_neg fails]
  rfl

/-- A sequence that ends has ended in its parts. -/
theorem bind_ran {b : β} (ran : (m >>= f) s = .ok (b, t)) : ∃ a u, m s = .ok (a, u) ∧ f a u = .ok (b, t) := by
  cases run : m s with
  | error e =>
    rw [run_bind_stop run] at ran
    cases ran
  | ok r =>
    rw [run_bind run] at ran
    exact ⟨r.1, r.2, rfl, ran⟩

theorem check_ran {e : ε} {p : Prop} [Decidable p] {f : Unit → Prog ε σ β} {b : β}
    (ran : ((check e p : Prog ε σ Unit) >>= f) s = .ok (b, t)) : p ∧ f () s = .ok (b, t) := by
  by_cases holds : p
  · rw [run_check_bind holds] at ran
    exact ⟨holds, ran⟩
  · rw [run_check_stop holds] at ran
    cases ran

theorem run_check {e : ε} {p : Prop} [Decidable p] (holds : p) :
    (check e p : Prog ε σ Unit) s = .ok ((), s) := by
  unfold check
  rw [if_pos holds]
  rfl

end

section Keeping
variable {R : σ → σ → Prop} [IsPreorder σ R] {m : Prog ε σ α} {f : α → Prog ε σ β}

/-- Where the program ends, the states before and after are related. -/
def Keeps (R : σ → σ → Prop) (m : Prog ε σ α) : Prop :=
  ∀ s, Meets m s (fun _ t => R s t) fun _ => True

theorem keeps_pure {a : α} : Keeps R (pure a : Prog ε σ α) := fun s => refl_of R s

omit [IsPreorder σ R] in
theorem keeps_stop {e : ε} : Keeps R (stop e : Prog ε σ α) := fun _ => trivial

theorem keeps_get : Keeps R (get : Prog ε σ σ) := fun s => refl_of R s

omit [IsPreorder σ R] in
theorem keeps_modify {g : σ → σ} (related : ∀ s, R s (g s)) :
    Keeps R (modify g : Prog ε σ PUnit) := related

theorem keeps_check {e : ε} {p : Prop} [Decidable p] : Keeps R (check e p : Prog ε σ Unit) := by
  intro s
  rw [meets_check]
  split_ifs
  exact refl_of R s

theorem keeps_bind (first : Keeps R m) (rest : ∀ a, Keeps R (f a)) : Keeps R (m >>= f) := by
  intro s
  apply meets_step (first s)
  intro a t related
  exact meets_mono (rest a t) (fun _ _ more => trans_of R related more) fun _ _ => trivial

omit [IsPreorder σ R] in
/- A state read first and written back at the end. -/
theorem keeps_get_bind {f : σ → Prog ε σ β}
    (rest : ∀ s, Meets (f s) s (fun _ t => R s t) fun _ => True) : Keeps R (get >>= f) := rest

end Keeping

end Programs
