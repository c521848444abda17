import Mathlib

/- Finite runs of labelled transitions, and what every run keeps. -/
namespace Transitions
variable {S C : Type*}

inductive Run (next : S → C → S → Prop) : S → List C → S → Prop where
  | stop (s : S) : Run next s [] s
  | call {s t u : S} {c : C} {cs : List C} (first : next s c t) (rest : Run next t cs u) :
      Run next s (c :: cs) u

theorem run_invariant {next : S → C → S → Prop} {Inv : S → Prop}
    (keep : ∀ s c t, Inv s → next s c t → Inv t) {s t : S} {cs : List C}
    (run : Run next s cs t) (start : Inv s) : Inv t := by
  induction run with
  | stop s => exact start
  | call first rest ih => exact ih (keep _ _ _ start first)

theorem run_mono {next next' : S → C → S → Prop} (weaker : ∀ s c t, next s c t → next' s c t)
    {s t : S} {cs : List C} (run : Run next s cs t) : Run next' s cs t := by
  induction run with
  | stop s => exact .stop s
  | call first rest ih => exact .call (weaker _ _ _ first) ih

theorem run_append {next : S → C → S → Prop} {s t u : S} {cs ds : List C} (first : Run next s cs t)
    (rest : Run next t ds u) : Run next s (cs ++ ds) u := by
  induction first with
  | stop s => exact rest
  | call step _ ih => exact .call step (ih rest)

/- The run of a partial function, computed. -/
def replay (step : S → C → Option S) : S → List C → Option S
  | s, [] => some s
  | s, c :: cs => (step s c).bind fun t => replay step t cs

theorem replay_run {step : S → C → Option S} {s t : S} {cs : List C}
    (done : replay step s cs = some t) : Run (fun s c t => step s c = some t) s cs t := by
  induction cs generalizing s with
  | nil =>
    obtain rfl : s = t := by simpa [replay] using done
    exact .stop s
  | cons c cs ih =>
    obtain ⟨u, first, rest⟩ := Option.bind_eq_some_iff.mp done
    exact .call first (ih rest)

/- Where a program that may be run ends. -/
def ended {E A : Type*} (may : Prop) [Decidable may] (r : Except E (A × S)) : Option S :=
  if may then
    match r with
    | .ok (_, t) => some t
    | .error _ => none
  else none

theorem of_ended {E A : Type*} {may : Prop} [Decidable may] {r : Except E (A × S)} {t : S}
    (done : ended may r = some t) : may ∧ ∃ a, r = .ok (a, t) := by
  unfold ended at done
  split_ifs at done with holds
  cases r with
  | error e => cases done
  | ok b =>
    cases done
    exact ⟨holds, b.1, rfl⟩

theorem ended_run {E A : Type*} {may : S → C → Prop} [∀ s c, Decidable (may s c)]
    {program : C → S → Except E (A × S)} {s t : S} {cs : List C}
    (done : replay (fun s c => ended (may s c) (program c s)) s cs = some t) :
    Run (fun s c t => may s c ∧ ∃ a, program c s = .ok (a, t)) s cs t := by
  apply run_mono _ (replay_run done)
  intro s c t step
  exact of_ended step

end Transitions
