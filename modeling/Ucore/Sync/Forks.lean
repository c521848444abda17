import Ucore.Sync.CheckSync

/- The phases around the table, when one philosopher changes its own or passes a test. -/
namespace Ucore.Sync
variable {n : Nat} {state : Philosopher n → Phase} {i j : Philosopher n} {todo todo' : Philosopher n → Prop}

theorem right_left (i : Philosopher n) : right (left i) = i := by
  apply Fin.ext
  have small := i.isLt
  change ((i.val + (n + 2) - 1) % (n + 2) + 1) % (n + 2) = i.val
  rw [Nat.mod_add_mod, show i.val + (n + 2) - 1 + 1 = i.val + (n + 2) by omega, Nat.add_mod_right, Nat.mod_eq_of_lt small]

theorem left_right (i : Philosopher n) : left (right i) = i := by
  apply Fin.ext
  have small := i.isLt
  change ((i.val + 1) % (n + 2) + (n + 2) - 1) % (n + 2) = i.val
  rw [show (i.val + 1) % (n + 2) + (n + 2) - 1 = (i.val + 1) % (n + 2) + (n + 1) by omega, Nat.mod_add_mod,
    show i.val + 1 + (n + 1) = i.val + (n + 2) by omega, Nat.add_mod_right, Nat.mod_eq_of_lt small]

theorem right_ne (i : Philosopher n) : right i ≠ i := by
  intro same
  have small := i.isLt
  have value : (i.val + 1) % (n + 2) = i.val := congrArg Fin.val same
  rcases Nat.lt_or_ge (i.val + 1) (n + 2) with less | full
  · rw [Nat.mod_eq_of_lt less] at value
    omega
  · have last : i.val + 1 = n + 2 := by omega
    rw [last, Nat.mod_self] at value
    omega

theorem left_of_right (same : right j = i) : j = left i := same ▸ (left_right j).symm
theorem right_of_left (same : left j = i) : j = right i := same ▸ (right_left j).symm

/-- No two neighbours eat. -/
def Apart (state : Philosopher n → Phase) : Prop := ∀ i, state i = .eating → state (right i) ≠ .eating

/-- Who is hungry has a neighbour that eats, or is still to be tested. -/
def Served (state : Philosopher n → Phase) (todo : Philosopher n → Prop) : Prop :=
  ∀ h, state h = .hungry → state (left h) = .eating ∨ state (right h) = .eating ∨ todo h

theorem Apart.rests (apart : Apart state) {x : Phase} (rests : x ≠ .eating) : Apart (Function.update state i x) := by
  intro j eats
  have other : j ≠ i := by
    rintro rfl
    rw [Function.update_self] at eats
    exact rests eats
  rw [Function.update_of_ne other] at eats
  by_cases here : right j = i
  · rw [here, Function.update_self]
    exact rests
  · rw [Function.update_of_ne here]
    exact apart j eats

theorem Apart.eats (apart : Apart state) (may : MayEat state j) : Apart (Function.update state j .eating) := by
  intro i eats
  by_cases here : i = j
  · subst here
    rw [Function.update_of_ne (right_ne i)]
    exact may.2.2
  · rw [Function.update_of_ne here] at eats
    have apart_right : right i ≠ j := by
      intro same
      have at_left := left_of_right same
      exact may.2.1 (at_left ▸ eats)
    rw [Function.update_of_ne apart_right]
    exact apart i eats

theorem Served.mono (served : Served state todo) (more : ∀ h, state h = .hungry → todo h → todo' h) : Served state todo' := by
  intro h hungry
  rcases served h hungry with on_left | on_right | pending
  · exact .inl on_left
  · exact .inr (.inl on_right)
  · exact .inr (.inr (more h hungry pending))

theorem Served.gets_hungry (served : Served state todo) (thinks : state i ≠ .eating) (more : ∀ h, todo h → todo' h)
    (own : todo' i) : Served (Function.update state i .hungry) todo' := by
  intro h hungry
  by_cases here : h = i
  · subst here
    exact .inr (.inr own)
  · rw [Function.update_of_ne here] at hungry
    have keeps : ∀ g, state g = .eating → Function.update state i .hungry g = .eating := by
      intro g eats
      have other : g ≠ i := by
        rintro rfl
        exact thinks eats
      rw [Function.update_of_ne other]
      exact eats
    rcases served h hungry with on_left | on_right | pending
    · exact .inl (keeps _ on_left)
    · exact .inr (.inl (keeps _ on_right))
    · exact .inr (.inr (more h pending))

/- The two neighbours of who stops eating are tested. -/
theorem Served.thinks (served : Served state todo) (more : ∀ h, todo h → todo' h) (on_left : todo' (left i))
    (on_right : todo' (right i)) : Served (Function.update state i .thinking) todo' := by
  intro h hungry
  have other : h ≠ i := by
    rintro rfl
    rw [Function.update_self] at hungry
    cases hungry
  rw [Function.update_of_ne other] at hungry
  by_cases at_left : left h = i
  · exact .inr (.inr (right_of_left at_left ▸ on_right))
  · by_cases at_right : right h = i
    · exact .inr (.inr (left_of_right at_right ▸ on_left))
    · rw [Function.update_of_ne at_left, Function.update_of_ne at_right]
      exact served.mono (fun h _ => more h) h hungry

theorem Served.eats (served : Served state todo) (more : ∀ h, h ≠ j → todo h → todo' h) :
    Served (Function.update state j .eating) todo' := by
  intro h hungry
  have other : h ≠ j := by
    rintro rfl
    rw [Function.update_self] at hungry
    cases hungry
  rw [Function.update_of_ne other] at hungry
  have keeps : ∀ g, state g = .eating → Function.update state j .eating g = .eating := by
    intro g eats
    by_cases here : g = j
    · rw [here, Function.update_self]
    · rw [Function.update_of_ne here]
      exact eats
  rcases served h hungry with on_left | on_right | pending
  · exact .inl (keeps _ on_left)
  · exact .inr (.inl (keeps _ on_right))
  · exact .inr (.inr (more h other pending))

/- Who does not pass the test has a neighbour that eats. -/
theorem Served.tested (served : Served state todo) (may : ¬ MayEat state j) (more : ∀ h, h ≠ j → todo h → todo' h) :
    Served state todo' := by
  intro h hungry
  by_cases here : h = j
  · subst here
    by_cases on_left : state (left h) = .eating
    · exact .inl on_left
    · by_cases on_right : state (right h) = .eating
      · exact .inr (.inl on_right)
      · exact absurd ⟨hungry, on_left, on_right⟩ may
  · rcases served h hungry with on_left | on_right | pending
    · exact .inl on_left
    · exact .inr (.inl on_right)
    · exact .inr (.inr (more h here pending))

/-- The philosophers at their places `A`: which phases a place allows, and whom a philosopher there still has to test. -/
structure Seated {A : Type*} (allowed : A → Phase → Prop) (tests : A → List (Philosopher n)) (place : Philosopher n → A)
    (state : Philosopher n → Phase) : Prop where
  apart : Apart state
  served : Served state fun h => ∃ p, h ∈ tests (place p)
  allows : ∀ i, allowed (place i) (state i)

section
variable {A : Type*} {allowed : A → Phase → Prop} {tests : A → List (Philosopher n)} {place : Philosopher n → A} {x : A}
  {call : PhiCall}

theorem update_tests {h : Philosopher n} (rest : h ∈ tests (place i) → h ∈ tests x) (pending : ∃ p, h ∈ tests (place p)) :
    ∃ p, h ∈ tests (Function.update place i x p) := by
  obtain ⟨p, mem⟩ := pending
  by_cases here : p = i
  · exact ⟨i, (Function.update_self i x place).symm ▸ rest (here ▸ mem)⟩
  · exact ⟨p, (Function.update_of_ne here x place).symm ▸ mem⟩

theorem allows_update (allows : ∀ i, allowed (place i) (state i)) {phase : Phase} (own : allowed x phase) :
    ∀ p, allowed (Function.update place i x p) (Function.update state i phase p) := by
  intro p
  by_cases here : p = i
  · subst here
    rw [Function.update_self, Function.update_self]
    exact own
  · rw [Function.update_of_ne here, Function.update_of_ne here]
    exact allows p

theorem Seated.goes (seated : Seated allowed tests place state) (rest : ∀ h, h ∈ tests (place i) → h ∈ tests x)
    (own : allowed x (state i)) : Seated allowed tests (Function.update place i x) state := by
  have allows := allows_update (i := i) seated.allows own
  rw [Function.update_eq_self] at allows
  exact ⟨seated.apart, seated.served.mono fun h _ => update_tests (rest h), allows⟩

/- The caller sets its phase, and is to make its tests. -/
theorem Seated.sets (seated : Seated allowed tests place state) (idle : tests (place i) = [])
    (before : call = .takeForks → state i ≠ .eating) (todo : tests x = call.tests i) (own : allowed x call.phase) :
    Seated allowed tests (Function.update place i x) (Function.update state i call.phase) := by
  have kept : ∀ h, (∃ p, h ∈ tests (place p)) → ∃ p, h ∈ tests (Function.update place i x p) := by
    refine fun h => update_tests fun mem => ?_
    rw [idle] at mem
    cases mem
  have asked : ∀ h, h ∈ call.tests i → ∃ p, h ∈ tests (Function.update place i x p) :=
    fun h mem => ⟨i, (Function.update_self i x place).symm ▸ todo ▸ mem⟩
  refine ⟨seated.apart.rests ?_, ?_, allows_update seated.allows own⟩
  · cases call <;> exact Phase.noConfusion
  · cases call with
    | takeForks => exact seated.served.gets_hungry (before rfl) kept (asked i (by simp [PhiCall.tests]))
    | putForks => exact seated.served.thinks kept (asked _ (by simp [PhiCall.tests])) (asked _ (by simp [PhiCall.tests]))

/- The test lets `j` eat. -/
theorem Seated.eats (seated : Seated allowed tests place state) (todo : tests (place i) = j :: tests x) (may : MayEat state j)
    (hungry : ∀ y, allowed y .hungry → allowed y .eating) (own : allowed x (state i)) :
    Seated allowed tests (Function.update place i x) (Function.update state j .eating) := by
  refine ⟨seated.apart.eats may, seated.served.eats fun h other => update_tests fun mem => ?_, fun p => ?_⟩
  · rw [todo] at mem
    exact (List.mem_cons.mp mem).resolve_left other
  · have allows := allows_update (i := i) seated.allows own p
    rw [Function.update_eq_self] at allows
    by_cases here : p = j
    · subst here
      rw [Function.update_self]
      rw [may.1] at allows
      exact hungry _ allows
    · rw [Function.update_of_ne here]
      exact allows

/- The test finds that `j` must not eat. -/
theorem Seated.tested (seated : Seated allowed tests place state) (todo : tests (place i) = j :: tests x)
    (may : ¬ MayEat state j) (own : allowed x (state i)) : Seated allowed tests (Function.update place i x) state := by
  have allows := allows_update (i := i) seated.allows own
  rw [Function.update_eq_self] at allows
  refine ⟨seated.apart, seated.served.tested may fun h other => update_tests fun mem => ?_, allows⟩
  rw [todo] at mem
  exact (List.mem_cons.mp mem).resolve_left other

end

end Ucore.Sync
