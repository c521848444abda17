import Ucore.Lib.Counting
import Ucore.Sync.Baton
import Ucore.Sync.Monitor

/- What a step in the monitor does to its counts and to the unit that passes through its semaphores. -/
namespace Ucore.Sync
open Transitions Process Counting
variable {C P : Type*} [DecidableEq P] {m m' : Monitor C P} {p q : P} {c d : C} {s : MonSem C}
  {x : Place C} {b : Baton (MonSem C) P} {k : Sems (MonSem C) P}

/-- The active process is the one that has the unit. -/
def Carries (b : Baton (MonSem C) P) (place : P → Place C) : Prop := ∀ p, (place p).active = true ↔ b = .active p

/-- A process in `down` is where its place says. -/
def Placed (k : Sems (MonSem C) P) (place : P → Place C) : Prop := ∀ p s, k.pos p = .down s → (place p).sem = some s

theorem carries_same {place : P → Place C} (carries : Carries b place) (same : x.active = (place p).active) :
    Carries b (Function.update place p x) := by
  intro q
  by_cases here : q = p
  · subst here
    rw [Function.update_self, same]
    exact carries q
  · rw [Function.update_of_ne here]
    exact carries q

/- The unit goes from the process to a semaphore or another process. -/
theorem carries_passed {place : P → Place C} (carries : Carries (.active p) place) (rests : x.active = false)
    (passed : ∀ q, b ≠ .active q) : Carries b (Function.update place p x) := by
  intro q
  by_cases here : q = p
  · subst here
    rw [Function.update_self, rests]
    exact ⟨fun same => (nomatch same), fun same => absurd same (passed q)⟩
  · rw [Function.update_of_ne here, carries q]
    exact ⟨fun same => absurd (Baton.active.inj same).symm here, fun same => absurd same (passed q)⟩

theorem carries_arrived {place : P → Place C} (carries : Carries b place) (passed : ∀ q, b ≠ .active q) :
    Carries (.active p) (Function.update place p .body) := by
  intro q
  by_cases here : q = p
  · subst here
    rw [Function.update_self]
    exact ⟨fun _ => rfl, fun _ => rfl⟩
  · rw [Function.update_of_ne here, carries q]
    exact ⟨fun same => absurd same (passed q), fun same => absurd (Baton.active.inj same).symm here⟩

theorem placed_move {place : P → Place C} (placed : Placed k place) (running : k.pos p = .running) :
    Placed k (Function.update place p x) := by
  intro q s down
  have other : q ≠ p := by
    rintro rfl
    rw [running] at down
    cases down
  rw [Function.update_of_ne other]
  exact placed q s down

variable [DecidableEq C]

/- It has raised `next_count`. -/
def Place.hasSignalled : Place C → Bool
  | .signalling _ => true
  | .signalled => true
  | _ => false

/- It has raised `cv.count`. -/
def Place.waitsOn (c : C) : Place C → Bool
  | .suspending d => d = c
  | .suspended d => d = c
  | _ => false

structure Counted (m : Monitor C P) : Prop where
  next : Counts Place.hasSignalled m.place m.nextCount
  waits : ∀ c, Counts (Place.waitsOn c) m.place (m.count c)

theorem counted_move (counted : Counted m) (next : x.hasSignalled = (m.place p).hasSignalled)
    (waits : ∀ c, x.waitsOn c = (m.place p).waitsOn c) : Counted (m.move p x) :=
  ⟨counted.next.kept next, fun c => (counted.waits c).kept (waits c)⟩

theorem signal_counted (counted : Counted m) (body : m.place p = .body) (c : C) : Counted (condSignal p c m) := by
  unfold condSignal
  split_ifs
  · have before : (m.place p).hasSignalled = false := by
      rw [body]
      rfl
    refine ⟨counted.next.joined before rfl, fun d => (counted.waits d).kept ?_⟩
    rw [body]
    rfl
  · exact counted

theorem wait_counted (counted : Counted m) (body : m.place p = .body) (c : C) : Counted (condWait p c m) := by
  constructor
  · refine counted.next.kept ?_
    rw [body]
    rfl
  · intro d
    have before : (m.place p).waitsOn d = false := by
      rw [body]
      rfl
    change Counts _ (Function.update m.place p (.suspending c)) (Function.update m.count c (m.count c + 1) d)
    by_cases here : d = c
    · subst here
      rw [Function.update_self]
      exact (counted.waits d).joined before (decide_eq_true rfl)
    · rw [Function.update_of_ne here]
      exact (counted.waits d).kept ((decide_eq_false (Ne.symm here)).trans before.symm)

theorem arrive_place (m : Monitor C P) (p : P) : (m.arrive p).place = Function.update m.place p .body := by
  unfold Monitor.arrive
  cases m.place p <;> rfl

theorem arrive_sems (m : Monitor C P) (p : P) : (m.arrive p).sems = m.sems := by
  unfold Monitor.arrive
  cases m.place p <;> rfl

theorem arrive_counted (counted : Counted m) (goes : (m.place p).sem = some s) : Counted (m.arrive p) := by
  unfold Monitor.arrive
  cases place : m.place p with
  | entering =>
    refine counted_move counted ?_ fun c => ?_ <;>
    · rw [place]
      rfl
  | signalled =>
    refine ⟨counted.next.left (by rw [place]; rfl) rfl, fun c => (counted.waits c).kept ?_⟩
    rw [place]
    rfl
  | suspended c =>
    refine ⟨counted.next.kept (by rw [place]; rfl), fun d => ?_⟩
    have before : (m.place p).waitsOn d = decide (c = d) := by
      rw [place]
      rfl
    change Counts _ (Function.update m.place p .body) (Function.update m.count c (m.count c - 1) d)
    by_cases here : d = c
    · subst here
      rw [Function.update_self]
      exact (counted.waits d).left (before.trans (decide_eq_true rfl)) rfl
    · rw [Function.update_of_ne here]
      exact (counted.waits d).kept (before.trans (decide_eq_false (Ne.symm here))).symm
  | outside => rw [place] at goes; cases goes
  | body => rw [place] at goes; cases goes
  | signalling c => rw [place] at goes; cases goes
  | suspending c => rw [place] at goes; cases goes

structure Monitored (m : Monitor C P) : Prop where
  sound : Sound initValue m.sems
  placed : Placed m.sems m.place
  baton : ∃ b, Holds (fun _ => True) b m.sems ∧ Carries b m.place
  counted : Counted m

end Ucore.Sync
