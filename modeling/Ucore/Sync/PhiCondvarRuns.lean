import Ucore.Sync.PhiCondvar

/- The philosophers with the monitor over all runs. -/
namespace Ucore.Sync
open Transitions Process
variable {n : Nat} {t t' : TableCondvar n} {mt : Monitor (Philosopher n) (Philosopher n)} {i j p q c : Philosopher n}
  {x : CondAt n} {call : PhiCall} {todo : List (Philosopher n)} {k : Sems (MonSem (Philosopher n)) (Philosopher n)}

theorem set_condvar (table : CondSound t) (body : t.mt.place i = .body) (inside : t.place i = .inside call) :
    CondSound { t.move i (.testing call (call.tests i)) with
      stateCondvar := Function.update t.stateCondvar i call.phase } := by
  have before := table.seated.allows i
  rw [inside] at before
  refine body_step table body (fun _ _ _ same => nomatch inside.symm.trans same)
    (table.seated.sets (by rw [inside]; rfl) (fun takes => ?_) rfl ?_) rfl (fun _ _ _ same => nomatch same) fun j eats => ?_
  · subst takes
    rw [show t.stateCondvar i = .thinking from before]
    exact Phase.noConfusion
  · cases call with
    | takeForks => exact Phase.noConfusion
    | putForks => rfl
  · by_cases here : j = i
    · subst here
      rw [Function.update_self] at eats
      cases call <;> cases eats
    · rw [Function.update_of_ne here] at eats
      exact .inl eats

theorem test_condvar (table : CondSound t) (body : t.mt.place i = .body) (testing : t.place i = .testing call (j :: todo)) :
    CondSound (phiTestCondvar i call j todo t) := by
  have before := table.seated.allows i
  rw [testing] at before
  have no_call : ∀ call k todo, t.place i ≠ .calling call k todo := fun _ _ _ same => nomatch testing.symm.trans same
  unfold phiTestCondvar
  split_ifs with may
  · refine body_step table body no_call
      (table.seated.eats (by rw [testing]; rfl) may (fun _ => cond_hungry_eats) ?_) rfl (fun _ k _ same => ?_) fun k eats => ?_
    · cases call <;> exact before
    · cases same
      exact Function.update_self ..
    · by_cases here : k = j
      · exact .inr ⟨call, todo, here ▸ rfl⟩
      · rw [Function.update_of_ne here] at eats
        exact .inl eats
  · refine body_step table body no_call (table.seated.tested (by rw [testing]; rfl) may ?_) rfl
      (fun _ _ _ same => nomatch same) fun k eats => .inl eats
    cases call <;> exact before

/- The philosopher that waits is counted on its condition variable. -/
theorem waiting_counted (table : CondSound t) (waiting : t.place j = .waiting) : 0 < t.mt.count j := by
  have fits := table.fits j
  rw [waiting] at fits
  rw [(table.monitored.counted.waits j).positive]
  refine ⟨j, ?_⟩
  rcases fits with suspending | suspended
  · rw [suspending]
    exact decide_eq_true rfl
  · rw [suspended]
    exact decide_eq_true rfl

theorem fits_both {place : Philosopher n → CondAt n} {y : Place (Philosopher n)} (fits : ∀ p, (place p).Fits p (mt.place p))
    (own : x.Fits i y) : ∀ p, (Function.update place i x p).Fits p (Function.update mt.place i y p) := by
  intro p
  by_cases here : p = i
  · subst here
    rw [Function.update_self, Function.update_self]
    exact own
  · rw [Function.update_of_ne here, Function.update_of_ne here]
    exact fits p

theorem calls_update {place : Philosopher n → CondAt n} (others : ∀ p, p ≠ i → ∀ call j todo, place p ≠ .calling call j todo)
    (own : ∀ call j todo, x ≠ .calling call j todo) :
    ∀ p call j todo, Function.update place i x p ≠ .calling call j todo := by
  intro p call j todo
  by_cases here : p = i
  · subst here
    rw [Function.update_self]
    exact own call j todo
  · rw [Function.update_of_ne here]
    exact others p here call j todo

theorem signal_condvar (table : CondSound t) (runs : t.mt.sems.pos i = .running) (body : t.mt.place i = .body)
    (calling : t.place i = .calling call j todo) : CondSound (phiSignal i call j todo t) := by
  have active : (t.mt.place i).active = true := by
    rw [body]
    rfl
  have before := table.seated.allows i
  rw [calling] at before
  have eats := table.calling i call j todo calling
  have monitored := signal_monitored table.monitored runs body j
  have no_handed : ∀ c, ¬ (condSignal i j t.mt).Handed c := by
    intro c handed
    refine not_handed table.monitored active c ?_
    unfold condSignal at handed
    split_ifs at handed
    · exact handed
    · exact handed
  -- before the step only philosopher `j` can have been let eat while it waits
  have only : ∀ k, t.stateCondvar k = .eating → t.place k = .waiting → k = j := by
    intro k fed waiting
    rcases table.owed k fed waiting with handed | ⟨p, call', todo', calls⟩ | ⟨p, signalling⟩
    · exact absurd handed (not_handed table.monitored active k)
    · by_cases here : p = i
      · subst here
        cases calls.symm.trans calling
        rfl
      · exact absurd calls ((table.alone active here).1 _ _ _)
    · by_cases here : p = i
      · subst here
        cases body.symm.trans signalling
      · exact absurd signalling ((table.alone active here).2 k)
  unfold phiSignal
  by_cases finds : 0 < t.mt.count j
  · rw [if_pos finds]
    have signals : condSignal i j t.mt = { t.mt.move i (.signalling j) with nextCount := t.mt.nextCount + 1 } := if_pos finds
    have place : (condSignal i j t.mt).place = Function.update t.mt.place i (.signalling j) := by
      rw [signals]
      rfl
    refine ⟨monitored, ?_, table.seated.goes (fun h mem => ?_) ?_, fun p call' k todo' calls => ?_, fun p c signalling => ?_,
      fun c handed => absurd handed (no_handed c), fun k fed waiting => ?_⟩
    · change ∀ p, (Function.update t.place i (.signalling call todo) p).Fits p ((condSignal i j t.mt).place p)
      rw [place]
      exact fits_both table.fits (.inr ⟨j, rfl⟩)
    · rw [show t.place i = _ from calling] at mem
      exact mem
    · cases call <;> exact before
    · exact (calls_update (x := .signalling call todo) (fun p other => (table.alone active other).1)
        (fun _ _ _ same => nomatch same) p _ _ _ calls).elim
    · change (condSignal i j t.mt).place p = _ at signalling
      rw [place] at signalling
      by_cases here : p = i
      · subst here
        rw [Function.update_self] at signalling
        cases signalling
        exact eats
      · rw [Function.update_of_ne here] at signalling
        exact absurd signalling ((table.alone active here).2 c)
    · change Function.update t.place i (.signalling call todo) k = _ at waiting
      have other : k ≠ i := by
        rintro rfl
        rw [Function.update_self] at waiting
        cases waiting
      rw [Function.update_of_ne other] at waiting
      obtain rfl := only k fed waiting
      refine .inr (.inr ⟨i, ?_⟩)
      change (condSignal i k t.mt).place i = _
      rw [place, Function.update_self]
  · rw [if_neg finds]
    have same : condSignal i j t.mt = t.mt := if_neg finds
    rw [same] at monitored no_handed ⊢
    refine ⟨monitored, fits_update table.fits (body ▸ rfl), table.seated.goes (fun h mem => ?_) ?_,
      fun p call' k todo' calls => ?_, fun p c signalling => table.signalling p c signalling,
      fun c handed => absurd handed (no_handed c), fun k fed waiting => ?_⟩
    · rw [show t.place i = _ from calling] at mem
      exact mem
    · cases call <;> exact before
    · exact (calls_update (x := .testing call todo) (fun p other => (table.alone active other).1)
        (fun _ _ _ same => nomatch same) p _ _ _ calls).elim
    · change Function.update t.place i (.testing call todo) k = _ at waiting
      have other : k ≠ i := by
        rintro rfl
        rw [Function.update_self] at waiting
        cases waiting
      rw [Function.update_of_ne other] at waiting
      obtain rfl := only k fed waiting
      exact absurd (waiting_counted table waiting) finds

/- The unit is at one semaphore only. -/
theorem unit_unique (monitored : Monitored mt) {s u : MonSem (Philosopher n)}
    (one : 0 < mt.sems.value s ∨ ∃ q, mt.sems.Granted q s) (other : 0 < mt.sems.value u ∨ ∃ q, mt.sems.Granted q u) :
    s = u := by
  obtain ⟨b, holds, _⟩ := monitored.baton
  rcases one with free | ⟨q, granted⟩
  · have at_s := holds_free holds trivial free
    rcases other with free' | ⟨r, granted'⟩
    · exact Baton.free.inj (at_s.symm.trans (holds_free holds trivial free'))
    · cases at_s.symm.trans ((holds.granted u trivial r).mp granted')
  · have at_q := (holds.granted s trivial q).mp granted
    rcases other with free' | ⟨r, granted'⟩
    · cases at_q.symm.trans (holds_free holds trivial free')
    · exact (Baton.handed.inj (at_q.symm.trans ((holds.granted u trivial r).mp granted'))).2

theorem unit_inactive (monitored : Monitored mt) {s : MonSem (Philosopher n)}
    (unit : 0 < mt.sems.value s ∨ ∃ q, mt.sems.Granted q s) (p : Philosopher n) : (mt.place p).active ≠ true := by
  intro active
  have holds := (monitored.active active).1
  rcases unit with free | ⟨q, granted⟩
  · cases holds_free holds trivial free
  · cases (holds.granted s trivial q).mp granted

/- A step after which every place is as before, and every unit of a condition variable. -/
theorem still_condvar (table : CondSound t) (monitored : Monitored mt) (place : mt.place = t.mt.place)
    (handed : ∀ c, mt.Handed c ↔ t.mt.Handed c) : CondSound (t.withMt mt) := by
  refine ⟨monitored, ?_, table.seated, table.calling, ?_, fun c given => table.handed c ((handed c).mp given), ?_⟩
  · change ∀ i, (t.place i).Fits i (mt.place i)
    rw [place]
    exact table.fits
  · change ∀ p c, mt.place p = .signalling c → _
    rw [place]
    exact table.signalling
  · intro j eats waiting
    change mt.Handed j ∨ _ ∨ ∃ p, mt.place p = .signalling j
    rw [handed j, place]
    exact table.owed j eats waiting

theorem enter_condvar (table : CondSound t) (runs : t.mt.sems.pos i = .running) (outside : t.mt.place i = .outside)
    (idle : (t.place i).todo = []) (no_call : ∀ call j todo, t.place i ≠ .calling call j todo) (not_waiting : t.place i ≠ .waiting)
    (allows : (CondAt.entering call : CondAt n).Allows (t.stateCondvar i)) :
    CondSound ((t.withMt (t.mt.move i .entering)).move i (.entering call)) := by
  obtain ⟨b, holds, carries⟩ := table.monitored.baton
  have monitored : Monitored (t.mt.move i .entering) := by
    refine ⟨table.monitored.sound, placed_move table.monitored.placed runs, ⟨b, holds, carries_same carries ?_⟩,
      counted_move table.monitored.counted ?_ fun c => ?_⟩ <;>
    · rw [outside]
      rfl
  have apart : ∀ p c, (t.mt.move i .entering).place p = .signalling c ↔ t.mt.place p = .signalling c := by
    intro p c
    change Function.update t.mt.place i .entering p = _ ↔ _
    by_cases here : p = i
    · subst here
      rw [Function.update_self, outside]
      exact ⟨fun same => (nomatch same), fun same => nomatch same⟩
    · rw [Function.update_of_ne here]
  have calls : ∀ p call' j todo, Function.update t.place i (.entering call) p = .calling call' j todo ↔
      t.place p = .calling call' j todo := by
    intro p call' j todo
    by_cases here : p = i
    · subst here
      rw [Function.update_self]
      exact ⟨fun same => (nomatch same), fun same => absurd same (no_call _ _ _)⟩
    · rw [Function.update_of_ne here]
  refine ⟨monitored, fits_both table.fits rfl, table.seated.goes (fun h mem => ?_) allows, fun p call' j todo calling => ?_,
    fun p c signalling => table.signalling p c ((apart p c).mp signalling), table.handed, fun j eats waiting => ?_⟩
  · have before : h ∈ (t.place i).todo := mem
    rw [idle] at before
    cases before
  · exact table.calling p call' j todo ((calls ..).mp calling)
  · change Function.update t.place i (.entering call) j = _ at waiting
    have other : j ≠ i := by
      rintro rfl
      rw [Function.update_self] at waiting
      cases waiting
    rw [Function.update_of_ne other] at waiting
    rcases table.owed j eats waiting with handed | ⟨p, call', todo', calling⟩ | ⟨p, signalling⟩
    · exact .inl handed
    · exact .inr (.inl ⟨p, call', todo', (calls ..).mpr calling⟩)
    · exact .inr (.inr ⟨p, (apart p j).mpr signalling⟩)

/- A philosopher goes on in its body with the unit that was at `s`. -/
theorem arrives_condvar (table : CondSound t) {s : MonSem (Philosopher n)}
    (unit : 0 < t.mt.sems.value s ∨ ∃ q, t.mt.sems.Granted q s) (monitored : Monitored mt)
    (place : mt.place = Function.update t.mt.place i .body) (fits : x.Fits i .body)
    (no_call : ∀ call j todo, x ≠ .calling call j todo) (todo : ∀ h, h ∈ (t.place i).todo → h ∈ x.todo)
    (allows : x.Allows (t.stateCondvar i)) (own : ∀ j, s = .cv j → j = i) : CondSound ((t.withMt mt).move i x) := by
  have idle := unit_inactive table.monitored unit
  have active : (mt.place i).active = true := by
    rw [place, Function.update_self]
    rfl
  have quiet : ∀ p call j todo, t.place p ≠ .calling call j todo := by
    intro p call j todo calling
    apply idle p
    rw [calling_body (table.fits p) calling]
    rfl
  have silent : ∀ p c, t.mt.place p ≠ .signalling c := by
    intro p c signalling
    apply idle p
    rw [signalling]
    rfl
  refine ⟨monitored, ?_, table.seated.goes todo allows, fun p call j todo calling => ?_, fun p c signalling => ?_,
    fun c handed => absurd handed (not_handed monitored active c), fun j eats waiting => ?_⟩
  · change ∀ p, (Function.update t.place i x p).Fits p (mt.place p)
    rw [place]
    exact fits_both table.fits fits
  · exact (calls_update (fun p _ => quiet p) no_call p _ _ _ calling).elim
  · change mt.place p = _ at signalling
    rw [place] at signalling
    by_cases here : p = i
    · subst here
      rw [Function.update_self] at signalling
      cases signalling
    · rw [Function.update_of_ne here] at signalling
      exact absurd signalling (silent p c)
  · change Function.update t.place i x j = _ at waiting
    have other : j ≠ i := by
      rintro rfl
      rw [Function.update_self] at waiting
      rw [waiting] at fits
      rcases fits with suspending | suspended
      · cases suspending
      · cases suspended
    rw [Function.update_of_ne other] at waiting
    rcases table.owed j eats waiting with handed | ⟨p, call, todo, calling⟩ | ⟨p, signalling⟩
    · exact absurd (own j (unit_unique table.monitored unit handed)) other
    · exact absurd calling (quiet p call j todo)
    · exact absurd signalling (silent p j)

theorem place_of_body {y : Place (Philosopher n)} (fits : x.Fits i y) {s : MonSem (Philosopher n)} (goes : y.sem = some s) :
    (∃ call, x = .entering call ∧ s = .mutex) ∨ (∃ call todo, x = .signalling call todo ∧ s = .next) ∨
      x = .waiting ∧ s = .cv i := by
  cases x with
  | entering call =>
    rw [show y = .entering from fits] at goes
    exact .inl ⟨call, rfl, (Option.some.inj goes).symm⟩
  | signalling call todo =>
    rcases fits with rfl | ⟨c, rfl⟩
    · exact .inr (.inl ⟨call, todo, rfl, (Option.some.inj goes).symm⟩)
    · cases goes
  | waiting =>
    rcases fits with rfl | rfl
    · cases goes
    · exact .inr (.inr ⟨rfl, (Option.some.inj goes).symm⟩)
  | _ =>
    rw [show y = _ from fits] at goes
    cases goes

/- After a `down` that has returned. -/
theorem down_arrives (table : CondSound t) {s : MonSem (Philosopher n)} (goes : (t.mt.place i).sem = some s)
    (unit : 0 < t.mt.sems.value s ∨ ∃ q, t.mt.sems.Granted q s) (monitored : Monitored mt)
    (place : mt.place = Function.update t.mt.place i .body) : CondSound ((t.withMt mt).arrive i) := by
  have body : (t.withMt mt).mt.place i = .body := by
    change mt.place i = .body
    rw [place, Function.update_self]
  have before := table.seated.allows i
  unfold TableCondvar.arrive
  rw [if_pos body]
  rcases place_of_body (table.fits i) goes with ⟨call, entering, rfl⟩ | ⟨call, todo, signalling, rfl⟩ | ⟨waiting, rfl⟩
  · rw [entering] at before
    rw [show (t.withMt mt).place i = _ from entering]
    refine arrives_condvar table unit monitored place rfl (fun _ _ _ same => nomatch same) (fun h mem => ?_) before
      fun j same => nomatch same
    rw [entering] at mem
    cases mem
  · rw [signalling] at before
    rw [show (t.withMt mt).place i = _ from signalling]
    refine arrives_condvar table unit monitored place rfl (fun _ _ _ same => nomatch same) (fun h mem => ?_) ?_
      fun j same => nomatch same
    · rw [signalling] at mem
      exact mem
    · cases call <;> exact before
  · rw [show (t.withMt mt).place i = _ from waiting]
    refine arrives_condvar table unit monitored place rfl (fun _ _ _ same => nomatch same) (fun h mem => ?_)
      (table.handed i unit) fun j same => (MonSem.cv.inj same).symm
    rw [waiting] at mem
    cases mem

theorem down_condvar (table : CondSound t) (running : t.mt.sems.pos i = .running) {s : MonSem (Philosopher n)}
    (goes : (t.mt.place i).sem = some s) :
    ∃ mt, t.mt.call (.down i s) = some mt ∧ CondSound ((t.withMt mt).arrive i) := by
  have monitored := down_monitored table.monitored running goes
  refine ⟨_, rfl, ?_⟩
  by_cases positive : 0 < t.mt.sems.value s
  · rw [if_pos positive] at monitored ⊢
    exact down_arrives table goes (.inl positive) monitored (arrive_place _ i)
  · rw [if_neg positive] at monitored ⊢
    have not_body : (t.withMt (t.mt.withSems (down i s t.mt.sems))).mt.place i ≠ .body := by
      intro body
      rw [show t.mt.place i = .body from body] at goes
      cases goes
    unfold TableCondvar.arrive
    rw [if_neg not_body]
    refine still_condvar table monitored rfl fun c => ?_
    unfold Monitor.Handed Monitor.withSems
    dsimp only
    rw [down_eq, if_neg positive]
    simp only [waiting_granted running]
    exact Iff.rfl

theorem return_condvar (table : CondSound t) {s : MonSem (Philosopher n)} (enabled : t.mt.sems.Enabled (.downReturn i s))
    (goes : (t.mt.place i).sem = some s) :
    ∃ mt, t.mt.call (.downReturn i s) = some mt ∧ CondSound ((t.withMt mt).arrive i) := by
  obtain ⟨k, run, monitored⟩ := return_monitored table.monitored enabled goes
  have call : t.mt.call (.downReturn i s) = some ((t.mt.withSems k).arrive i) := by
    unfold Monitor.call
    dsimp only
    rw [run]
    rfl
  exact ⟨_, call, down_arrives table goes (.inr ⟨i, granted_of_enabled table.monitored.sound enabled⟩) monitored
    (arrive_place _ i)⟩

/- The active philosopher gives up the monitor; at a condition variable only a philosopher that eats gets the unit. -/
theorem gives_condvar (table : CondSound t) (active : (t.mt.place i).active = true) {y : Place (Philosopher n)}
    (no_call : ∀ call k todo, t.place i ≠ .calling call k todo) {s : MonSem (Philosopher n)} (monitored : Monitored mt)
    (place : mt.place = Function.update t.mt.place i y) (unit : 0 < mt.sems.value s ∨ ∃ q, mt.sems.Granted q s)
    (fits : x.Fits i y) (new_call : ∀ call j todo, x ≠ .calling call j todo) (todo : ∀ h, h ∈ (t.place i).todo → h ∈ x.todo)
    (allows : x.Allows (t.stateCondvar i)) (quiet : ∀ c, y ≠ .signalling c) (fed : ∀ c, s = .cv c → t.stateCondvar c = .eating)
    (signalled : ∀ c, t.mt.place i = .signalling c → s = .cv c)
    (rests : x = .waiting → t.place i ≠ .waiting → t.stateCondvar i ≠ .eating) : CondSound ((t.withMt mt).move i x) := by
  have only : ∀ c, mt.Handed c → s = .cv c := fun c handed => unit_unique monitored unit handed
  refine ⟨monitored, ?_, table.seated.goes todo allows, fun p call j todo calling => ?_, fun p c signalling => ?_,
    fun c handed => fed c (only c handed), fun j eats waiting => ?_⟩
  · change ∀ p, (Function.update t.place i x p).Fits p (mt.place p)
    rw [place]
    exact fits_both table.fits fits
  · exact (calls_update (fun p other => (table.alone active other).1) new_call p _ _ _ calling).elim
  · change mt.place p = _ at signalling
    rw [place] at signalling
    by_cases here : p = i
    · subst here
      rw [Function.update_self] at signalling
      exact absurd signalling (quiet c)
    · rw [Function.update_of_ne here] at signalling
      exact absurd signalling ((table.alone active here).2 c)
  · have waited : t.place j = .waiting := by
      change Function.update t.place i x j = _ at waiting
      by_cases here : j = i
      · subst here
        rw [Function.update_self] at waiting
        by_contra before
        exact rests waiting before eats
      · rw [Function.update_of_ne here] at waiting
        exact waiting
    rcases table.owed j eats waited with handed | ⟨p, call, todo, calling⟩ | ⟨p, signalling⟩
    · exact absurd handed (not_handed table.monitored active j)
    · by_cases here : p = i
      · exact absurd (here ▸ calling) (no_call call j todo)
      · exact absurd calling ((table.alone active here).1 _ _ _)
    · by_cases here : p = i
      · have at_cv := signalled j (here ▸ signalling)
        subst at_cv
        exact .inl unit
      · exact absurd signalling ((table.alone active here).2 j)

/- The philosopher is still hungry and begins to wait. -/
theorem wait_condvar (table : CondSound t) (running : t.mt.sems.pos i = .running) (body : t.mt.place i = .body)
    (testing : t.place i = .testing .takeForks []) (hungry : t.stateCondvar i = .hungry) :
    CondSound ((t.withMt (condWait i i t.mt)).move i .waiting) := by
  have active : (t.mt.place i).active = true := by
    rw [body]
    rfl
  have before := table.seated.allows i
  rw [testing] at before
  have no_call : ∀ call k todo, t.place i ≠ .calling call k todo := fun _ _ _ same => nomatch testing.symm.trans same
  have no_signal : ∀ c, t.mt.place i ≠ .signalling c := fun _ same => nomatch body.symm.trans same
  refine ⟨wait_monitored table.monitored running body i, fits_both table.fits (.inl rfl),
    table.seated.goes (fun h mem => ?_) before, fun p call j todo calling => ?_, fun p c signalling => ?_,
    fun c handed => absurd handed (not_handed table.monitored active c), fun j eats waiting => ?_⟩
  · rw [show t.place i = _ from testing] at mem
    cases mem
  · exact (calls_update (x := .waiting) (fun p other => (table.alone active other).1)
      (fun _ _ _ same => nomatch same) p _ _ _ calling).elim
  · change Function.update t.mt.place i (.suspending i) p = _ at signalling
    by_cases here : p = i
    · subst here
      rw [Function.update_self] at signalling
      cases signalling
    · rw [Function.update_of_ne here] at signalling
      exact absurd signalling ((table.alone active here).2 c)
  · change Function.update t.place i .waiting j = _ at waiting
    have other : j ≠ i := by
      rintro rfl
      cases hungry.symm.trans eats
    rw [Function.update_of_ne other] at waiting
    exact absurd waiting (table.settled active no_call no_signal eats)

theorem tested_condvar (table : CondSound t) (running : t.mt.sems.pos i = .running) (body : t.mt.place i = .body)
    (testing : t.place i = .testing call []) : CondSound (phiWait i call t) := by
  have before := table.seated.allows i
  rw [testing] at before
  unfold phiWait
  split_ifs with waits
  · obtain ⟨rfl, hungry⟩ := waits
    exact wait_condvar table running body testing hungry
  · refine body_step table body (fun _ _ _ same => nomatch testing.symm.trans same)
      (table.seated.goes (fun h mem => ?_) ?_) rfl (fun _ _ _ same => nomatch same) fun j eats => .inl eats
    · rw [testing] at mem
      cases mem
    · cases call with
      | takeForks =>
        change t.stateCondvar i = .eating
        cases phase : t.stateCondvar i with
        | thinking => exact absurd phase before
        | hungry => exact absurd ⟨rfl, phase⟩ waits
        | eating => rfl
      | putForks => exact before

theorem signal_up_condvar (table : CondSound t) (running : t.mt.sems.pos i = .running)
    (signals : t.mt.place i = .signalling c) :
    ∃ mt, t.mt.call (.signalUp i c) = some mt ∧ CondSound (t.withMt mt) := by
  have active : (t.mt.place i).active = true := by
    rw [signals]
    rfl
  obtain ⟨k, run, monitored, unit⟩ := up_monitored (x := .signalled) table.monitored running active (.cv c) rfl
    (by rw [signals]; rfl) fun c => by rw [signals]; rfl
  have call : t.mt.call (.signalUp i c) = some ((t.mt.withSems k).move i .signalled) := by
    unfold Monitor.call
    dsimp only
    rw [run]
    rfl
  have fits := table.fits i
  rw [signals] at fits
  have no_call : ∀ call k todo, t.place i ≠ .calling call k todo := by
    intro call k todo calling
    rw [calling] at fits
    cases fits
  have not_waiting : t.place i ≠ .waiting := by
    intro waiting
    rw [waiting] at fits
    rcases fits with suspending | suspended
    · cases suspending
    · cases suspended
  have own : (t.place i).Fits i .signalled := by
    cases place : t.place i with
    | signalling call todo => exact .inl rfl
    | waiting => exact absurd place not_waiting
    | _ => rw [place] at fits; cases fits
  have given := gives_condvar (x := t.place i) table active no_call monitored rfl unit own no_call (fun _ => id)
    (table.seated.allows i) (fun _ => fun same => nomatch same)
    (fun d same => MonSem.cv.inj same ▸ table.signalling i c signals)
    (fun d same => congrArg MonSem.cv (Place.signalling.inj (signals.symm.trans same))) fun same other => absurd same other
  refine ⟨_, call, ?_⟩
  have same : (t.withMt ((t.mt.withSems k).move i .signalled)).move i (t.place i) =
      t.withMt ((t.mt.withSems k).move i .signalled) := by
    unfold TableCondvar.move TableCondvar.withMt
    dsimp only
    rw [Function.update_eq_self]
  rw [← same]
  exact given

theorem exit_sem_ne (m : Monitor (Philosopher n) (Philosopher n)) (c : Philosopher n) : m.exitSem ≠ .cv c := by
  unfold Monitor.exitSem
  split_ifs
  · exact fun same => nomatch same
  · exact fun same => nomatch same

theorem wait_up_condvar (table : CondSound t) (running : t.mt.sems.pos i = .running)
    (suspends : t.mt.place i = .suspending c) :
    ∃ mt, t.mt.call (.waitUp i c) = some mt ∧ CondSound (t.withMt mt) := by
  have active : (t.mt.place i).active = true := by
    rw [suspends]
    rfl
  obtain ⟨k, run, monitored, unit⟩ := up_monitored (x := .suspended c) table.monitored running active t.mt.exitSem rfl
    (by rw [suspends]; rfl) fun c => by rw [suspends]; rfl
  have call : t.mt.call (.waitUp i c) = some ((t.mt.withSems k).move i (.suspended c)) := by
    unfold Monitor.call
    dsimp only
    rw [run]
    rfl
  have fits := table.fits i
  rw [suspends] at fits
  have waiting : t.place i = .waiting ∧ c = i := by
    cases place : t.place i with
    | waiting =>
      rw [place] at fits
      rcases fits with same | same
      · exact ⟨rfl, Place.suspending.inj same⟩
      · cases same
    | signalling call todo =>
      rw [place] at fits
      rcases fits with same | ⟨_, same⟩
      · cases same
      · cases same
    | _ => rw [place] at fits; cases fits
  obtain ⟨waiting, rfl⟩ := waiting
  have no_call : ∀ call k todo, t.place c ≠ .calling call k todo := fun _ _ _ same => nomatch waiting.symm.trans same
  have given := gives_condvar (x := t.place c) table active no_call monitored rfl unit (by rw [waiting]; exact .inr rfl)
    no_call (fun _ => id) (table.seated.allows c) (fun _ => fun same => nomatch same)
    (fun d same => absurd same (exit_sem_ne t.mt d)) (fun d same => nomatch suspends.symm.trans same)
    fun same other => absurd same other
  refine ⟨_, call, ?_⟩
  have same : (t.withMt ((t.mt.withSems k).move c (.suspended c))).move c (t.place c) =
      t.withMt ((t.mt.withSems k).move c (.suspended c)) := by
    unfold TableCondvar.move TableCondvar.withMt
    dsimp only
    rw [Function.update_eq_self]
  rw [← same]
  exact given

theorem leave_condvar (table : CondSound t) (running : t.mt.sems.pos i = .running) (body : t.mt.place i = .body)
    (leaving : t.place i = .leaving call) :
    ∃ mt, t.mt.call (.leave i) = some mt ∧ CondSound ((t.withMt mt).move i call.condEnd) := by
  have active : (t.mt.place i).active = true := by
    rw [body]
    rfl
  obtain ⟨k, run, monitored, unit⟩ := up_monitored (x := .outside) table.monitored running active t.mt.exitSem rfl
    (by rw [body]; rfl) fun c => by rw [body]; rfl
  have left : t.mt.call (.leave i) = some ((t.mt.withSems k).move i .outside) := by
    unfold Monitor.call
    dsimp only
    rw [run]
    rfl
  have before := table.seated.allows i
  rw [leaving] at before
  refine ⟨_, left, gives_condvar table active (fun _ _ _ same => nomatch leaving.symm.trans same) monitored rfl unit ?_ ?_
    (fun h mem => ?_) ?_ (fun _ same => nomatch same) (fun d same => absurd same (exit_sem_ne t.mt d))
    (fun d same => nomatch body.symm.trans same) fun same => ?_⟩
  · cases call <;> rfl
  · cases call <;> exact fun _ _ _ same => nomatch same
  · rw [leaving] at mem
    cases mem
  · cases call <;> exact before
  · cases call <;> cases same

theorem call_condvar (table : CondSound t) {e : CondEvent n} (enabled : t.Enabled e) :
    ∃ t', t.call e = some t' ∧ CondSound t' := by
  cases e with
  | aside e =>
    obtain ⟨k, run, aside⟩ := aside_call table.monitored.sound enabled.1 enabled.2.1
    obtain ⟨b, holds, carries⟩ := table.monitored.baton
    have monitored : Monitored (t.mt.withSems k) :=
      ⟨aside_sound aside table.monitored.sound, fun p s down => table.monitored.placed p s ((aside.down p s).mp down),
        ⟨b, aside_keeps aside holds, carries⟩, table.monitored.counted.next, table.monitored.counted.waits⟩
    refine ⟨t.withMt (t.mt.withSems k), ?_, still_condvar table monitored rfl fun c => ?_⟩
    · unfold TableCondvar.call Monitor.call
      dsimp only
      rw [run]
      rfl
    · unfold Monitor.Handed Monitor.withSems
      simp only [aside.value, aside.granted]
  | take i =>
    obtain ⟨⟨runs, outside⟩, place⟩ := enabled
    have allows := table.seated.allows i
    rw [place] at allows
    exact ⟨_, rfl, enter_condvar table runs.1 outside (by rw [place]; rfl) (fun _ _ _ same => nomatch place.symm.trans same)
      (fun same => nomatch place.symm.trans same) allows⟩
  | put i =>
    obtain ⟨⟨runs, outside⟩, place⟩ := enabled
    have allows := table.seated.allows i
    rw [place] at allows
    exact ⟨_, rfl, enter_condvar table runs.1 outside (by rw [place]; rfl) (fun _ _ _ same => nomatch place.symm.trans same)
      (fun same => nomatch place.symm.trans same) allows⟩
  | down i s =>
    obtain ⟨mt, call, after⟩ := down_condvar table enabled.1.1 enabled.2
    exact ⟨_, by unfold TableCondvar.call; dsimp only; rw [call]; rfl, after⟩
  | downReturn i s =>
    obtain ⟨mt, call, after⟩ := return_condvar table enabled.1 enabled.2
    exact ⟨_, by unfold TableCondvar.call; dsimp only; rw [call]; rfl, after⟩
  | setState i call =>
    have body := table.fits i
    rw [enabled.2] at body
    exact ⟨_, rfl, set_condvar table body enabled.2⟩
  | test i call j todo =>
    have body := table.fits i
    rw [enabled.2] at body
    exact ⟨_, rfl, test_condvar table body enabled.2⟩
  | signal i call j todo => exact ⟨_, rfl, signal_condvar table enabled.1.1.1 enabled.1.2 enabled.2⟩
  | signalUp i c =>
    obtain ⟨mt, call, after⟩ := signal_up_condvar table enabled.1.1 enabled.2
    exact ⟨_, by unfold TableCondvar.call; dsimp only; rw [call]; rfl, after⟩
  | tested i call =>
    have body := table.fits i
    rw [enabled.2] at body
    exact ⟨_, rfl, tested_condvar table enabled.1.1 body enabled.2⟩
  | waitUp i c =>
    obtain ⟨mt, call, after⟩ := wait_up_condvar table enabled.1.1 enabled.2
    exact ⟨_, by unfold TableCondvar.call; dsimp only; rw [call]; rfl, after⟩
  | leave i call =>
    obtain ⟨mt, run, after⟩ := leave_condvar table enabled.1.1.1 enabled.1.2 enabled.2
    exact ⟨_, by unfold TableCondvar.call; dsimp only; rw [run]; rfl, after⟩

theorem step_condvar {e : CondEvent n} (table : CondSound t) (step : CondStep t e t') : CondSound t' := by
  obtain ⟨next, call, after⟩ := call_condvar table step.1
  obtain rfl := Option.some.inj (call.symm.trans step.2)
  exact after

theorem init_condvar (init : CondInit t) : CondSound t := by
  have monitored := init_monitored init.mt
  refine ⟨monitored, fun i => ?_, ⟨fun i eats => ?_, fun h hungry => ?_, fun i => ?_⟩, fun p call j todo calling => ?_,
    fun p c signalling => ?_, fun c handed => ?_, fun j eats => ?_⟩
  · rw [init.place i, init.mt.place i]
    rfl
  · rw [init.state i] at eats
    cases eats
  · rw [init.state h] at hungry
    cases hungry
  · rw [init.place i]
    exact init.state i
  · rw [init.place p] at calling
    cases calling
  · rw [init.mt.place p] at signalling
    cases signalling
  · have at_mutex : 0 < t.mt.sems.value .mutex := by
      rw [init.mt.sems.value]
      exact Int.one_pos
    cases unit_unique monitored (.inl at_mutex) handed
  · rw [init.state j] at eats
    cases eats

end Ucore.Sync
