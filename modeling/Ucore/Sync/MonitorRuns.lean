import Ucore.Sync.MonitorSteps

/- The monitor over all runs. -/
namespace Ucore.Sync
open Transitions Process Counting
variable {C P : Type*} [DecidableEq C] [DecidableEq P] {m m' : Monitor C P} {p q : P} {c d : C} {s : MonSem C}
  {x : Place C} {b : Baton (MonSem C) P}

theorem init_monitored (init : MonInit m) : Monitored m := by
  have outside : ∀ p, m.place p = .outside := init.place
  constructor
  case sound => exact init_sound init.sems
  case placed =>
    intro p s down
    rw [init.sems.pos p] at down
    cases down
  case baton =>
    refine ⟨.free .mutex, ⟨fun s _ => ?_, fun s _ p => ?_⟩, fun p => ?_⟩
    · rw [init.sems.value s]
      cases s with
      | mutex => rw [if_pos rfl]; rfl
      | next => rw [if_neg fun same => nomatch same]; rfl
      | cv c => rw [if_neg fun same => nomatch same]; rfl
    · unfold Sems.Granted
      rw [init.sems.pos p]
      exact ⟨fun granted => (nomatch granted.1), fun same => nomatch same⟩
    · rw [outside p]
      exact ⟨fun same => (nomatch same), fun same => nomatch same⟩
  case counted =>
    constructor
    · rw [init.nextCount]
      exact none_counts fun q => by rw [outside q]; rfl
    · intro c
      rw [init.count c]
      exact none_counts fun q => by rw [outside q]; rfl

theorem Monitored.active (monitored : Monitored m) (active : (m.place p).active = true) :
    Holds (fun _ => True) (.active p) m.sems ∧ Carries (.active p) m.place := by
  obtain ⟨b, holds, carries⟩ := monitored.baton
  have here := (carries p).mp active
  subst here
  exact ⟨holds, carries⟩

/- An `up` of the active process; its place then is `x`. -/
theorem up_monitored (monitored : Monitored m) (running : m.sems.pos p = .running)
    (active : (m.place p).active = true) (s : MonSem C) (rests : x.active = false)
    (next : x.hasSignalled = (m.place p).hasSignalled) (waits : ∀ c, x.waitsOn c = (m.place p).waitsOn c) :
    ∃ k, up s m.sems = some k ∧ Monitored ((m.withSems k).move p x) ∧
      (0 < k.value s ∨ ∃ q, k.Granted q s) := by
  obtain ⟨holds, carries⟩ := monitored.active active
  obtain ⟨k, call, sound, outcome⟩ := up_sound (s := s) monitored.sound (holds_fits holds trivial)
  have pos : k.pos = m.sems.pos := by
    rcases outcome with raised | ⟨q, released⟩
    · exact raised.pos
    · exact released.pos
  have placed : Placed k (Function.update m.place p x) := by
    apply placed_move _ (pos ▸ running)
    unfold Placed
    rw [pos]
    exact monitored.placed
  have counted := counted_move monitored.counted next waits
  refine ⟨k, call, ⟨sound, placed, ?_, counted.next, counted.waits⟩, ?_⟩
  · rcases outcome with raised | ⟨q, released⟩
    · exact ⟨_, raised_passes raised holds, carries_passed carries rests fun _ same => nomatch same⟩
    · exact ⟨_, released_passes monitored.sound released holds, carries_passed carries rests fun _ same => nomatch same⟩
  · rcases outcome with raised | ⟨q, released⟩
    · have value := (raised_passes raised holds).value s trivial
      rw [if_pos rfl] at value
      exact .inl (value ▸ Int.one_pos)
    · exact .inr ⟨q, ((released_passes monitored.sound released holds).granted s trivial q).mpr rfl⟩

/- The process returns from its `down` with the unit. -/
theorem arrive_monitored {k : Sems (MonSem C) P} (monitored : Monitored m) (goes : (m.place p).sem = some s)
    (sound : Sound initValue k) (placed : Placed k m.place) (running : k.pos p = .running)
    (holds : Holds (fun _ => True) (.active p) k) (carries : Carries b m.place) (passed : ∀ q, b ≠ .active q) :
    Monitored ((m.withSems k).arrive p) := by
  have counted : Counted ((m.withSems k).arrive p) :=
    arrive_counted (m := m.withSems k) ⟨monitored.counted.next, monitored.counted.waits⟩ goes
  have sems : ((m.withSems k).arrive p).sems = k := arrive_sems _ p
  have place : ((m.withSems k).arrive p).place = Function.update m.place p .body := arrive_place _ p
  constructor
  case sound => exact sems.symm ▸ sound
  case placed =>
    rw [sems, place]
    exact placed_move placed running
  case baton =>
    rw [sems, place]
    exact ⟨.active p, holds, carries_arrived carries passed⟩
  case counted => exact counted

theorem down_monitored (monitored : Monitored m) (running : m.sems.pos p = .running)
    (goes : (m.place p).sem = some s) :
    Monitored (if 0 < m.sems.value s then (m.withSems (down p s m.sems)).arrive p
      else m.withSems (down p s m.sems)) := by
  obtain ⟨b, holds, carries⟩ := monitored.baton
  rw [down_eq]
  split_ifs with positive
  · have free := holds_free holds trivial positive
    subst free
    exact arrive_monitored monitored goes (taken_sound monitored.sound positive) monitored.placed running
      (taken_passes p trivial positive holds) carries fun _ same => nomatch same
  · refine ⟨waiting_sound monitored.sound running positive, fun q t down => ?_,
      ⟨b, waiting_keeps running holds, carries⟩, monitored.counted.next, monitored.counted.waits⟩
    change Function.update m.sems.pos p (.down s) q = .down t at down
    by_cases here : q = p
    · subst here
      rw [Function.update_self] at down
      exact goes.trans (congrArg some (Pos.down.inj down))
    · rw [Function.update_of_ne here] at down
      exact monitored.placed q t down

theorem return_monitored (monitored : Monitored m) (enabled : m.sems.Enabled (.downReturn p s))
    (goes : (m.place p).sem = some s) :
    ∃ k, downReturn p s m.sems = some k ∧ Monitored ((m.withSems k).arrive p) := by
  have granted := granted_of_enabled monitored.sound enabled
  obtain ⟨b, holds, carries⟩ := monitored.baton
  have handed := (holds.granted s trivial p).mp granted
  subst handed
  obtain ⟨k, call, returned, ups, downs, clock, since⟩ := down_returns monitored.sound granted
  refine ⟨k, call, arrive_monitored monitored goes (returned_sound granted returned ups downs clock since monitored.sound)
    (fun q t down => ?_) ?_ (returned_passes trivial granted returned holds) carries fun _ same => nomatch same⟩
  · rw [returned.pos] at down
    by_cases here : q = p
    · subst here
      rw [Function.update_self] at down
      cases down
    · rw [Function.update_of_ne here] at down
      exact monitored.placed q t down
  · rw [returned.pos, Function.update_self]

theorem signal_monitored (monitored : Monitored m) (running : m.sems.pos p = .running) (body : m.place p = .body) (c : C) :
    Monitored (condSignal p c m) := by
  have counted := signal_counted monitored.counted body c
  obtain ⟨holds, carries⟩ := monitored.active (p := p) (by rw [body]; rfl)
  unfold condSignal at counted ⊢
  split_ifs with finds
  · rw [if_pos finds] at counted
    exact ⟨monitored.sound, placed_move monitored.placed running, ⟨_, holds, carries_same carries (by rw [body]; rfl)⟩,
      counted⟩
  · exact monitored

theorem wait_monitored (monitored : Monitored m) (running : m.sems.pos p = .running) (body : m.place p = .body) (c : C) :
    Monitored (condWait p c m) := by
  obtain ⟨holds, carries⟩ := monitored.active (p := p) (by rw [body]; rfl)
  exact ⟨monitored.sound, placed_move monitored.placed running, ⟨_, holds, carries_same carries (by rw [body]; rfl)⟩,
    wait_counted monitored.counted body c⟩

theorem aside_monitored (monitored : Monitored m) {e : SemEvent (MonSem C) P} (elsewhere : e.Aside)
    (enabled : m.sems.Enabled e) : ∃ k, m.sems.call e = some k ∧ Monitored (m.withSems k) := by
  obtain ⟨k, call, aside⟩ := aside_call monitored.sound elsewhere enabled
  obtain ⟨b, holds, carries⟩ := monitored.baton
  refine ⟨k, call, aside_sound aside monitored.sound, fun p s down => ?_, ⟨b, aside_keeps aside holds, carries⟩,
    monitored.counted.next, monitored.counted.waits⟩
  exact monitored.placed p s ((aside.down p s).mp down)

theorem call_monitored (monitored : Monitored m) {e : MonEvent C P} (enabled : m.Enabled e) :
    ∃ m', m.call e = some m' ∧ Monitored m' := by
  cases e with
  | aside e =>
    obtain ⟨k, call, after⟩ := aside_monitored monitored enabled.1 enabled.2.1
    refine ⟨_, ?_, after⟩
    unfold Monitor.call
    dsimp only
    rw [call]
    rfl
  | enter p =>
    obtain ⟨runs, place⟩ := enabled
    obtain ⟨b, holds, carries⟩ := monitored.baton
    refine ⟨_, rfl, monitored.sound, placed_move monitored.placed runs.1, ⟨b, holds, carries_same carries ?_⟩,
      counted_move monitored.counted ?_ fun c => ?_⟩ <;>
    · rw [place]
      rfl
  | down p s => exact ⟨_, rfl, down_monitored monitored enabled.1.1 enabled.2⟩
  | downReturn p s =>
    obtain ⟨k, call, after⟩ := return_monitored monitored enabled.1 enabled.2
    refine ⟨_, ?_, after⟩
    unfold Monitor.call
    dsimp only
    rw [call]
    rfl
  | signal p c => exact ⟨_, rfl, signal_monitored monitored enabled.1.1 enabled.2 c⟩
  | wait p c => exact ⟨_, rfl, wait_monitored monitored enabled.1.1 enabled.2 c⟩
  | signalUp p c =>
    obtain ⟨runs, place⟩ := enabled
    obtain ⟨k, call, after, _⟩ := up_monitored (x := .signalled) monitored runs.1 (by rw [place]; rfl) (.cv c) rfl
      (by rw [place]; rfl) fun c => by rw [place]; rfl
    refine ⟨_, ?_, after⟩
    unfold Monitor.call
    dsimp only
    rw [call]
    rfl
  | waitUp p c =>
    obtain ⟨runs, place⟩ := enabled
    obtain ⟨k, call, after, _⟩ := up_monitored (x := .suspended c) monitored runs.1 (by rw [place]; rfl) m.exitSem rfl
      (by rw [place]; rfl) fun c => by rw [place]; rfl
    refine ⟨_, ?_, after⟩
    unfold Monitor.call
    dsimp only
    rw [call]
    rfl
  | leave p =>
    obtain ⟨runs, place⟩ := enabled
    obtain ⟨k, call, after, _⟩ := up_monitored (x := .outside) monitored runs.1 (by rw [place]; rfl) m.exitSem rfl
      (by rw [place]; rfl) fun c => by rw [place]; rfl
    refine ⟨_, ?_, after⟩
    unfold Monitor.call
    dsimp only
    rw [call]
    rfl

theorem step_monitored {e : MonEvent C P} (monitored : Monitored m) (step : MonStep m e m') : Monitored m' := by
  obtain ⟨next, call, after⟩ := call_monitored monitored step.1
  obtain rfl := Option.some.inj (call.symm.trans step.2)
  exact after

theorem one_active (monitored : Monitored m) (first : (m.place p).active = true) (second : (m.place q).active = true) :
    p = q :=
  (Baton.active.inj (((monitored.active first).2 q).mp second)).symm ▸ rfl

/- While a process is in its body, nobody else is between the count and the `up`. -/
theorem body_counts (monitored : Monitored m) (body : m.place q = .body) :
    m.nextCount = {p | m.place p = .signalled}.ncard ∧ ∀ c, m.count c = {p | m.place p = .suspended c}.ncard := by
  have inside : (m.place q).active = true := by
    rw [body]
    rfl
  have alone : ∀ p, m.place p ≠ .body → (m.place p).active = false := by
    intro p elsewhere
    rw [Bool.eq_false_iff]
    intro active
    exact elsewhere (one_active monitored inside active ▸ body)
  constructor
  · rw [monitored.counted.next.card]
    congr 2
    ext p
    cases place : m.place p with
    | signalling c =>
      have quiet := alone p (by rw [place]; exact fun same => nomatch same)
      rw [place] at quiet
      cases quiet
    | _ => simp [place, Place.hasSignalled]
  · intro c
    rw [(monitored.counted.waits c).card]
    congr 2
    ext p
    cases place : m.place p with
    | suspending c =>
      have quiet := alone p (by rw [place]; exact fun same => nomatch same)
      rw [place] at quiet
      cases quiet
    | _ => simp [place, Place.waitsOn]

/-- The unit lies in the semaphore of `c`, or was handed over there. -/
def Monitor.Handed (m : Monitor C P) (c : C) : Prop := 0 < m.sems.value (.cv c) ∨ ∃ q, m.sems.Granted q (.cv c)

theorem handed_baton (holds : Holds (fun _ => True) b m.sems) (handed : m.Handed c) :
    b = .free (.cv c) ∨ ∃ q, b = .handed q (.cv c) := by
  rcases handed with positive | ⟨q, granted⟩
  · exact .inl (holds_free holds trivial positive)
  · exact .inr ⟨q, (holds.granted _ trivial q).mp granted⟩

omit [DecidableEq C] in
theorem suspended_of_sem (goes : x.sem = some (.cv c)) : x = .suspended c := by
  cases x with
  | suspended d => exact congrArg Place.suspended (MonSem.cv.inj (Option.some.inj goes))
  | _ => cases goes

/-- What a step does while the unit is at the condition variable `c`: nobody becomes active, or one that waited there. -/
inductive HandedOver (c : C) (m m' : Monitor C P) : Prop where
  | quiet (handed : m'.Handed c) (same : ∀ q, m'.place q = .suspended c ↔ m.place q = .suspended c)
      (nobody : ∀ q, (m'.place q).active = false)
  | arrives (p : P) (waited : m.place p = .suspended c) (place : m'.place = Function.update m.place p .body)

theorem handed_step {e : MonEvent C P} (monitored : Monitored m) (handed : m.Handed c) (step : MonStep m e m') :
    HandedOver c m m' := by
  obtain ⟨b, holds, carries⟩ := monitored.baton
  have at_cv := handed_baton holds handed
  have nobody : ∀ q, (m.place q).active = false := by
    intro q
    rw [Bool.eq_false_iff]
    intro active
    have here := (carries q).mp active
    rcases at_cv with free | ⟨r, to_waiter⟩
    · rw [free] at here
      cases here
    · rw [to_waiter] at here
      cases here
  have idle : ∀ {p : P} {x : Place C}, m.place p = x → x.active = true → False := by
    intro p x place active
    have rests := nobody p
    rw [place, active] at rests
    cases rests
  obtain ⟨enabled, call⟩ := step
  cases e with
  | aside e =>
    obtain ⟨k, run, aside⟩ := aside_call monitored.sound enabled.1 enabled.2.1
    unfold Monitor.call at call
    dsimp only at call
    rw [run] at call
    cases call
    refine .quiet ?_ (fun _ => Iff.rfl) nobody
    rcases handed with positive | ⟨q, granted⟩
    · exact .inl (aside.value.symm ▸ positive)
    · exact .inr ⟨q, (aside.granted q _).mpr granted⟩
  | enter p =>
    cases call
    refine .quiet handed (fun q => ?_) (fun q => ?_) <;>
      by_cases here : q = p
    · subst here
      have place : (m.move q .entering).place q = .entering := Function.update_self ..
      rw [place, enabled.2]
      exact ⟨fun same => (nomatch same), fun same => nomatch same⟩
    · have place : (m.move p .entering).place q = m.place q := Function.update_of_ne here ..
      rw [place]
    · subst here
      have place : (m.move q .entering).place q = .entering := Function.update_self ..
      rw [place]
      rfl
    · have place : (m.move p .entering).place q = m.place q := Function.update_of_ne here ..
      rw [place]
      exact nobody q
  | down p s =>
    obtain ⟨⟨running, _⟩, goes⟩ := enabled
    cases call
    by_cases positive : 0 < m.sems.value s
    · rw [if_pos positive]
      have free := holds_free holds trivial positive
      have here : s = .cv c := by
        rcases at_cv with at_sem | ⟨q, to_waiter⟩
        · exact Baton.free.inj (free.symm.trans at_sem)
        · cases free.symm.trans to_waiter
      subst here
      exact .arrives p (suspended_of_sem goes) (arrive_place _ p)
    · rw [if_neg positive, down_eq, if_neg positive]
      refine .quiet ?_ (fun _ => Iff.rfl) nobody
      rcases handed with stays | ⟨q, granted⟩
      · exact .inl stays
      · exact .inr ⟨q, (waiting_granted running q _).mpr granted⟩
  | downReturn p s =>
    obtain ⟨ready, goes⟩ := enabled
    have granted := granted_of_enabled monitored.sound ready
    have here : s = .cv c := by
      have to_process := (holds.granted s trivial p).mp granted
      rcases at_cv with at_sem | ⟨q, to_waiter⟩
      · cases to_process.symm.trans at_sem
      · exact (Baton.handed.inj (to_process.symm.trans to_waiter)).2
    subst here
    obtain ⟨k, run, _⟩ := down_returns monitored.sound granted
    unfold Monitor.call at call
    dsimp only at call
    rw [run] at call
    cases call
    exact .arrives p (suspended_of_sem goes) (arrive_place _ p)
  | signal p c => exact (idle enabled.2 rfl).elim
  | wait p c => exact (idle enabled.2 rfl).elim
  | signalUp p c => exact (idle enabled.2 rfl).elim
  | waitUp p c => exact (idle enabled.2 rfl).elim
  | leave p => exact (idle enabled.2 rfl).elim

/-- The unit is on its way to the waiters of `c`: `p` is about to hand it over, or has done so. -/
inductive Monitor.Signals (m : Monitor C P) (p : P) (c : C) : Prop where
  | counted (place : m.place p = .signalling c)
  | handed (handed : m.Handed c)

theorem signal_up_hands (monitored : Monitored m) (step : MonStep m (.signalUp p c) m') :
    m'.Handed c ∧ m'.place = Function.update m.place p .signalled := by
  obtain ⟨⟨runs, place⟩, call⟩ := step
  obtain ⟨k, run, _, handed⟩ := up_monitored (x := .signalled) monitored runs.1 (by rw [place]; rfl) (.cv c) rfl
    (by rw [place]; rfl) fun c => by rw [place]; rfl
  unfold Monitor.call at call
  dsimp only at call
  rw [run] at call
  cases call
  exact ⟨handed, rfl⟩

/- While a process is between the count and the `up`, the others come to their `down`. -/
theorem signalling_step {e : MonEvent C P} (monitored : Monitored m) (place : m.place p = .signalling c)
    (step : MonStep m e m') : e = .signalUp p c ∨ m'.place = m.place ∨
      ∃ q, m.place q = .outside ∧ m'.place = Function.update m.place q .entering := by
  have active : (m.place p).active = true := by
    rw [place]
    rfl
  have alone : ∀ {q : P} {x : Place C}, m.place q = x → x.active = true → x = .signalling c := by
    intro q x there also
    have same := one_active monitored (p := p) (q := q) active (by rw [there]; exact also)
    rw [← there, ← same, place]
  obtain ⟨holds, _⟩ := monitored.active active
  obtain ⟨enabled, call⟩ := step
  cases e with
  | aside e =>
    obtain ⟨k, run, _⟩ := aside_call monitored.sound enabled.1 enabled.2.1
    unfold Monitor.call at call
    dsimp only at call
    rw [run] at call
    cases call
    exact .inr (.inl rfl)
  | enter q =>
    cases call
    exact .inr (.inr ⟨q, enabled.2, rfl⟩)
  | down q s =>
    cases call
    by_cases positive : 0 < m.sems.value s
    · cases holds_free holds trivial positive
    · rw [if_neg positive]
      exact .inr (.inl rfl)
  | downReturn q s =>
    have granted := granted_of_enabled monitored.sound enabled.1
    cases (holds.granted s trivial q).mp granted
  | signal q d => cases alone enabled.2 rfl
  | wait q d => cases alone enabled.2 rfl
  | waitUp q d => cases alone enabled.2 rfl
  | leave q => cases alone enabled.2 rfl
  | signalUp q d =>
    obtain rfl := Place.signalling.inj (alone enabled.2 rfl)
    have same := one_active monitored (p := p) (q := q) active (by rw [enabled.2]; rfl)
    exact .inl (same ▸ rfl)

/- What a step does while the unit is on its way to the waiters of `c`. -/
theorem signals_step {e : MonEvent C P} (monitored : Monitored m) (signals : m.Signals p c) (step : MonStep m e m') :
    (m'.Signals p c ∧ (∀ q, m'.place q = .suspended c ↔ m.place q = .suspended c) ∧
      ∀ q, (m'.place q).active = true → (m.place q).active = true) ∨
    ∃ q, m.place q = .suspended c ∧ m'.place = Function.update m.place q .body := by
  have moved : ∀ {q : P} {x y : Place C}, m.place q = x → m'.place = Function.update m.place q y →
      (∀ d, x ≠ .suspended d) → (∀ d, y ≠ .suspended d) → y.active = false →
      (∀ r, m'.place r = .suspended c ↔ m.place r = .suspended c) ∧
        ∀ r, (m'.place r).active = true → (m.place r).active = true := by
    intro q x y before after out rest quiet
    refine ⟨fun r => ?_, fun r active => ?_⟩
    · rw [after]
      by_cases here : r = q
      · rw [here, Function.update_self, before]
        exact iff_of_false (rest c) (out c)
      · rw [Function.update_of_ne here]
    · rw [after] at active
      by_cases here : r = q
      · rw [here, Function.update_self, quiet] at active
        cases active
      · rwa [Function.update_of_ne here] at active
  cases signals with
  | counted place =>
    rcases signalling_step monitored place step with rfl | same | ⟨q, outside, entered⟩
    · obtain ⟨handed, after⟩ := signal_up_hands monitored step
      exact .inl ⟨.handed handed, moved place after nofun nofun rfl⟩
    · rw [same]
      exact .inl ⟨.counted (same ▸ place), fun _ => Iff.rfl, fun _ active => active⟩
    · refine .inl ⟨.counted ?_, moved outside entered nofun nofun rfl⟩
      have other : p ≠ q := by
        rintro rfl
        cases place.symm.trans outside
      rw [entered, Function.update_of_ne other, place]
  | handed handed =>
    rcases handed_step monitored handed step with ⟨stays, same, nobody⟩ | ⟨r, waited, arrived⟩
    · refine .inl ⟨.handed stays, same, fun q active => ?_⟩
      rw [nobody q] at active
      cases active
    · exact .inr ⟨r, waited, arrived⟩

/-- Nobody becomes active in the step. -/
def CalmStep (m : Monitor C P) (e : MonEvent C P) (m' : Monitor C P) : Prop :=
  MonStep m e m' ∧ ∀ q, (m'.place q).active = true → (m.place q).active = true

theorem calm_run {es : List (MonEvent C P)} (run : Run CalmStep m es m') (monitored : Monitored m)
    (signals : m.Signals p c) :
    Monitored m' ∧ m'.Signals p c ∧ ∀ q, m'.place q = .suspended c ↔ m.place q = .suspended c := by
  induction run with
  | stop m => exact ⟨monitored, signals, fun _ => Iff.rfl⟩
  | call first rest ih =>
    rcases signals_step monitored signals first.1 with ⟨still, same, _⟩ | ⟨q, waited, arrived⟩
    · obtain ⟨after, later, as_before⟩ := ih (step_monitored monitored first.1) still
      exact ⟨after, later, fun q => (as_before q).trans (same q)⟩
    · have before := first.2 q
      rw [arrived, Function.update_self, waited] at before
      cases before rfl

/- The first to become active waited on the condition variable. -/
theorem signal_hands_over {m₁ m₂ : Monitor C P} (monitored : Monitored m) (signals : m.Signals p c)
    {es : List (MonEvent C P)} (calm : Run CalmStep m es m₁) {e : MonEvent C P} (last : MonStep m₁ e m₂)
    (rests : (m₁.place q).active = false) (active : (m₂.place q).active = true) : m.place q = .suspended c := by
  obtain ⟨monitored₁, signals₁, same⟩ := calm_run calm monitored signals
  rcases signals_step monitored₁ signals₁ last with ⟨_, _, nobody⟩ | ⟨r, waited, arrived⟩
  · cases rests.symm.trans (nobody q active)
  · by_cases here : q = r
    · exact (same q).mp (here ▸ waited)
    · rw [arrived, Function.update_of_ne here] at active
      cases rests.symm.trans active

/- `cond_signal` finds a waiter exactly when there is one. -/
theorem signal_finds (monitored : Monitored m) (body : m.place p = .body) (c : C) :
    0 < m.count c ↔ ∃ q, m.place q = .suspended c := by
  rw [(monitored.counted.waits c).positive]
  constructor
  · rintro ⟨q, waits⟩
    refine ⟨q, ?_⟩
    cases place : m.place q with
    | suspended d =>
      rw [place] at waits
      exact congrArg Place.suspended (of_decide_eq_true waits)
    | suspending d =>
      have same := one_active monitored (p := p) (q := q) (by rw [body]; rfl) (by rw [place]; rfl)
      rw [← same, body] at place
      cases place
    | _ =>
      rw [place] at waits
      cases waits
  · rintro ⟨q, place⟩
    refine ⟨q, ?_⟩
    rw [place]
    exact decide_eq_true rfl

/- The call of `cond_signal`: with a waiter it is counted, and the unit goes to the waiters; with none nothing happens. -/
theorem signal_begins (monitored : Monitored m) (step : MonStep m (.signal p c) m') :
    ((∃ q, m.place q = .suspended c) → m'.place = Function.update m.place p (.signalling c) ∧
      m'.nextCount = m.nextCount + 1) ∧ ((∀ q, m.place q ≠ .suspended c) → m' = m) := by
  have finds := signal_finds monitored step.1.2 c
  have after := Option.some.inj step.2
  unfold condSignal at after
  constructor
  · intro waiter
    rw [if_pos (finds.mpr waiter)] at after
    subst after
    exact ⟨rfl, rfl⟩
  · intro nobody
    rw [if_neg fun positive => (finds.mp positive).elim nobody] at after
    exact after.symm

/-- At most one process is active; while one is in its body, `next_count` counts those that signalled and each `cv.count`
those that wait, and a condition variable with a waiter is signalled. `cond_signal` with a waiter raises `next_count`, and
the first to become active after it waited there; with none it does nothing. No assertion fails. -/
theorem monitor_is_correct {m₀ : Monitor C P} (init : MonInit m₀) {es : List (MonEvent C P)} (run : Run MonStep m₀ es m) :
    (∀ p q, (m.place p).active = true → (m.place q).active = true → p = q) ∧
    (∀ q, m.place q = .body → m.nextCount = {p | m.place p = .signalled}.ncard ∧
      ∀ c, m.count c = {p | m.place p = .suspended c}.ncard ∧ (0 < m.count c ↔ ∃ p, m.place p = .suspended c)) ∧
    (∀ p c m₁, MonStep m (.signal p c) m₁ → ((∃ q, m.place q = .suspended c) →
        (m₁.place = Function.update m.place p (.signalling c) ∧ m₁.nextCount = m.nextCount + 1) ∧
        ∀ qs m₂ e m₃ q, Run CalmStep m₁ qs m₂ → MonStep m₂ e m₃ → (m₂.place q).active = false →
          (m₃.place q).active = true → m.place q = .suspended c) ∧
      ((∀ q, m.place q ≠ .suspended c) → m₁ = m)) ∧
    ∀ e, m.Enabled e → ∃ m', m.call e = some m' := by
  have kept : ∀ m (e : MonEvent C P) m', Monitored m → MonStep m e m' → Monitored m' := fun _ _ _ => step_monitored
  have monitored : Monitored m := run_invariant kept run (init_monitored init)
  refine ⟨fun p q => one_active monitored, fun q body => ?_, fun p c m₁ step => ?_, fun e enabled => ?_⟩
  · have counts := body_counts monitored body
    exact ⟨counts.1, fun c => ⟨counts.2 c, signal_finds monitored body c⟩⟩
  · obtain ⟨found, quiet⟩ := signal_begins monitored step
    refine ⟨fun waiter => ⟨found waiter, fun qs m₂ e m₃ q calm last rests active => ?_⟩, quiet⟩
    have place := (found waiter).1
    have at_p : m₁.place p = .signalling c := by rw [place, Function.update_self]
    have waited := signal_hands_over (step_monitored monitored step) (.counted at_p) calm last rests active
    have other : q ≠ p := by
      rintro rfl
      cases at_p.symm.trans waited
    rwa [place, Function.update_of_ne other] at waited
  · obtain ⟨m', call, _⟩ := call_monitored monitored enabled
    exact ⟨m', call⟩

def oneMonitor : Monitor Unit Nat where
  sems := idleSems initValue
  nextCount := 0
  count := fun _ => 0
  place := fun _ => .outside

/- Process 1 waits, and process 2 is about to signal. -/
def waiterAndSignaller : List (MonEvent Unit Nat) :=
  [.enter 1, .down 1 .mutex, .wait 1 (), .waitUp 1 (), .down 1 (.cv ()), .enter 2, .down 2 .mutex]

/-- The condition variable counts process 1, and process 2 signals it; then process 1 is the first to become active. -/
theorem waiter_is_counted : ∃ m m₁ m₂ m₃, Run MonStep oneMonitor waiterAndSignaller m ∧
    m.count () = {p | m.place p = .suspended ()}.ncard ∧ MonStep m (.signal 2 ()) m₁ ∧ m₁.nextCount = m.nextCount + 1 ∧
    Run CalmStep m₁ [.signalUp 2 (), .down 2 .next] m₂ ∧ MonStep m₂ (.downReturn 1 (.cv ())) m₃ ∧
    (m₃.place 1).active = true ∧ m.place 1 = .suspended () := by
  have init : MonInit oneMonitor := by
    refine ⟨idle_sems_init fun s => ?_, rfl, fun _ => rfl, fun _ => rfl⟩
    cases s with
    | mutex => decide
    | next => decide
    | cv c => exact (by decide : (0 : Int) ≤ 0 ∧ (0 : Int) ≤ INT_MAX)
  obtain ⟨m, run, m₁, signal, k, up, released, m₂, down, same, m₃, back, rests, active, waiter⟩ : ∃ m,
      Run MonStep oneMonitor waiterAndSignaller m ∧ ∃ m₁, MonStep m (.signal 2 ()) m₁ ∧ ∃ k, MonStep m₁ (.signalUp 2 ()) k ∧
      k.place = Function.update m₁.place 2 .signalled ∧ ∃ m₂, MonStep k (.down 2 .next) m₂ ∧ m₂.place = k.place ∧
      ∃ m₃, MonStep m₂ (.downReturn 1 (.cv ())) m₃ ∧ (m₂.place 1).active = false ∧ (m₃.place 1).active = true ∧
      ∃ q, m.place q = .suspended () :=
    ⟨_, .call ⟨⟨⟨rfl, rfl⟩, rfl⟩, rfl⟩ (.call ⟨⟨⟨rfl, rfl⟩, rfl⟩, rfl⟩ (.call ⟨⟨⟨rfl, rfl⟩, rfl⟩, rfl⟩
      (.call ⟨⟨⟨rfl, rfl⟩, rfl⟩, rfl⟩ (.call ⟨⟨⟨rfl, rfl⟩, rfl⟩, rfl⟩ (.call ⟨⟨⟨rfl, rfl⟩, rfl⟩, rfl⟩
        (.call ⟨⟨⟨rfl, rfl⟩, rfl⟩, rfl⟩ (.stop _))))))), _, ⟨⟨⟨rfl, rfl⟩, rfl⟩, rfl⟩, _, ⟨⟨⟨rfl, rfl⟩, rfl⟩, rfl⟩, rfl,
      _, ⟨⟨⟨rfl, rfl⟩, rfl⟩, rfl⟩, rfl, _, ⟨⟨⟨rfl, rfl⟩, rfl⟩, rfl⟩, rfl, rfl, 1, rfl⟩
  obtain ⟨_, counts, signals, _⟩ := monitor_is_correct init run
  obtain ⟨⟨_, raised⟩, first⟩ := (signals 2 () m₁ signal).1 waiter
  have calm : Run CalmStep m₁ [.signalUp 2 (), .down 2 .next] m₂ := by
    refine .call ⟨up, fun q busy => ?_⟩ (.call ⟨down, fun q busy => ?_⟩ (.stop _))
    · rw [released] at busy
      by_cases here : q = 2
      · rw [here, Function.update_self] at busy
        cases busy
      · rwa [Function.update_of_ne here] at busy
    · rwa [same] at busy
  exact ⟨m, m₁, m₂, m₃, run, ((counts 2 signal.1.2).2 ()).1, signal, raised, calm, back, active,
    first _ _ _ _ _ calm back rests active⟩

end Ucore.Sync
