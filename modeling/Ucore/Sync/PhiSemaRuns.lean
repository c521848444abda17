import Ucore.Sync.PhiSemaSteps

/- The philosophers with semaphores over all runs. -/
namespace Ucore.Sync
open Transitions Process
variable {n : Nat} {t t' : TableSema n} {state state' : Philosopher n → Phase} {place place' : Philosopher n → SemaAt n}
  {sems sems' : Sems (PhiSem n) (Philosopher n)} {i j p q : Philosopher n} {x : SemaAt n} {call : PhiCall}

theorem HasUnit.kept (unit : HasUnit sems j) (kept : ∀ b, Holds (· = .s j) b sems → Holds (· = .s j) b sems') :
    HasUnit sems' j := by
  obtain ⟨b, holds, where_it_is⟩ := unit
  exact ⟨b, kept b holds, where_it_is⟩

theorem table_active_update {b b' : Baton (PhiSem n) (Philosopher n)} (carries : ∀ p, (place p).active = true ↔ b = .active p)
    (own : x.active = true ↔ b' = .active i) (others : ∀ p, p ≠ i → (b' = .active p ↔ b = .active p)) :
    ∀ p, (Function.update place i x p).active = true ↔ b' = .active p := by
  intro p
  by_cases here : p = i
  · subst here
    rw [Function.update_self]
    exact own
  · rw [Function.update_of_ne here, others p here]
    exact carries p

/- A step of one philosopher that is none of a semaphore and keeps its phase. -/
theorem table_move (table : TableSound t) (running : t.sems.pos i = .running) (active : x.active = (t.place i).active)
    (takes : x.takes = (t.place i).takes) (signals : x.signals = (t.place i).signals)
    (phases : PhasesOk (Function.update t.place i x) t.stateSema) : TableSound (t.move i x) := by
  obtain ⟨b, holds, carries⟩ := table.mutex
  refine ⟨table.sound, placed_update table.placed running, ⟨b, holds, ?_⟩, phases, fun j => ?_⟩
  · refine table_active_update carries ?_ fun _ _ => Iff.rfl
    rw [active]
    exact carries i
  · have owed : Owed (Function.update t.place i x) t.stateSema j ↔ Owed t.place t.stateSema j := owed_move takes signals
    exact ⟨fun owes => (table.units j).1 (owed.mp owes), fun rests => (table.units j).2 (rests ∘ owed.mpr)⟩

theorem phases_go (ok : PhasesOk place state) (empty : (place i).todo = []) (takes : (place i).takes = false)
    (quiet : x.signals = none) (allows : x.Allows (state i)) : PhasesOk (Function.update place i x) state := by
  refine ⟨ok.seated.goes (fun h mem => ?_) allows, signals_move ok (fun j asks => ?_) fun p _ asks => ?_⟩
  · rw [empty] at mem
    cases mem
  · rw [quiet] at asks
    cases asks
  · rw [(ok.signals p i asks).2] at takes
    cases takes

theorem take_sound (table : TableSound t) (running : t.sems.pos i = .running) (outside : t.place i = .outside) :
    TableSound (t.move i (.entering .takeForks)) := by
  have allows := table.phases.seated.allows i
  rw [outside] at allows
  refine table_move table running (by rw [outside]; rfl) (by rw [outside]; rfl) (by rw [outside]; rfl)
    (phases_go table.phases (by rw [outside]; rfl) (by rw [outside]; rfl) rfl allows)

theorem put_sound (table : TableSound t) (running : t.sems.pos i = .running) (eating : t.place i = .eating) :
    TableSound (t.move i (.entering .putForks)) := by
  have allows := table.phases.seated.allows i
  rw [eating] at allows
  refine table_move table running (by rw [eating]; rfl) (by rw [eating]; rfl) (by rw [eating]; rfl)
    (phases_go table.phases (by rw [eating]; rfl) (by rw [eating]; rfl) rfl allows)

theorem set_sound (table : TableSound t) (running : t.sems.pos i = .running) (inside : t.place i = .inside call) :
    TableSound { t.move i (.testing call (call.tests i)) with
      stateSema := Function.update t.stateSema i call.phase } := by
  have here : (t.place i).active = true := by
    rw [inside]
    rfl
  have alone : ∀ p, (t.place p).signals = none := by
    intro p
    by_cases own : p = i
    · rw [own, inside]
      rfl
    · rw [Option.eq_none_iff_forall_ne_some]
      intro j asks
      have active := signals_active asks
      rw [table.alone here own] at active
      cases active
  obtain ⟨b, holds, carries⟩ := table.mutex
  refine ⟨table.sound, placed_update table.placed running, ⟨b, holds, ?_⟩, phases_set table.phases inside alone, fun j => ?_⟩
  · refine table_active_update carries ?_ fun _ _ => Iff.rfl
    exact ⟨fun _ => (carries i).mp here, fun _ => rfl⟩
  · have owed : Owed (Function.update t.place i (.testing call (call.tests i)))
        (Function.update t.stateSema i call.phase) j ↔ Owed t.place t.stateSema j := by
      by_cases own : j = i
      · subst own
        constructor
        · rintro ⟨eats, _⟩
          rw [Function.update_self] at eats
          cases call <;> cases eats
        · rintro ⟨_, takes, _⟩
          rw [inside] at takes
          cases takes
      · unfold Owed
        rw [Function.update_of_ne own, Function.update_of_ne own]
        refine and_congr_right fun _ => and_congr_right fun _ => forall_congr' fun p => ?_
        by_cases caller : p = i
        · subst caller
          rw [Function.update_self, inside]
          exact Iff.rfl
        · rw [Function.update_of_ne caller]
    exact ⟨fun owes => (table.units j).1 (owed.mp owes), fun rests => (table.units j).2 (rests ∘ owed.mpr)⟩

theorem test_sound (table : TableSound t) (running : t.sems.pos i = .running) {todo : List (Philosopher n)}
    (testing : t.place i = .testing call (j :: todo)) : TableSound (phiTestSema i call j todo t) := by
  have here : (t.place i).active = true := by
    rw [testing]
    rfl
  unfold phiTestSema
  split_ifs with may
  · obtain ⟨b, holds, carries⟩ := table.mutex
    refine ⟨table.sound, placed_update table.placed running, ⟨b, holds, ?_⟩, phases_test table.phases testing may,
      fun k => ?_⟩
    · refine table_active_update carries ?_ fun _ _ => Iff.rfl
      exact ⟨fun _ => (carries i).mp here, fun _ => rfl⟩
    · have owed : Owed (Function.update t.place i (.signalling call j todo)) (Function.update t.stateSema j .eating) k ↔
          Owed t.place t.stateSema k := by
        by_cases own : k = j
        · subst own
          constructor
          · rintro ⟨_, _, nobody⟩
            have asks := nobody i
            rw [Function.update_self] at asks
            exact absurd rfl asks
          · rintro ⟨eats, _⟩
            rw [may.1] at eats
            cases eats
        · unfold Owed
          rw [Function.update_of_ne own]
          refine and_congr_right fun _ => and_congr (Eq.congr_left ?_) (forall_congr' fun p => ?_)
          · by_cases caller : k = i
            · subst caller
              rw [Function.update_self, testing]
              cases call <;> rfl
            · rw [Function.update_of_ne caller]
          · by_cases caller : p = i
            · subst caller
              rw [Function.update_self, testing]
              exact ⟨fun _ same => (nomatch same), fun _ same => own (Option.some.inj same).symm⟩
            · rw [Function.update_of_ne caller]
      exact ⟨fun owes => (table.units k).1 (owed.mp owes), fun rests => (table.units k).2 (rests ∘ owed.mpr)⟩
  · refine table_move table running (here.symm ▸ rfl) ?_ ?_ (phases_tested table.phases testing may)
    · rw [testing]
      cases call <;> rfl
    · rw [testing]
      rfl

theorem s_ne {k : Philosopher n} (other : k ≠ j) : ¬ PhiSem.s j = .s k := fun same => other (PhiSem.s.inj same).symm
theorem mutex_ne : ¬ PhiSem.mutex = .s j := fun same => nomatch same
theorem s_ne_mutex : ¬ PhiSem.s j = .mutex := fun same => nomatch same

theorem up_phases (ok : PhasesOk place state) {todo : List (Philosopher n)} (asks : place i = .signalling call j todo)
    (alone : ∀ p, p ≠ i → (place p).signals = none) : PhasesOk (Function.update place i (.testing call todo)) state := by
  have allows := ok.seated.allows i
  rw [asks] at allows
  refine ⟨ok.seated.goes (fun h mem => ?_) ?_, signals_move ok (fun k asks => nomatch asks) fun p other asked => ?_⟩
  · rw [asks] at mem
    exact mem
  · cases call <;> exact allows
  · rw [alone p other] at asked
    cases asked

theorem TableSound.alone_signals (table : TableSound t) (here : (t.place i).active = true) :
    ∀ p, p ≠ i → (t.place p).signals = none := by
  intro p other
  rw [Option.eq_none_iff_forall_ne_some]
  intro j asks
  have active := signals_active asks
  rw [table.alone here other] at active
  cases active

/- `up` of the philosopher that was let eat. -/
theorem up_table (table : TableSound t) (running : t.sems.pos i = .running) {todo : List (Philosopher n)}
    (asks : t.place i = .signalling call j todo) :
    ∃ sems, up (.s j) t.sems = some sems ∧ TableSound ((t.withSems sems).move i (.testing call todo)) := by
  have here : (t.place i).active = true := by
    rw [asks]
    rfl
  have asked : (t.place i).signals = some j := by
    rw [asks]
    rfl
  have alone := table.alone_signals here
  have not_owed : ¬ Owed t.place t.stateSema j := fun owed => owed.2.2 i asked
  have none_there := (table.units j).2 not_owed
  obtain ⟨b, holds, carries⟩ := table.mutex
  obtain ⟨sems, call_up, sound, outcome⟩ := up_sound (s := .s j) table.sound (holds_fits none_there rfl)
  have pos : sems.pos = t.sems.pos := by
    rcases outcome with raised | ⟨q, released⟩
    · exact raised.pos
    · exact released.pos
  have kept : ∀ {D : PhiSem n → Prop} {b}, ¬ D (.s j) → Holds D b t.sems → Holds D b sems := by
    intro D b outside before
    rcases outcome with raised | ⟨q, released⟩
    · exact raised_keeps raised outside before
    · exact released_keeps table.sound released outside before
  have unit : HasUnit sems j := by
    rcases outcome with raised | ⟨q, released⟩
    · exact ⟨_, raised_passes raised none_there, .inl rfl⟩
    · exact ⟨_, released_passes table.sound released none_there, .inr ⟨q, rfl⟩⟩
  have takes : ∀ k, (Function.update t.place i (.testing call todo) k).takes = (t.place k).takes := by
    intro k
    by_cases own : k = i
    · subst own
      rw [Function.update_self, asks]
      cases call <;> rfl
    · rw [Function.update_of_ne own]
  have signals : ∀ p, (Function.update t.place i (SemaAt.testing call todo) p).signals = none := by
    intro p
    by_cases own : p = i
    · subst own
      rw [Function.update_self]
      rfl
    · rw [Function.update_of_ne own]
      exact alone p own
  refine ⟨sems, call_up, sound, placed_update (pos ▸ table.placed) (pos ▸ running), ⟨b, kept s_ne_mutex holds, ?_⟩,
    up_phases table.phases asks alone, fun k => ?_⟩
  · refine table_active_update carries ?_ fun _ _ => Iff.rfl
    exact ⟨fun _ => (carries i).mp here, fun _ => rfl⟩
  · by_cases own : k = j
    · subst own
      have eats := table.phases.signals i k asked
      refine ⟨fun _ => unit, fun rests => absurd ⟨eats.1, (takes k).trans eats.2, fun p same => ?_⟩ rests⟩
      cases (signals p).symm.trans same
    · have owed : Owed (Function.update t.place i (.testing call todo)) t.stateSema k ↔ Owed t.place t.stateSema k := by
        unfold Owed
        rw [takes k]
        refine and_congr_right fun _ => and_congr_right fun _ => forall_congr' fun p => ?_
        rw [signals p]
        by_cases caller : p = i
        · rw [caller, asked]
          exact ⟨fun _ same => own (Option.some.inj same).symm, fun _ same => nomatch same⟩
        · rw [alone p caller]
      exact ⟨fun owes => ((table.units k).1 (owed.mp owes)).kept fun b => kept (s_ne own), fun rests =>
        kept (s_ne own) ((table.units k).2 (rests ∘ owed.mpr))⟩

/- `up` of `mutex` at the end of a call. -/
theorem leave_table (table : TableSound t) (running : t.sems.pos i = .running) (done : t.place i = .testing call []) :
    ∃ sems, up .mutex t.sems = some sems ∧ TableSound ((t.withSems sems).move i call.semaEnd) := by
  have here : (t.place i).active = true := by
    rw [done]
    rfl
  obtain ⟨b, holds, carries⟩ := table.mutex
  obtain rfl := (carries i).mp here
  obtain ⟨sems, call_up, sound, outcome⟩ := up_sound (s := .mutex) table.sound (holds_fits holds rfl)
  have pos : sems.pos = t.sems.pos := by
    rcases outcome with raised | ⟨q, released⟩
    · exact raised.pos
    · exact released.pos
  have kept : ∀ {j b}, Holds (· = .s j) b t.sems → Holds (· = .s j) b sems := by
    intro j b before
    rcases outcome with raised | ⟨q, released⟩
    · exact raised_keeps raised mutex_ne before
    · exact released_keeps table.sound released mutex_ne before
  have passed : ∃ b, Holds (· = .mutex) b sems ∧ ∀ q, b ≠ .active q := by
    rcases outcome with raised | ⟨q, released⟩
    · exact ⟨_, raised_passes raised holds, fun _ same => nomatch same⟩
    · exact ⟨_, released_passes table.sound released holds, fun _ same => nomatch same⟩
  obtain ⟨b, holds', nobody⟩ := passed
  have allows := table.phases.seated.allows i
  rw [done] at allows
  have next : ∀ x : SemaAt n, x.active = false → x.takes = (t.place i).takes → x.signals = none →
      x.Allows (t.stateSema i) → TableSound ((t.withSems sems).move i x) := by
    intro x rests takes quiet fits
    have signals : x.signals = (t.place i).signals := by
      rw [done, quiet]
      rfl
    refine ⟨sound, placed_update (pos ▸ table.placed) (pos ▸ running), ⟨b, holds', ?_⟩,
      ⟨table.phases.seated.goes (fun h mem => ?_) fits, signals_move table.phases (fun j asks => ?_)
        (fun p _ asks => takes.trans (table.phases.signals p i asks).2)⟩, fun j => ?_⟩
    · refine table_active_update carries ?_ fun p other => ?_
      · exact ⟨fun active => (nomatch rests.symm.trans active), fun same => absurd same (nobody i)⟩
      · exact ⟨fun same => absurd same (nobody p), fun same => absurd (Baton.active.inj same).symm other⟩
    · have empty : h ∈ (t.place i).todo := mem
      rw [done] at empty
      cases empty
    · rw [quiet] at asks
      cases asks
    · have owed : Owed (Function.update t.place i x) t.stateSema j ↔ Owed t.place t.stateSema j := owed_move takes signals
      exact ⟨fun owes => ((table.units j).1 (owed.mp owes)).kept fun b => kept, fun rests =>
        kept ((table.units j).2 (rests ∘ owed.mpr))⟩
  refine ⟨sems, call_up, ?_⟩
  cases call with
  | takeForks => exact next .waiting rfl (by rw [done]; rfl) rfl allows
  | putForks => exact next .outside rfl (by rw [done]; rfl) rfl allows

/- The philosopher gets into the critical section. -/
theorem enter_arrives (table : TableSound t) {b : Baton (PhiSem n) (Philosopher n)} (entering : t.place i = .entering call)
    (sound : Sound phiInitValue sems) (placed : ∀ q s, sems.pos q = .down s → (t.place q).sem q = some s)
    (running : sems.pos i = .running) (mutex : Holds (· = .mutex) (.active i) sems)
    (carries : ∀ p, (t.place p).active = true ↔ b = .active p) (nobody : ∀ q, b ≠ .active q)
    (kept : ∀ j b, Holds (· = .s j) b t.sems → Holds (· = .s j) b sems) : TableSound ((t.withSems sems).arrive i) := by
  have arrives : (t.withSems sems).arrive i = (t.withSems sems).move i (.inside call) := by
    unfold TableSema.arrive
    rw [show (t.withSems sems).place i = .entering call from entering]
  have allows := table.phases.seated.allows i
  rw [entering] at allows
  have phases : PhasesOk (Function.update t.place i (.inside call)) t.stateSema :=
    phases_go table.phases (by rw [entering]; rfl) (by rw [entering]; rfl) rfl allows
  rw [arrives]
  refine ⟨sound, placed_update placed running, ⟨_, mutex, ?_⟩,
    phases, fun j => ?_⟩
  · refine table_active_update carries ⟨fun _ => rfl, fun _ => rfl⟩ fun p other => ?_
    exact ⟨fun same => absurd (Baton.active.inj same).symm other, fun same => absurd same (nobody p)⟩
  · have owed : Owed (Function.update t.place i (.inside call)) t.stateSema j ↔ Owed t.place t.stateSema j :=
      owed_move (by rw [entering]; rfl) (by rw [entering]; rfl)
    exact ⟨fun owes => ((table.units j).1 (owed.mp owes)).kept (kept j), fun rests =>
      kept j _ ((table.units j).2 (rests ∘ owed.mpr))⟩

/- The philosopher returns from its own semaphore and eats. -/
theorem wait_arrives (table : TableSound t) (waiting : t.place i = .waiting) (owed : Owed t.place t.stateSema i)
    (sound : Sound phiInitValue sems) (placed : ∀ q s, sems.pos q = .down s → (t.place q).sem q = some s)
    (running : sems.pos i = .running) (mutex : ∀ b, Holds (· = .mutex) b t.sems → Holds (· = .mutex) b sems)
    (gone : NoUnit sems i) (kept : ∀ j b, j ≠ i → Holds (· = .s j) b t.sems → Holds (· = .s j) b sems) :
    TableSound ((t.withSems sems).arrive i) := by
  have arrives : (t.withSems sems).arrive i = (t.withSems sems).move i .eating := by
    unfold TableSema.arrive
    rw [show (t.withSems sems).place i = .waiting from waiting]
  obtain ⟨b, holds, carries⟩ := table.mutex
  rw [arrives]
  refine ⟨sound, placed_update placed running, ⟨b, mutex b holds, ?_⟩, ?_, fun j => ?_⟩
  · refine table_active_update carries ?_ fun _ _ => Iff.rfl
    rw [← carries i, waiting]
    exact Iff.rfl
  · refine ⟨table.phases.seated.goes (fun h mem => ?_) owed.1, signals_move table.phases (fun j asks => nomatch asks)
      fun p _ asks => absurd asks (owed.2.2 p)⟩
    have empty : h ∈ (t.place i).todo := mem
    rw [waiting] at empty
    cases empty
  · by_cases own : j = i
    · subst own
      refine ⟨fun owes => ?_, fun _ => gone⟩
      have takes : (Function.update t.place j .eating j).takes = true := owes.2.1
      rw [Function.update_self] at takes
      cases takes
    · have same : Owed (Function.update t.place i .eating) t.stateSema j ↔ Owed t.place t.stateSema j := by
        unfold Owed
        rw [Function.update_of_ne own]
        refine and_congr_right fun _ => and_congr_right fun _ => forall_congr' fun p => ?_
        by_cases caller : p = i
        · rw [caller, Function.update_self, waiting]
          exact Iff.rfl
        · rw [Function.update_of_ne caller]
      exact ⟨fun owes => ((table.units j).1 (same.mp owes)).kept fun b => kept j b own, fun rests =>
        kept j _ own ((table.units j).2 (rests ∘ same.mpr))⟩

theorem sema_sem_cases {s : PhiSem n} (goes : x.sem i = some s) :
    (∃ call, x = .entering call ∧ s = .mutex) ∨ x = .waiting ∧ s = .s i := by
  cases x with
  | entering call => exact .inl ⟨call, rfl, (Option.some.inj goes).symm⟩
  | waiting => exact .inr ⟨rfl, (Option.some.inj goes).symm⟩
  | _ => cases goes

theorem down_table (table : TableSound t) (running : t.sems.pos i = .running) {s : PhiSem n}
    (goes : (t.place i).sem i = some s) :
    TableSound (if 0 < t.sems.value s then (t.withSems (down i s t.sems)).arrive i
      else t.withSems (down i s t.sems)) := by
  obtain ⟨b, holds, carries⟩ := table.mutex
  rw [down_eq]
  split_ifs with positive
  · have sound := taken_sound table.sound positive
    rcases sema_sem_cases goes with ⟨call, entering, rfl⟩ | ⟨waiting, rfl⟩
    · have free := holds_free holds rfl positive
      subst free
      exact enter_arrives table entering sound table.placed running (taken_passes i rfl positive holds) carries
        (fun _ same => nomatch same) fun j b => taken_keeps mutex_ne
    · have owed : Owed t.place t.stateSema i := by
        by_contra rests
        have zero := ((table.units i).2 rests).value (.s i) rfl
        rw [if_neg active_not_free] at zero
        omega
      obtain ⟨b, unit, _⟩ := (table.units i).1 owed
      exact wait_arrives table waiting owed sound table.placed running (fun b => taken_keeps s_ne_mutex)
        (taken_passes i rfl positive unit) fun j b other => taken_keeps (s_ne other)
  · refine ⟨waiting_sound table.sound running positive, fun q u down => ?_, ⟨b, waiting_keeps running holds, carries⟩,
      table.phases, fun j => ⟨fun owes => ((table.units j).1 owes).kept fun b => waiting_keeps running, fun rests =>
        waiting_keeps running ((table.units j).2 rests)⟩⟩
    change Function.update t.sems.pos i (.down s) q = .down u at down
    by_cases here : q = i
    · subst here
      rw [Function.update_self] at down
      exact goes.trans (congrArg some (Pos.down.inj down))
    · rw [Function.update_of_ne here] at down
      exact table.placed q u down

theorem return_table (table : TableSound t) {s : PhiSem n} (enabled : t.sems.Enabled (.downReturn i s))
    (goes : (t.place i).sem i = some s) :
    ∃ sems, downReturn i s t.sems = some sems ∧ TableSound ((t.withSems sems).arrive i) := by
  obtain ⟨b, holds, carries⟩ := table.mutex
  have granted := granted_of_enabled table.sound enabled
  obtain ⟨sems, call, returned, ups, downs, clock, since⟩ := down_returns table.sound granted
  have sound := returned_sound granted returned ups downs clock since table.sound
  have running : sems.pos i = .running := by rw [returned.pos, Function.update_self]
  have placed : ∀ q u, sems.pos q = .down u → (t.place q).sem q = some u := by
    intro q u down
    rw [returned.pos] at down
    by_cases here : q = i
    · subst here
      rw [Function.update_self] at down
      cases down
    · rw [Function.update_of_ne here] at down
      exact table.placed q u down
  refine ⟨sems, call, ?_⟩
  rcases sema_sem_cases goes with ⟨call, entering, rfl⟩ | ⟨waiting, rfl⟩
  · have handed := (holds.granted .mutex rfl i).mp granted
    subst handed
    exact enter_arrives table entering sound placed running (returned_passes rfl granted returned holds) carries
      (fun _ same => nomatch same) fun j b => returned_keeps mutex_ne granted returned
  · have owed : Owed t.place t.stateSema i := by
      by_contra rests
      cases (((table.units i).2 rests).granted (.s i) rfl i).mp granted
    obtain ⟨b, unit, _⟩ := (table.units i).1 owed
    exact wait_arrives table waiting owed sound placed running (fun b => returned_keeps s_ne_mutex granted returned)
      (returned_passes rfl granted returned unit) fun j b other => returned_keeps (s_ne other) granted returned

theorem call_table (table : TableSound t) {e : SemaEvent n} (enabled : t.Enabled e) :
    ∃ t', t.call e = some t' ∧ TableSound t' := by
  cases e with
  | aside e =>
    obtain ⟨sems, call, aside⟩ := aside_call table.sound enabled.1 enabled.2
    obtain ⟨b, holds, carries⟩ := table.mutex
    refine ⟨t.withSems sems, ?_, aside_sound aside table.sound, fun q s down => table.placed q s ((aside.down q s).mp down),
      ⟨b, aside_keeps aside holds, carries⟩, table.phases, fun j => ⟨fun owes => ((table.units j).1 owes).kept
        fun b => aside_keeps aside, fun rests => aside_keeps aside ((table.units j).2 rests)⟩⟩
    unfold TableSema.call
    dsimp only
    rw [call]
    rfl
  | take i => exact ⟨_, rfl, take_sound table enabled.1.1 enabled.2⟩
  | put i => exact ⟨_, rfl, put_sound table enabled.1.1 enabled.2⟩
  | down i s => exact ⟨_, rfl, down_table table enabled.1.1 enabled.2⟩
  | downReturn i s =>
    obtain ⟨sems, call, after⟩ := return_table table enabled.1 enabled.2
    refine ⟨_, ?_, after⟩
    unfold TableSema.call
    dsimp only
    rw [call]
    rfl
  | setState i call => exact ⟨_, rfl, set_sound table enabled.1.1 enabled.2⟩
  | test i call j todo => exact ⟨_, rfl, test_sound table enabled.1.1 enabled.2⟩
  | up i call j todo =>
    obtain ⟨sems, run, after⟩ := up_table table enabled.1.1 enabled.2
    refine ⟨_, ?_, after⟩
    unfold TableSema.call
    dsimp only
    rw [run]
    rfl
  | leave i call =>
    obtain ⟨sems, run, after⟩ := leave_table table enabled.1.1 enabled.2
    refine ⟨_, ?_, after⟩
    unfold TableSema.call
    dsimp only
    rw [run]
    rfl

theorem step_table {e : SemaEvent n} (table : TableSound t) (step : SemaStep t e t') : TableSound t' := by
  obtain ⟨next, call, after⟩ := call_table table step.1
  obtain rfl := Option.some.inj (call.symm.trans step.2)
  exact after

theorem init_table (init : SemaInit t) : TableSound t := by
  have outside := init.place
  have none_granted : ∀ p s, ¬ t.sems.Granted p s := by
    intro p s granted
    rw [Sems.Granted, init.sems.pos p] at granted
    cases granted.1
  refine ⟨init_sound init.sems, fun q s down => ?_, ⟨.free .mutex, ⟨fun s is_mutex => ?_, fun s _ p => ?_⟩, fun p => ?_⟩,
    ⟨⟨fun i eats => ?_, fun h hungry => ?_, fun i => ?_⟩, fun p j asks => ?_⟩, fun j => ⟨fun owed => ?_, fun _ =>
      ⟨fun s own => ?_, fun s _ p => ?_⟩⟩⟩
  · rw [init.sems.pos q] at down
    cases down
  · subst is_mutex
    rw [init.sems.value, if_pos rfl]
    rfl
  · exact ⟨fun granted => absurd granted (none_granted p s), fun same => (by cases same)⟩
  · rw [outside p]
    exact ⟨fun same => (by cases same), fun same => (by cases same)⟩
  · rw [init.state i] at eats
    cases eats
  · rw [init.state h] at hungry
    cases hungry
  · rw [outside i]
    exact init.state i
  · rw [outside p] at asks
    cases asks
  · have eats := owed.1
    rw [init.state j] at eats
    cases eats
  · subst own
    rw [init.sems.value, if_neg active_not_free]
    rfl
  · exact ⟨fun granted => absurd granted (none_granted p s), fun same => (by cases same)⟩

theorem not_queued_of_unit (sound : Sound phiInitValue sems) (own : ∀ q, sems.Granted q (.s j) → q = j)
    (unit : HasUnit sems j) : j ∉ sems.waitQueue (.s j) ∧ (0 < sems.value (.s j) ∨ sems.Granted j (.s j)) := by
  obtain ⟨b, holds, rfl | ⟨q, rfl⟩⟩ := unit
  · have value := holds.value (.s j) rfl
    rw [if_pos rfl] at value
    have positive : 0 < sems.value (.s j) := value ▸ Int.one_pos
    rw [sound.served _ positive]
    exact ⟨List.not_mem_nil, .inl positive⟩
  · have granted := (holds.granted (.s j) rfl q).mpr rfl
    obtain rfl := own q granted
    exact ⟨granted.2, .inr granted⟩

theorem sema_philosophers (table : TableSound t) (idle : ∀ p, (t.place p).active = false) :
    (∀ h, t.stateSema h = .hungry → t.stateSema (left h) = .eating ∨ t.stateSema (right h) = .eating) ∧
    ∀ i, t.stateSema i = .eating → i ∉ t.sems.waitQueue (.s i) ∧
      (t.place i = .waiting → 0 < t.sems.value (.s i) ∨ t.sems.Granted i (.s i)) ∧
      (0 < t.sems.value .mutex → ∀ s, i ∉ t.sems.waitQueue s) := by
  have silent : ∀ p j, (t.place p).signals ≠ some j := fun p j asks =>
    nomatch (idle p).symm.trans (signals_active asks)
  have queued : ∀ {i s}, i ∈ t.sems.waitQueue s → (t.place i).sem i = some s := fun mem =>
    table.placed _ _ (table.sound.queued _ _ mem).1
  have own : ∀ {q j}, t.sems.Granted q (.s j) → q = j := by
    intro q j granted
    rcases sema_sem_cases (table.placed q (.s j) granted.1) with ⟨_, _, same⟩ | ⟨_, same⟩
    · cases same
    · exact (PhiSem.s.inj same).symm
  refine ⟨fun h hungry => ?_, fun i eats => ?_⟩
  · rcases table.phases.seated.served h hungry with on_left | on_right | ⟨p, mem⟩
    · exact .inl on_left
    · exact .inr on_right
    · have rests := idle p
      cases place : t.place p with
      | testing call todo => rw [place] at rests; cases rests
      | signalling call j todo => rw [place] at rests; cases rests
      | _ => rw [place] at mem; cases mem
  · have waits : t.place i = .waiting → i ∉ t.sems.waitQueue (.s i) ∧
        (0 < t.sems.value (.s i) ∨ t.sems.Granted i (.s i)) := by
      intro waiting
      have owed : Owed t.place t.stateSema i := ⟨eats, by rw [waiting]; rfl, fun p => silent p i⟩
      exact not_queued_of_unit table.sound (fun q => own) ((table.units i).1 owed)
    have apart : i ∉ t.sems.waitQueue (.s i) := by
      intro mem
      rcases sema_sem_cases (queued mem) with ⟨_, _, same⟩ | ⟨waiting, _⟩
      · cases same
      · exact (waits waiting).1 mem
    refine ⟨apart, fun waiting => (waits waiting).2, fun free s mem => ?_⟩
    rcases sema_sem_cases (queued mem) with ⟨_, _, rfl⟩ | ⟨_, rfl⟩
    · rw [table.sound.served .mutex free] at mem
      cases mem
    · exact apart mem

end Ucore.Sync
