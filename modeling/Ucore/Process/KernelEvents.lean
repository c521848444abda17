import Ucore.Process.KernelCalls

/- What each event leaves of the kernel. -/
namespace Ucore.Sched
open Programs Transitions Process

/-- A kill that comes where its target will still look for it: the target is the caller, asleep, gone,
or on its way out of a wait after which it looks. -/
def Kernel.Notices (s : Kernel) (p : Nat) : Prop :=
  p = s.current ∨ s.state p = .sleeping ∨ s.state p = .zombie ∨ (s.state p = .runnable ∧ s.Heeds p)

/-- No kill comes where it is overlooked, and no key for a reader that is to be killed. -/
def Event.Noticed (s : Kernel) : Event → Prop
  | .tick _ key => key = true → ∀ p ∈ s.keyWait, s.exiting p = false
  | .sys (.kill p) => p ∈ s.procs → s.exiting p = false → s.Notices p
  | _ => True

/-- The event is no kill of `initproc`. -/
def Event.Spares : Event → Prop
  | .sys (.kill p) => p ≠ initproc
  | _ => True

instance (s : Kernel) (p : Nat) : Decidable (s.Notices p) := inferInstanceAs (Decidable (_ ∨ _))

instance (s : Kernel) (e : Event) : Decidable (e.Noticed s) := by
  unfold Event.Noticed
  split <;> infer_instance

instance (e : Event) : Decidable e.Spares := by
  unfold Event.Spares
  split <;> infer_instance

section
variable {s t u : Kernel} {p : Nat} {e : Event}

theorem serving_user (inv : Inv s) (user : s.InUser) : Serving s := by
  obtain ⟨pos, stays⟩ := user
  refine ⟨inv, stays, ?_, ?_, ?_⟩
  · intro idle
    rw [idle, inv.idlePos] at pos
    cases pos
  · intro init
    rw [init] at pos
    rcases inv.initPos with start | again | waits
    · rw [start] at pos
      cases pos
    · rw [again] at pos
      cases pos
    · rw [waits] at pos
      cases pos
  · intro mem
    rw [(inv.readers _ mem).2] at pos
    cases pos

/- A process that runs where it does not heed a kill is not to be killed. -/
theorem lives_of_alert (inv : Inv s) (alert : Alert s) (stays : s.leaving = false)
    (busy : s.current ≠ idleproc) (careless : ¬ s.Heeds s.current) : s.exiting s.current = false := by
  by_contra dying
  rcases (alert _ (inv.current busy)).killed (Bool.not_eq_false _ ▸ dying) with zombie | ⟨_, heeds⟩
  · rw [inv.running stays] at zombie
    cases zombie
  · exact careless heeds

theorem careless_at {place : Pos} (here : s.pos p = place)
    (other : (∀ pid, place ≠ .waiting pid) ∧ place ≠ .sleeping ∧ place ≠ .reading) : ¬ s.Heeds p := by
  rintro (⟨pid, waiting⟩ | sleeping | ⟨reading, _⟩)
  · exact other.1 pid (here.symm.trans waiting)
  · exact other.2.1 (here.symm.trans sleeping)
  · exact other.2.2 (here.symm.trans reading)

theorem others_alert (alert : Alert s) : OthersAlert s := fun p mem _ => alert p mem

theorem lives_user (inv : Inv s) (alert : Alert s) (user : s.InUser) : s.exiting s.current = false :=
  lives_of_alert inv alert user.2 (serving_user inv user).busy
    (careless_at user.1 ⟨fun _ => Pos.noConfusion, by decide, by decide⟩)

/- If `initproc` has no child there is no process but `initproc`. -/
theorem only_init (inv : Inv s) (childless : s.children initproc = ∅) : ∀ p ∈ s.procs, p = initproc := by
  intro p
  induction p using Nat.strong_induction_on with
  | _ p ih =>
    intro mem
    by_contra other
    obtain ⟨known, _, older⟩ := inv.family p mem other
    have child : p ∈ s.children initproc := Finset.mem_filter.mpr ⟨mem, ih _ older known⟩
    rw [childless] at child
    exact Finset.notMem_empty p child

theorem init_exit (init : s.current = initproc) : doExit s = .error .initExit := by
  have notIdle : s.current ≠ idleproc := by
    rw [init]
    decide
  unfold doExit
  rw [run_get_bind, if_neg notIdle, if_pos init]
  rfl

/- A zombie is reaped. -/
theorem inv_reaped (inv : Inv s) (mem : p ∈ s.procs) (zombie : s.state p = .zombie)
    (running : p ≠ s.current) :
    Inv { s with procs := s.procs.erase p, state := Function.update s.state p .uninit } := by
  have stateOther : ∀ {q}, q ≠ p → Function.update s.state p .uninit q = s.state q :=
    fun other => Function.update_of_ne other ..
  have notInit : initproc ≠ p := by
    rintro rfl
    exact inv.init.2 zombie
  have notIdle : idleproc ≠ p := by
    rintro rfl
    exact inv.idle.1 mem
  have alive : ∀ q, s.state q ≠ .zombie → Function.update s.state p .uninit q ≠ .zombie := by
    intro q living
    by_cases same : q = p
    · rw [same, Function.update_self]
      decide
    · rw [stateOther same]
      exact living
  refine { inv with
    queued := fun q => ?_, current := fun busy => ?_, idle := ?_, waits := fun q rest => ?_,
    interruptible := fun q rest => inv.interruptible q (Finset.mem_of_mem_erase rest), init := ?_,
    family := fun q rest other => ?_, young := fun q rest => inv.young q (Finset.mem_of_mem_erase rest),
    running := fun stays => ?_, gone := fun q rest dead => ?_,
    userPos := fun q rest => inv.userPos q (Finset.mem_of_mem_erase rest), readers := fun q wait => ?_ }
  · rw [inv.queued, Finset.mem_erase]
    by_cases same : q = p
    · refine iff_of_false (fun ready => ?_) fun ready => ready.1.1 same
      rw [same, zombie] at ready
      cases ready.2.1
    · dsimp only
      rw [stateOther same]
      exact ⟨fun ⟨known, ready⟩ => ⟨⟨same, known⟩, ready⟩, fun ⟨known, ready⟩ => ⟨known.2, ready⟩⟩
  · exact Finset.mem_erase.mpr ⟨Ne.symm running, inv.current busy⟩
  · refine ⟨fun rest => inv.idle.1 (Finset.mem_of_mem_erase rest), ?_⟩
    dsimp only
    rw [stateOther notIdle]
    exact inv.idle.2
  · dsimp only
    rw [stateOther (Finset.ne_of_mem_erase rest)]
    exact inv.waits q (Finset.mem_of_mem_erase rest)
  · exact ⟨Finset.mem_erase.mpr ⟨notInit, inv.init.1⟩, alive _ inv.init.2⟩
  · obtain ⟨known, living, older⟩ := inv.family q (Finset.mem_of_mem_erase rest) other
    refine ⟨Finset.mem_erase.mpr ⟨?_, known⟩, alive _ living, older⟩
    intro dead
    rw [dead] at living
    exact living zombie
  · dsimp only
    rw [stateOther (Ne.symm running)]
    exact inv.running stays
  · dsimp only at dead
    rw [stateOther (Finset.ne_of_mem_erase rest)] at dead
    exact inv.gone q (Finset.mem_of_mem_erase rest) dead
  · obtain ⟨known, reading⟩ := inv.readers q wait
    refine ⟨Finset.mem_erase.mpr ⟨?_, known⟩, reading⟩
    rintro rfl
    rw [inv.gone _ mem zombie] at reading
    cases reading

theorem others_reaped (alert : OthersAlert s) :
    OthersAlert { s with procs := s.procs.erase p, state := Function.update s.state p .uninit } := by
  intro q rest other
  have state : Function.update s.state p .uninit q = s.state q :=
    Function.update_of_ne (Finset.ne_of_mem_erase rest) ..
  exact told_congr (alert q (Finset.mem_of_mem_erase rest) other) state rfl rfl rfl

/- One round of `do_wait`. -/
theorem do_wait_meets {pid zombie : Option Nat} (inv : Inv s) (stays : s.leaving = false)
    (busy : s.current ≠ idleproc) (out : s.current ∉ s.keyWait)
    (found : ∀ p, zombie = some p → p ∈ s.awaited pid ∧ s.state p = .zombie)
    (any : s.current = initproc → pid = none) :
    Meets (doWait pid zombie) s
      (fun _ t => Outcome (OthersAlert s ∧ s.exiting s.current = false) True s t) (Ruin s) := by
  have runnable := inv.running stays
  have initFits : s.current = initproc → ∀ place, place = .again ∨ place = .waiting none →
      Fits s.current place := by
    intro init place here
    rw [Fits, if_neg busy, if_pos init]
    exact .inr here
  cases zombie with
  | some p =>
    obtain ⟨awaited, dead⟩ := found p rfl
    have mem : p ∈ s.procs := by
      cases pid with
      | none => exact (Finset.mem_filter.mp awaited).1
      | some q => exact (Finset.mem_filter.mp (Finset.mem_filter.mp awaited).1).1
    have running : p ≠ s.current := by
      rintro rfl
      rw [runnable] at dead
      cases dead
    have invR := inv_reaped inv mem dead running
    let r : Kernel := { s with procs := s.procs.erase p, state := Function.update s.state p .uninit }
    have start : doWait pid (some p) s = waited true r := rfl
    unfold Meets
    rw [start]
    unfold waited
    rw [run_get_bind]
    have same : r.current = s.current := rfl
    rw [same]
    by_cases init : s.current = initproc
    · have moved : Inv (r.moved .again true) :=
        inv_moved invR true out (invR.running stays) (initFits init _ (.inl rfl))
      rw [if_pos init]
      refine ⟨moved, ⟨[], (List.append_nil _).symm⟩, fun _ dying => dying, ?_⟩
      rintro ⟨alert, lives⟩
      have alertR : OthersAlert r := others_reaped alert
      refine alert_step alertR rfl rfl (fun q other => ⟨rfl, ?_, rfl⟩) lives fun sleeps => ?_
      · exact moved_other (s := r) other
      · have runs := invR.running stays
        change r.state r.current = .sleeping at sleeps
        rw [runs] at sleeps
        cases sleeps
    · obtain ⟨t, ran, outcome⟩ := trap_end (s := r) ⟨invR, stays, busy, init, out⟩
      rw [if_neg init, ran]
      exact ⟨outcome.inv, outcome.order, outcome.spared, fun both => outcome.alert (others_reaped both.1)⟩
  | none =>
    unfold Meets doWait
    rw [run_get_bind]
    dsimp only
    by_cases left : s.awaited pid ≠ ∅
    · rw [if_pos left]
      have fits : Fits s.current (.waiting pid) := by
        by_cases init : s.current = initproc
        · rw [any init]
          exact initFits init _ (.inr rfl)
        · rw [Fits, if_neg busy, if_neg init]
          exact ⟨Pos.noConfusion, Pos.noConfusion, Pos.noConfusion⟩
      obtain ⟨t, ran, outcome⟩ := block_ends (w := .child) inv stays busy out fits (by decide) (by decide)
        (.inl ⟨pid, rfl⟩)
      rw [ran]
      exact outcome
    · rw [if_neg left]
      unfold waited
      rw [run_get_bind]
      by_cases init : s.current = initproc
      · have childless : s.children initproc = ∅ := by
          have empty := not_not.mp left
          rw [any init] at empty
          rw [← init]
          exact empty
        rw [if_pos init, if_neg Bool.false_ne_true, init_exit init]
        exact ⟨rfl, .inr (only_init inv childless)⟩
      · obtain ⟨t, ran, outcome⟩ := trap_end ⟨inv, stays, busy, init, out⟩
        rw [if_neg init, ran]
        exact outcome_mono outcome (fun both => both.1) fun _ => trivial

/- `do_kill`. -/
theorem do_kill_ends (inv : Inv s) : ∃ t, doKill p s = .ok ((), t) ∧ Inv t ∧
    (∃ woken, t.runList = s.runList ++ woken) ∧
    (p ≠ initproc → t.exiting initproc = true → s.exiting initproc = true) ∧
    (Alert s → (p ∈ s.procs → s.exiting p = false → s.Notices p) → OthersAlert t) ∧
    t.current = s.current ∧ t.leaving = s.leaving ∧ t.keyWait = s.keyWait := by
  have unchanged : Inv s ∧ (∃ woken, s.runList = s.runList ++ woken) ∧
      (p ≠ initproc → s.exiting initproc = true → s.exiting initproc = true) ∧
      (Alert s → (p ∈ s.procs → s.exiting p = false → s.Notices p) → OthersAlert s) ∧
      s.current = s.current ∧ s.leaving = s.leaving ∧ s.keyWait = s.keyWait :=
    ⟨inv, ⟨[], (List.append_nil _).symm⟩, fun _ dying => dying, fun alert _ => others_alert alert, rfl, rfl, rfl⟩
  unfold doKill
  rw [run_get_bind]
  by_cases known : p ∈ s.procs
  · rw [if_pos known]
    by_cases fresh : s.exiting p = false
    · have unset : (!s.exiting p) = true := by
        rw [fresh]
        rfl
      rw [if_pos unset]
      let v : Kernel := { s with exiting := Function.update s.exiting p true }
      have invV : Inv v := { inv with }
      have exitOther : ∀ {q}, q ≠ p → v.exiting q = s.exiting q := fun other => Function.update_of_ne other ..
      have spared : p ≠ initproc → v.exiting initproc = true → s.exiting initproc = true := by
        intro other dying
        rwa [exitOther (Ne.symm other)] at dying
      have others : ∀ q, q ≠ p → s.Told q → v.Told q :=
        fun q other told => told_congr told rfl (exitOther other) rfl rfl
      by_cases interrupted : (s.waitState p).interrupted = true
      · have sleeps : s.state p = .sleeping := by
          apply (inv.waits p known).mp
          intro idle
          rw [idle] at interrupted
          cases interrupted
        have alive : v.state p ≠ .zombie := by
          change s.state p ≠ .zombie
          rw [sleeps]
          decide
        obtain ⟨t, ran, invT, wakes, _, keyed, keyWait, runs⟩ := wakeup_ends invV known alive
        refine ⟨t, ?_, invT, wakes.order, fun other dying => ?_, fun alert _ q mem _ => ?_, wakes.current,
          wakes.leaving, keyWait⟩
        · rw [run_set_bind, if_pos interrupted]
          exact ran
        · rw [wakes.exiting] at dying
          exact spared other dying
        · rw [wakes.procs] at mem
          by_cases same : q = p
          · subst q
            have pos : t.pos p = s.pos p := congrFun wakes.pos p
            have heeds := (heeds_congr pos (congrFun keyed p)).mpr ((alert p known).asleep sleeps)
            exact ⟨fun _ => heeds, fun _ => .inr ⟨runs, heeds⟩⟩
          · exact told_wakes (others q same (alert q mem)) wakes fun _ => congrFun keyed q
      · refine ⟨v, ?_, invV, ⟨[], (List.append_nil _).symm⟩, spared, fun alert notice q mem other => ?_, rfl, rfl,
          rfl⟩
        · rw [run_set_bind, if_neg interrupted]
          rfl
        · by_cases same : q = p
          · subst q
            refine ⟨(alert p known).asleep, fun _ => ?_⟩
            rcases notice known fresh with here | sleeps | zombie | ready
            · exact absurd here other
            · exfalso
              have waits := (inv.waits p known).mpr sleeps
              have light := inv.interruptible p known
              cases wait : s.waitState p with
              | none => exact waits wait
              | ksem => exact light wait
              | child | timer | kbd =>
                rw [wait] at interrupted
                exact interrupted rfl
            · exact .inl zombie
            · exact .inr ready
          · exact others q same (alert q mem)
    · have dying : s.exiting p = true := by
        rwa [Bool.not_eq_false] at fresh
      have set : ¬ (!s.exiting p) = true := by
        rw [dying]
        decide
      rw [if_neg set]
      exact ⟨s, rfl, unchanged⟩
  · rw [if_neg known]
    exact ⟨s, rfl, unchanged⟩

/- A new process before it is woken. -/
def Kernel.forked (s : Kernel) : Kernel :=
  { s with
    procs := insert s.next s.procs
    next := s.next + 1
    parent := Function.update s.parent s.next s.current
    state := Function.update s.state s.next .uninit
    waitState := Function.update (Function.update s.waitState s.current .none) s.next .none
    exiting := Function.update s.exiting s.next false
    needResched := Function.update s.needResched s.next false
    timeSlice := Function.update s.timeSlice s.next 0
    pos := Function.update s.pos s.next .user
    keyed := Function.update s.keyed s.next false }

theorem older_than_next (inv : Inv s) (known : p ∈ s.procs) : p ≠ s.next := by
  have young := inv.young p known
  omega

theorem idle_not_next (inv : Inv s) : idleproc ≠ s.next := by
  have young := inv.young _ inv.init.1
  unfold initproc idleproc at *
  omega

theorem inv_forked (inv : Inv s) (stays : s.leaving = false) (busy : s.current ≠ idleproc) : Inv s.forked := by
  have runnable := inv.running stays
  have known := inv.current busy
  have calm : s.waitState s.current = .none := waits_for_nothing inv.toQueue known runnable
  have fresh : s.next ∉ s.procs := fun mem => older_than_next inv mem rfl
  have outside : s.next ∉ s.runList := fun mem => fresh ((inv.queued _).mp mem).1
  have stateOther : ∀ {q}, q ≠ s.next → s.forked.state q = s.state q := fun other => Function.update_of_ne other ..
  have waitOther : ∀ {q}, q ≠ s.next → s.forked.waitState q = s.waitState q := by
    intro q other
    refine (Function.update_of_ne other ..).trans ?_
    by_cases same : q = s.current
    · rw [same, Function.update_self, calm]
    · rw [Function.update_of_ne same]
  have posOther : ∀ {q}, q ≠ s.next → s.forked.pos q = s.pos q := fun other => Function.update_of_ne other ..
  have parentOther : ∀ {q}, q ≠ s.next → s.forked.parent q = s.parent q :=
    fun other => Function.update_of_ne other ..
  have sliceOther : ∀ {q}, q ≠ s.next → s.forked.timeSlice q = s.timeSlice q :=
    fun other => Function.update_of_ne other ..
  have stateSelf : s.forked.state s.next = .uninit := Function.update_self ..
  have waitSelf : s.forked.waitState s.next = .none := Function.update_self ..
  have posSelf : s.forked.pos s.next = .user := Function.update_self ..
  have parentSelf : s.forked.parent s.next = s.current := Function.update_self ..
  have split : ∀ q, q ∈ s.forked.procs → q = s.next ∨ (q ≠ s.next ∧ q ∈ s.procs) := by
    intro q mem
    rcases Finset.mem_insert.mp mem with same | old
    · exact .inl same
    · exact .inr ⟨older_than_next inv old, old⟩
  have elder := older_than_next inv inv.init.1
  have idle := idle_not_next inv
  refine { inv with
    queued := fun q => ?_, slices := fun q mem => ?_, slice := fun _ => ?_,
    current := fun _ => Finset.mem_insert_of_mem known, idle := ?_, waits := fun q mem => ?_,
    interruptible := fun q mem => ?_, init := ?_, eldest := ?_, family := fun q mem other => ?_,
    young := fun q mem => ?_, running := fun _ => ?_, gone := fun q mem zombie => ?_, initPos := ?_,
    userPos := fun q mem other => ?_, idlePos := ?_, readers := fun q mem => ?_ }
  · change q ∈ s.runList ↔ q ∈ s.forked.procs ∧ s.forked.state q = .runnable ∧ q ≠ s.current
    by_cases same : q = s.next
    · subst q
      rw [stateSelf]
      exact iff_of_false outside fun ready => by cases ready.2.1
    · rw [stateOther same, inv.queued]
      exact ⟨fun ready => ⟨Finset.mem_insert_of_mem ready.1, ready.2⟩,
        fun ready => ⟨Finset.mem_of_mem_insert_of_ne ready.1 same, ready.2⟩⟩
  · have same : q ≠ s.next := by
      rintro rfl
      exact outside mem
    rw [sliceOther same]
    exact inv.slices q mem
  · change s.forked.timeSlice s.current ≤ _
    rw [sliceOther (older_than_next inv known)]
    exact inv.slice busy
  · refine ⟨fun mem => ?_, ?_⟩
    · rcases split _ mem with same | ⟨_, old⟩
      · exact idle same
      · exact inv.idle.1 old
    · rw [stateOther idle, waitOther idle]
      exact inv.idle.2
  · rcases split q mem with rfl | ⟨same, old⟩
    · rw [waitSelf, stateSelf]
      exact iff_of_false (fun waits => waits rfl) (by decide)
    · rw [waitOther same, stateOther same]
      exact inv.waits q old
  · rcases split q mem with rfl | ⟨same, old⟩
    · rw [waitSelf]
      decide
    · rw [waitOther same]
      exact inv.interruptible q old
  · rw [stateOther elder]
    exact ⟨Finset.mem_insert_of_mem inv.init.1, inv.init.2⟩
  · rw [parentOther elder]
    exact inv.eldest
  · rcases split q mem with rfl | ⟨same, old⟩
    · rw [parentSelf, stateOther (older_than_next inv known), runnable]
      exact ⟨Finset.mem_insert_of_mem known, by decide, inv.young _ known⟩
    · obtain ⟨parent, living, older⟩ := inv.family q old other
      rw [parentOther same, stateOther (older_than_next inv parent)]
      exact ⟨Finset.mem_insert_of_mem parent, living, older⟩
  · change q < s.next + 1
    rcases split q mem with rfl | ⟨_, old⟩
    · exact Nat.lt_succ_self _
    · exact Nat.lt_succ_of_lt (inv.young q old)
  · change s.forked.state s.current = .runnable
    rw [stateOther (older_than_next inv known)]
    exact runnable
  · rcases split q mem with rfl | ⟨same, old⟩
    · rw [stateSelf] at zombie
      cases zombie
    · rw [stateOther same] at zombie
      rw [posOther same]
      exact inv.gone q old zombie
  · rw [posOther elder]
    exact inv.initPos
  · rcases split q mem with rfl | ⟨same, old⟩
    · rw [posSelf]
      decide
    · rw [posOther same]
      exact inv.userPos q old other
  · rw [posOther idle]
    exact inv.idlePos
  · obtain ⟨old, reading⟩ := inv.readers q mem
    rw [posOther (older_than_next inv old)]
    exact ⟨Finset.mem_insert_of_mem old, reading⟩

/- `do_fork`. -/
theorem do_fork_ends (inv : Inv s) (stays : s.leaving = false) (busy : s.current ≠ idleproc) :
    ∃ t, doFork s = .ok ((), t) ∧ Inv t ∧ (∃ woken, t.runList = s.runList ++ woken) ∧
      t.exiting initproc = s.exiting initproc ∧ (Alert s → Alert t) ∧ t.current = s.current ∧
      t.leaving = s.leaving ∧ t.keyWait = s.keyWait ∧ t.exiting s.current = s.exiting s.current ∧
      ∀ p ∈ s.procs, p ∈ t.procs := by
  have invF := inv_forked inv stays busy
  have alive : s.forked.state s.next ≠ .zombie := by
    intro zombie
    rw [show s.forked.state s.next = .uninit from Function.update_self ..] at zombie
    cases zombie
  have exitOther : ∀ {q}, q ≠ s.next → s.forked.exiting q = s.exiting q :=
    fun other => Function.update_of_ne other ..
  obtain ⟨t, ran, invT, wakes, _, keyed, keyWait, runs⟩ :=
    wakeup_ends invF (Finset.mem_insert_self ..) alive
  refine ⟨t, ran, invT, wakes.order, ?_, fun alert q mem => ?_, wakes.current, wakes.leaving, keyWait, ?_,
    fun p mem => ?_⟩
  · rw [wakes.exiting]
    exact exitOther (older_than_next inv inv.init.1)
  · rw [wakes.procs] at mem
    by_cases same : q = s.next
    · subst q
      refine ⟨fun sleeps => ?_, fun dying => ?_⟩
      · rw [runs] at sleeps
        cases sleeps
      · rw [wakes.exiting, show s.forked.exiting s.next = false from Function.update_self ..] at dying
        cases dying
    · have old : q ∈ s.procs := Finset.mem_of_mem_insert_of_ne mem same
      have told : s.forked.Told q := told_congr (alert q old) (Function.update_of_ne same ..) (exitOther same)
        (Function.update_of_ne same ..) (Function.update_of_ne same ..)
      exact told_wakes told wakes fun _ => congrFun keyed q
  · rw [wakes.exiting]
    exact exitOther (older_than_next inv (inv.current busy))
  · rw [wakes.procs]
    exact Finset.mem_insert_of_mem mem

end

end Ucore.Sched
