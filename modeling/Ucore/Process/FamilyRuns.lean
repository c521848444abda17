import Ucore.Process.FamilySteps

/- The family of the processes over whole runs. -/
namespace Ucore.Relations
open Programs Transitions Process TwoWay

section
variable {s t : Family} {kids : Nat → List Nat} {p q c current proc pid : Nat} {ret : Option Nat}

/- Only states change, and no zombie is made. -/
theorem inv_states {state : Nat → ProcState} {waitState : Nat → WaitState} (inv : FamilyInv s kids)
    (zombies : ∀ q, state q = .zombie → s.state q = .zombie) :
    FamilyInv { s with state := state, waitState := waitState } kids :=
  { inv with
    idleLives := fun zombie => inv.idleLives (zombies _ zombie)
    initLives := fun zombie => inv.initLives (zombies _ zombie)
    parentLives := fun c mem zombie => inv.parentLives c mem (zombies _ zombie) }

/- The address of a process that is not there may be written to. -/
theorem inv_alloc {waitState : Nat → WaitState} {parent pids : Nat → Nat} (inv : FamilyInv s kids)
    (fresh : ¬ s.Present proc) (parents : ∀ q, q ≠ proc → parent q = s.parent q)
    (samePids : ∀ q, q ≠ proc → pids q = s.pid q) :
    FamilyInv { allocProc proc s with waitState := waitState, parent := parent, pid := pids } kids := by
  have notKid : ∀ p, s.Present p → ∀ c ∈ kids p, c ≠ proc := by
    rintro p known c mem rfl
    exact fresh (.inr ((inv.members p known c).mp mem).1)
  have notProc : ∀ p, s.Present p → p ≠ proc := by
    rintro p known rfl
    exact fresh known
  have same : ∀ c, c ∈ s.procList → parent c = s.parent c := fun c mem => parents c (notProc c (.inr mem))
  have states : ∀ p, s.Present p → (allocProc proc s).state p = s.state p :=
    fun p known => Function.update_of_ne (notProc p known) ..
  refine { inv with
    chain := fun p known => ?_, members := fun p known c => ?_, parents := fun c mem => ?_,
    hashed := fun b p mem => ?_, idleLives := ?_, initLives := ?_, parentLives := fun c mem => ?_,
    notSelf := fun c mem => ?_, eldest := ?_ }
  · have first : (allocProc proc s).cptr p = s.cptr p := Function.update_of_ne (notProc p known) ..
    change Listed (allocProc proc s).optr (allocProc proc s).yptr none ((allocProc proc s).cptr p) (kids p)
    rw [first]
    exact listed_congr (fun x mem => Function.update_of_ne (notKid p known x mem) ..)
      (fun x mem => Function.update_of_ne (notKid p known x mem) ..) (inv.chain p known)
  · change c ∈ kids p ↔ c ∈ s.procList ∧ parent c = p
    rw [inv.members p known]
    exact and_congr_right fun mem => by rw [same c mem]
  · change s.Present (parent c)
    rw [same c mem]
    exact inv.parents c mem
  · obtain ⟨listed, place⟩ := inv.hashed b p mem
    refine ⟨listed, ?_⟩
    dsimp only
    rw [samePids p (notProc p (.inr listed))]
    exact place
  · change (allocProc proc s).state s.idleproc ≠ .zombie
    rw [states _ (.inl rfl)]
    exact inv.idleLives
  · change (allocProc proc s).state s.initproc ≠ .zombie
    rw [states _ (.inr inv.init)]
    exact inv.initLives
  · change (allocProc proc s).state (parent c) ≠ .zombie
    rw [same c mem, states _ (inv.parents c mem)]
    exact inv.parentLives c mem
  · change parent c ≠ c
    rw [same c mem]
    exact inv.notSelf c mem
  · change parent s.initproc = s.idleproc
    rw [same _ inv.init]
    exact inv.eldest

theorem set_links_same (proc : Nat) : (setLinks proc s).procList = proc :: s.procList ∧
    (setLinks proc s).parent = s.parent ∧ (setLinks proc s).state = s.state ∧
    (setLinks proc s).idleproc = s.idleproc ∧ (setLinks proc s).initproc = s.initproc := by
  obtain ⟨_, shape, _⟩ := set_links_eq (s := s) proc
  rw [shape]
  exact ⟨rfl, rfl, rfl, rfl, rfl⟩

theorem remove_links_same (proc : Nat) : (removeLinks proc s).procList = s.procList.erase proc ∧
    (removeLinks proc s).parent = s.parent ∧ (removeLinks proc s).state = s.state ∧
    (removeLinks proc s).idleproc = s.idleproc ∧ (removeLinks proc s).initproc = s.initproc := by
  obtain ⟨_, _, _, shape, _⟩ := remove_links_eq (s := s) proc
  rw [shape]
  exact ⟨rfl, rfl, rfl, rfl, rfl⟩

/- A new process is on the list, and its parent is `current`. -/
theorem do_fork_ends {fails : Bool} (inv : FamilyInv s kids) (known : s.Present current)
    (runnable : s.state current = .runnable) (fresh : ¬ s.Present proc) :
    ∃ ret t, doFork current proc pid fails s = .ok (ret, t) ∧ (∃ kids', FamilyInv t kids') ∧
      t.initproc = s.initproc ∧ t.idleproc = s.idleproc ∧
      ((ret = none ∧ t.procList = s.procList) ∨ (ret = some proc ∧ t.procList = proc :: s.procList)) := by
  unfold doFork
  rw [run_get_bind]
  by_cases full : s.nrProcess ≥ GetPid.MAX_PROCESS
  · rw [if_pos full]
    exact ⟨none, s, rfl, ⟨kids, inv⟩, rfl, rfl, .inl ⟨rfl, rfl⟩⟩
  · have parents : ∀ q, q ≠ proc → Function.update s.parent proc current q = s.parent q :=
      fun q other => Function.update_of_ne other ..
    have pids : ∀ q, q ≠ proc → Function.update s.pid proc pid q = s.pid q :=
      fun q other => Function.update_of_ne other ..
    rw [if_neg full, run_modify_bind, run_modify_bind]
    cases fails with
    | true => exact ⟨none, _, rfl, ⟨kids, inv_alloc inv fresh parents fun _ _ => rfl⟩, rfl, rfl, .inl ⟨rfl, rfl⟩⟩
    | false =>
      rw [if_neg Bool.false_ne_true, run_modify_bind, run_modify_bind, run_modify_bind]
      let v : Family := { allocProc proc s with
        waitState := Function.update (allocProc proc s).waitState current .none
        parent := Function.update s.parent proc current
        pid := Function.update s.pid proc pid }
      have invV : FamilyInv v kids := inv_alloc inv fresh parents pids
      have parent : v.parent proc = current := Function.update_self ..
      have knownV : v.Present (v.parent proc) := by
        rw [parent]
        exact known
      have other : current ≠ proc := by
        rintro rfl
        exact fresh known
      have linked := set_links_linked (s := v) invV.toLinked fresh knownV (Function.update_self ..)
      obtain ⟨procs, sameParents, states, idle, init⟩ := set_links_same (s := hashProc proc v) proc
      let w := setLinks proc (hashProc proc v)
      have stateW : ∀ q, w.state q = v.state q := fun q => congrFun states q
      have invW : FamilyInv w (born kids (v.parent proc) proc) := by
        refine { linked with
          idleLives := ?_, initLives := ?_, parentLives := fun c mem => ?_, notSelf := fun c mem => ?_, eldest := ?_ }
        · rw [stateW, idle]
          exact invV.idleLives
        · rw [stateW, init]
          exact invV.initLives
        · rw [stateW, sameParents]
          rw [procs] at mem
          rcases List.mem_cons.mp mem with rfl | old
          · change v.state (v.parent c) ≠ .zombie
            rw [parent]
            change Function.update s.state c .uninit current ≠ .zombie
            rw [Function.update_of_ne other, runnable]
            decide
          · exact invV.parentLives c old
        · rw [sameParents]
          rw [procs] at mem
          rcases List.mem_cons.mp mem with rfl | old
          · change v.parent c ≠ c
            rw [parent]
            exact other
          · exact invV.notSelf c old
        · rw [sameParents, init, idle]
          exact invV.eldest
      have uninit : v.state proc = .uninit := Function.update_self ..
      have lives : w.state proc ≠ .zombie := by
        rw [stateW, uninit]
        decide
      obtain ⟨state, waitState, woke, zombies⟩ := wakeup_ends lives
      refine ⟨some proc, { w with state := state, waitState := waitState }, ?_,
        ⟨_, inv_states invW fun q zombie => (zombies q).mp zombie⟩, init, idle, .inr ⟨rfl, procs⟩⟩
      exact run_bind woke

/- The children of a process that exits go to `initproc`. -/
theorem do_exit_ends (inv : FamilyInv s kids) (known : s.Present current)
    (notIdle : current ≠ s.idleproc) (notInit : current ≠ s.initproc) :
    ∃ t, doExit current s = .ok (none, t) ∧ (∃ kids', FamilyInv t kids') ∧
      t.initproc = s.initproc ∧ t.idleproc = s.idleproc ∧ t.procList = s.procList ∧
      ∀ c ∈ s.procList, s.parent c = current → t.parent c = s.initproc := by
  have listed : current ∈ s.procList := known.resolve_left notIdle
  have parentOther : s.parent current ≠ current := inv.notSelf current listed
  let v : Family := { s with state := Function.update s.state current .zombie }
  have stateOther : ∀ q, q ≠ current → v.state q = s.state q := fun q other => Function.update_of_ne other ..
  have linkedV : Linked v kids fun _ => none := { inv.toLinked with }
  have livesParent : v.state (s.parent current) ≠ .zombie := by
    rw [stateOther _ parentOther]
    exact inv.parentLives current listed
  obtain ⟨state, waitState, woke, zombies⟩ := wakeup_if_ends (s := v)
    fun _ : v.waitState (s.parent current) = .child => livesParent
  let w : Family := { v with state := state, waitState := waitState }
  have livesInit : w.state w.initproc ≠ .zombie := by
    intro zombie
    have before := (zombies _).mp zombie
    rw [stateOther _ (Ne.symm notInit)] at before
    exact inv.initLives before
  obtain ⟨t, ran, ⟨kids', linkedT⟩, procs, idle, init, states, parents⟩ := reparent_ends (s := w)
    { linkedV with } known notInit rfl (fun _ _ => rfl) livesInit
    (kids_short inv.toLinked known)
  have member : ∀ c, c ∈ kids current ↔ c ∈ s.procList ∧ s.parent c = current := inv.members current known
  have zombieT : ∀ q, t.state q = .zombie → q = current ∨ s.state q = .zombie := by
    intro q zombie
    by_cases same : q = current
    · exact .inl same
    · have before := (zombies q).mp ((states q).mp zombie)
      rw [stateOther q same] at before
      exact .inr before
  refine ⟨t, ?_, ⟨kids', { linkedT with
    idleLives := ?_, initLives := ?_, parentLives := fun c mem => ?_, notSelf := fun c mem => ?_, eldest := ?_ }⟩, init,
    idle, procs, fun c mem parented => ?_⟩
  · unfold doExit
    rw [run_get_bind, if_neg notIdle, if_neg notInit]
    have rest : (do
        reparent current s.nrProcess
        return none : FamilyM (Option Nat)) w = .ok (none, t) := run_bind ran
    exact (woke _).trans rest
  · rw [idle]
    intro zombie
    exact (zombieT _ zombie).elim (fun same => notIdle same.symm) inv.idleLives
  · rw [init]
    intro zombie
    exact (zombieT _ zombie).elim (fun same => notInit same.symm) inv.initLives
  · rw [procs] at mem
    rw [parents]
    intro zombie
    by_cases kid : c ∈ kids current
    · rw [if_pos kid] at zombie
      exact (zombieT _ zombie).elim (fun same => notInit same.symm) inv.initLives
    · rw [if_neg kid] at zombie
      rcases zombieT _ zombie with same | before
      · exact kid ((member c).mpr ⟨mem, same⟩)
      · exact inv.parentLives c mem before
  · rw [procs] at mem
    rw [parents]
    by_cases kid : c ∈ kids current
    · rw [if_pos kid]
      rintro rfl
      exact notIdle (((member _).mp kid).2.symm.trans inv.eldest)
    · rw [if_neg kid]
      exact inv.notSelf c mem
  · rw [parents, init, idle]
    have kid : s.initproc ∉ kids current := by
      intro kid
      exact notIdle (((member _).mp kid).2.symm.trans inv.eldest)
    exact (if_neg kid).trans inv.eldest
  · rw [parents, if_pos ((member c).mpr ⟨mem, parented⟩)]

/- A zombie child is reaped. -/
theorem found_ends (inv : FamilyInv s kids) (listed : proc ∈ s.procList) (zombie : s.state proc = .zombie) :
    ∃ t, found proc s = .ok (some proc, t) ∧ (∃ kids', FamilyInv t kids') ∧
      t.initproc = s.initproc ∧ t.idleproc = s.idleproc ∧ t.procList = s.procList.erase proc := by
  have notIdle : proc ≠ s.idleproc := by
    rintro rfl
    exact inv.idle listed
  have notInit : proc ≠ s.initproc := by
    rintro rfl
    exact inv.initLives zombie
  have childless : ∀ c ∈ s.procList, s.parent c ≠ proc := by
    rintro c mem rfl
    exact inv.parentLives c mem zombie
  have linked := remove_links_linked inv.toLinked listed notInit childless
  obtain ⟨procs, sameParents, states, idle, init⟩ := remove_links_same (s := unhashProc proc s) proc
  refine ⟨removeLinks proc (unhashProc proc s), ?_, ⟨_, { linked with
    idleLives := ?_, initLives := ?_, parentLives := fun c mem => ?_, notSelf := fun c mem => ?_, eldest := ?_ }⟩,
    init, idle, procs⟩
  · unfold found
    rw [run_get_bind, run_check_bind ⟨notIdle, notInit⟩]
    rfl
  · rw [states, idle]
    exact inv.idleLives
  · rw [states, init]
    exact inv.initLives
  · rw [states, sameParents]
    rw [procs] at mem
    exact inv.parentLives c (List.mem_of_mem_erase mem)
  · rw [sameParents]
    rw [procs] at mem
    exact inv.notSelf c (List.mem_of_mem_erase mem)
  · rw [sameParents, init, idle]
    exact inv.eldest

/- One round of `do_wait` reaps a zombie child of the caller or leaves the family as it is. -/
theorem do_wait_ends (pid : Nat) (inv : FamilyInv s kids) (known : s.Present current) :
    ∃ ret t, doWait current pid s = .ok (ret, t) ∧ (∃ kids', FamilyInv t kids') ∧
      t.initproc = s.initproc ∧ t.idleproc = s.idleproc ∧
      ((ret = none ∧ t.procList = s.procList) ∨
        ∃ z, ret = some z ∧ z ∈ s.procList ∧ s.state z = .zombie ∧ s.parent z = current ∧
          t.procList = s.procList.erase z) := by
  have waits : ∀ haskid, ∃ ret t, waitChild current haskid s = .ok (ret, t) ∧ (∃ kids', FamilyInv t kids') ∧
      t.initproc = s.initproc ∧ t.idleproc = s.idleproc ∧
      ((ret = none ∧ t.procList = s.procList) ∨
        ∃ z, ret = some z ∧ z ∈ s.procList ∧ s.state z = .zombie ∧ s.parent z = current ∧
          t.procList = s.procList.erase z) := by
    intro haskid
    cases haskid with
    | true =>
      refine ⟨none, _, rfl, ⟨kids, inv_states inv fun q zombie => ?_⟩, rfl, rfl, .inl ⟨rfl, rfl⟩⟩
      by_cases same : q = current
      · rw [same, Function.update_self] at zombie
        cases zombie
      · rwa [Function.update_of_ne same] at zombie
    | false => exact ⟨none, s, rfl, ⟨kids, inv⟩, rfl, rfl, .inl ⟨rfl, rfl⟩⟩
  have reaps : ∀ z, z ∈ s.procList → s.state z = .zombie → s.parent z = current →
      ∃ ret t, found z s = .ok (ret, t) ∧ (∃ kids', FamilyInv t kids') ∧
      t.initproc = s.initproc ∧ t.idleproc = s.idleproc ∧
      ((ret = none ∧ t.procList = s.procList) ∨
        ∃ z, ret = some z ∧ z ∈ s.procList ∧ s.state z = .zombie ∧ s.parent z = current ∧
          t.procList = s.procList.erase z) := by
    intro z listed zombie parented
    obtain ⟨t, ran, invT, init, idle, procs⟩ := found_ends inv listed zombie
    exact ⟨some z, t, ran, invT, init, idle, .inr ⟨z, rfl, listed, zombie, parented, procs⟩⟩
  unfold doWait
  rw [run_get_bind]
  by_cases named : pid ≠ 0
  · rw [if_pos named]
    cases looked : s.findProc pid with
    | none => exact waits false
    | some z =>
      have listed : z ∈ s.procList := by
        unfold Family.findProc at looked
        split_ifs at looked
        exact (inv.hashed _ z (List.mem_of_find?_eq_some looked)).1
      dsimp only
      by_cases parented : s.parent z = current
      · rw [if_pos parented]
        by_cases zombie : s.state z = .zombie
        · rw [if_pos zombie]
          exact reaps z listed zombie parented
        · rw [if_neg zombie]
          exact waits true
      · rw [if_neg parented]
        exact waits false
  · have walk := first_zombie_ends (inv.chain current known) (Nat.le_of_lt (kids_short inv.toLinked known))
    rw [if_neg named, run_bind walk]
    cases seen : (kids current).find? fun c => s.state c = .zombie with
    | none => exact waits _
    | some z =>
      obtain ⟨listed, parented⟩ := (inv.members current known z).mp (List.mem_of_find?_eq_some seen)
      have zombie : s.state z = .zombie := by simpa using List.find?_some seen
      exact reaps z listed zombie parented

theorem op_ends {op : FamilyOp} (inv : FamilyInv s kids) (possible : op.Possible s)
    (notIdle : op ≠ .exit s.idleproc) (notInit : op ≠ .exit s.initproc) :
    ∃ ret t, op.run s = .ok (ret, t) ∧ (∃ kids', FamilyInv t kids') ∧
      t.initproc = s.initproc ∧ t.idleproc = s.idleproc ∧
      (∀ z, t.procList.count z + (FamilyEvent.mk op ret).reaped.toList.count z =
        s.procList.count z + (FamilyEvent.mk op ret).forked.toList.count z) ∧
      (∀ p, op = .exit p → ∀ c ∈ s.procList, s.parent c = p → c ∈ t.procList ∧ t.parent c = s.initproc) ∧
      ∀ p pid z, op = .wait p pid → ret = some z →
        z ∈ s.procList ∧ s.state z = .zombie ∧ s.parent z = p ∧ z ∉ t.procList := by
  cases op with
  | fork current proc pid fails =>
    obtain ⟨known, runnable, fresh⟩ := possible
    obtain ⟨ret, t, ran, invT, init, idle, result⟩ := do_fork_ends inv known runnable fresh
    refine ⟨ret, t, ran, invT, init, idle, fun z => ?_, fun p exits => (by cases exits),
      fun p pid z waits => (by cases waits)⟩
    rcases result with ⟨rfl, procs⟩ | ⟨rfl, procs⟩
    · rw [procs]
      rfl
    · rw [procs]
      change (proc :: s.procList).count z + 0 = s.procList.count z + [proc].count z
      rw [Nat.add_zero, ← List.singleton_append, List.count_append, Nat.add_comm]
  | exit current =>
    obtain ⟨t, ran, invT, init, idle, procs, parents⟩ := do_exit_ends inv possible.1
      (fun same => notIdle (same ▸ rfl)) fun same => notInit (same ▸ rfl)
    refine ⟨none, t, ran, invT, init, idle, fun z => ?_, fun p exits c mem parented => ?_,
      fun p pid z waits => (by cases waits)⟩
    · rw [procs]
      rfl
    · cases exits
      rw [procs]
      exact ⟨mem, parents c mem parented⟩
  | wait current pid =>
    obtain ⟨ret, t, ran, invT, init, idle, result⟩ := do_wait_ends pid inv possible.1
    refine ⟨ret, t, ran, invT, init, idle, fun z => ?_, fun p exits => (by cases exits), fun p pid z waits reaped => ?_⟩
    · rcases result with ⟨rfl, procs⟩ | ⟨r, rfl, listed, _, _, procs⟩
      · rw [procs]
        rfl
      · rw [procs]
        change (s.procList.erase r).count z + [r].count z = s.procList.count z + 0
        have before := (List.perm_cons_erase listed).count_eq z
        rw [show r :: s.procList.erase r = [r] ++ s.procList.erase r from rfl, List.count_append] at before
        omega
    · cases waits
      rcases result with ⟨rfl, _⟩ | ⟨r, rfl, listed, zombie, parented, procs⟩
      · cases reaped
      · cases reaped
        rw [procs]
        exact ⟨listed, zombie, parented, fun mem => ((List.Nodup.mem_erase_iff inv.distinct).mp mem).1 rfl⟩
  | wake proc =>
    have lives : s.state proc ≠ .zombie := by
      rw [possible.2]
      decide
    obtain ⟨state, waitState, woke, zombies⟩ := wakeup_ends lives
    exact ⟨none, _, run_bind woke, ⟨kids, inv_states inv fun q zombie => (zombies q).mp zombie⟩, rfl, rfl,
      fun z => rfl, fun p exits => (by cases exits), fun p pid z waits => (by cases waits)⟩

theorem panics {op : FamilyOp} (kernel : op = .exit s.idleproc ∨ op = .exit s.initproc) :
    ∃ e, op.run s = .error e ∧ (e = .idleExit ∨ e = .initExit) := by
  rcases kernel with rfl | rfl
  · refine ⟨.idleExit, ?_, .inl rfl⟩
    unfold FamilyOp.run
    dsimp only
    unfold doExit
    rw [run_get_bind, if_pos rfl]
    rfl
  · unfold FamilyOp.run
    dsimp only
    unfold doExit
    rw [run_get_bind]
    by_cases same : s.initproc = s.idleproc
    · rw [if_pos same]
      exact ⟨.idleExit, rfl, .inl rfl⟩
    · rw [if_neg same, if_pos rfl]
      exact ⟨.initExit, rfl, .inr rfl⟩

theorem family_step {e : FamilyEvent} (inv : FamilyInv s kids) (step : FamilyStep s e t) :
    (∃ kids', FamilyInv t kids') ∧ t.initproc = s.initproc ∧ t.idleproc = s.idleproc ∧
    ∀ z, t.procList.count z + e.reaped.toList.count z = s.procList.count z + e.forked.toList.count z := by
  obtain ⟨possible, ran⟩ := step
  by_cases kernel : e.op = .exit s.idleproc ∨ e.op = .exit s.initproc
  · obtain ⟨_, stopped, _⟩ := panics kernel
    cases ran.symm.trans stopped
  · rw [not_or] at kernel
    obtain ⟨ret, u, ran', invU, init, idle, counts, _⟩ := op_ends inv possible kernel.1 kernel.2
    cases ran.symm.trans ran'
    exact ⟨invU, init, idle, counts⟩

/- The processes that are forked are reaped or still there. -/
theorem family_run {es : List FamilyEvent} (run : Run FamilyStep s es t) (inv : ∃ kids, FamilyInv s kids) :
    (∃ kids', FamilyInv t kids') ∧ t.initproc = s.initproc ∧ t.idleproc = s.idleproc ∧
    ∀ z, t.procList.count z + (es.filterMap FamilyEvent.reaped).count z =
      s.procList.count z + (es.filterMap FamilyEvent.forked).count z := by
  induction run with
  | stop s => exact ⟨inv, rfl, rfl, fun _ => rfl⟩
  | @call s u t e es first _ ih =>
    obtain ⟨kids, inv⟩ := inv
    obtain ⟨invU, init, idle, counts⟩ := family_step inv first
    obtain ⟨invT, init', idle', counts'⟩ := ih invU
    refine ⟨invT, init'.trans init, idle'.trans idle, fun z => ?_⟩
    have split : ∀ f : FamilyEvent → Option Nat,
        ((e :: es).filterMap f).count z = (f e).toList.count z + (es.filterMap f).count z := by
      intro f
      cases found : f e with
      | none =>
        rw [List.filterMap_cons_none found]
        exact (Nat.zero_add _).symm
      | some p =>
        rw [List.filterMap_cons_some found, ← List.singleton_append, List.count_append]
        rfl
    have here := counts z
    have there := counts' z
    rw [split, split]
    omega

theorem boot_family {idle init : Nat} (apart : idle ≠ init) :
    FamilyInv (bootFamily idle init) fun p => if p = idle then [init] else [] := by
  have runs : ∀ p, (bootFamily idle init).state p ≠ .zombie := by
    intro p
    change (if p = idle ∨ p = init then ProcState.runnable else .uninit) ≠ .zombie
    split_ifs <;> decide
  have listed : ∀ p, p ∈ (bootFamily idle init).procList → p = init := fun p mem => List.mem_singleton.mp mem
  refine {
    chain := fun p known => ?_, nodup := fun p known => ?_, members := fun p known c => ?_,
    distinct := List.nodup_singleton _, count := rfl, idle := fun mem => apart (listed _ mem),
    init := List.mem_singleton_self _, parents := fun c mem => .inl rfl, hashed := fun b p mem => ?_,
    buckets := fun b => ?_, idleLives := runs _, initLives := runs _, parentLives := fun c mem => runs _,
    notSelf := fun c mem => ?_, eldest := rfl }
  · change Listed _ _ none (if p = idle then some init else none) (if p = idle then [init] else [])
    split_ifs
    · exact ⟨rfl, rfl, rfl⟩
    · rfl
  · split_ifs
    · exact List.nodup_singleton _
    · exact List.nodup_nil
  · change c ∈ (if p = idle then [init] else []) ↔ c ∈ [init] ∧ idle = p
    by_cases same : p = idle
    · rw [if_pos same]
      exact ⟨fun mem => ⟨mem, same.symm⟩, fun both => both.1⟩
    · rw [if_neg same]
      exact iff_of_false List.not_mem_nil fun both => same both.2.symm
  · change p ∈ (if b = pidHashfn 1 then [init] else []) at mem
    split_ifs at mem with bucket
    · have here := List.mem_singleton.mp mem
      subst p
      refine ⟨List.mem_singleton_self _, ?_⟩
      change pidHashfn (if init = init then 1 else 0) = b
      rw [if_pos rfl, bucket]
    · cases mem
  · change (if b = pidHashfn 1 then [init] else []).Nodup
    split_ifs
    · exact List.nodup_singleton _
    · exact List.nodup_nil
  · rw [listed c mem]
    exact apart

/-- The lists of children in every reachable state, and what an exit and a wait do. -/
theorem family_tree {idle init : Nat} {es : List FamilyEvent} (apart : idle ≠ init)
    (run : Run FamilyStep (bootFamily idle init) es s) :
    (∀ p, s.Present p → ∃ children : List Nat, Listed s.optr s.yptr none (s.cptr p) children ∧ children.Nodup ∧
      ∀ c, c ∈ children ↔ c ∈ s.procList ∧ s.parent c = p) ∧
    s.procList.Nodup ∧ idle ∉ s.procList ∧ s.nrProcess = s.procList.length + 1 ∧
    (∀ z, s.procList.count z + (es.filterMap FamilyEvent.reaped).count z =
      (es.filterMap FamilyEvent.forked).count z + if z = init then 1 else 0) ∧
    ∀ op : FamilyOp, op.Possible s →
      (∀ e, op.run s = .error e → op = .exit idle ∨ op = .exit init) ∧
      ∀ ret t, op.run s = .ok (ret, t) →
        (∀ p, op = .exit p → ∀ c ∈ s.procList, s.parent c = p → c ∈ t.procList ∧ t.parent c = init) ∧
        ∀ p pid z, op = .wait p pid → ret = some z →
          z ∈ s.procList ∧ s.state z = .zombie ∧ s.parent z = p ∧ z ∉ t.procList := by
  obtain ⟨⟨kids, inv⟩, sameInit, sameIdle, counts⟩ := family_run run ⟨_, boot_family apart⟩
  change s.initproc = init at sameInit
  change s.idleproc = idle at sameIdle
  subst idle init
  refine ⟨fun p known => ⟨kids p, inv.chain p known, inv.nodup p known, inv.members p known⟩, inv.distinct, inv.idle,
    inv.count, fun z => ?_, fun op possible => ?_⟩
  · have start : (bootFamily s.idleproc s.initproc).procList.count z = if z = s.initproc then 1 else 0 := by
      change [s.initproc].count z = _
      rw [List.count_singleton]
      by_cases same : z = s.initproc
      · rw [if_pos same, same]
        simp
      · rw [if_neg same]
        simpa using fun eq => same eq.symm
    rw [counts, start, Nat.add_comm]
  · by_cases kernel : op = .exit s.idleproc ∨ op = .exit s.initproc
    · obtain ⟨_, stopped, _⟩ := panics kernel
      exact ⟨fun _ _ => kernel, fun ret t ran => (by cases ran.symm.trans stopped)⟩
    · have others := not_or.mp kernel
      obtain ⟨ret, u, ran, _, _, _, _, exits, waits⟩ := op_ends inv possible others.1 others.2
      refine ⟨fun e stopped => (by cases ran.symm.trans stopped), fun ret' t ran' => ?_⟩
      cases ran.symm.trans ran'
      exact ⟨exits, waits⟩

end

/- The run of a list of events, computed; a process is 10, 11, … in the order of creation. -/
def familyReplay (s : Family) (e : FamilyEvent) : Option Family :=
  if e.op.Possible s then
    match e.op.run s with
    | .ok (ret, t) => if ret = e.ret then some t else none
    | .error _ => none
  else none

theorem family_replayed {s t : Family} {e : FamilyEvent} (done : familyReplay s e = some t) : FamilyStep s e t := by
  unfold familyReplay at done
  split_ifs at done with possible
  cases ran : e.op.run s with
  | error stopped =>
    rw [ran] at done
    cases done
  | ok r =>
    rw [ran] at done
    dsimp only at done
    split_ifs at done with same
    cases done
    exact ⟨possible, ran.trans (by rw [← same])⟩

/- Process 12 has two children and exits; `initproc` reaps it and then one of them. -/
def orphans : List FamilyEvent :=
  [⟨.fork 11 12 2 false, some 12⟩, ⟨.fork 12 13 3 false, some 13⟩, ⟨.fork 12 14 4 false, some 14⟩,
    ⟨.exit 13, none⟩, ⟨.exit 12, none⟩, ⟨.wait 11 2, some 12⟩, ⟨.wait 11 0, some 13⟩]

theorem orphan_is_reaped : ∃ s, Run FamilyStep (bootFamily 10 11) orphans s ∧ s.procList = [14, 11] ∧
    s.parent 14 = 11 ∧ s.procList.Nodup := by
  have seen : (replay familyReplay (bootFamily 10 11) orphans).any
      (fun t => decide (t.procList = [14, 11] ∧ t.parent 14 = 11)) = true := by
    decide +kernel
  obtain ⟨t, done, facts⟩ := (Option.any_eq_true _ _).mp seen
  obtain ⟨procs, parent⟩ := of_decide_eq_true facts
  have run : Run FamilyStep (bootFamily 10 11) orphans t :=
    run_mono (fun s e t => family_replayed) (replay_run done)
  exact ⟨t, run, procs, parent, (family_tree (by decide) run).2.1⟩

end Ucore.Relations
