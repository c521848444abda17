import Ucore.Process.TimerList

/- The sums of the deltas are the deadlines: every operation does to the list what it is meant to do to
   them. -/
namespace Ucore.TimerList
open Programs Transitions Process

section
variable {expires expires' : Nat → Nat} {base timer x : Nat} {l le : List Nat} {s t : TimerState}

theorem agenda_cons : agenda expires base (x :: l) =
    (x, base + expires x) :: agenda expires (base + expires x) l := rfl

theorem insert_cons {remaining : Nat} {next : Nat × Nat} {rest : List (Nat × Nat)} :
    insertDeadline timer remaining (next :: rest) =
      if remaining < next.2 then (timer, remaining) :: next :: rest
      else next :: insertDeadline timer remaining rest := rfl

theorem agenda_congr (same : ∀ y ∈ l, expires y = expires' y) :
    agenda expires base l = agenda expires' base l := by
  induction l generalizing base with
  | nil => rfl
  | cons first le ih =>
    rw [agenda_cons, agenda_cons, same first (List.mem_cons_self ..), ih fun y mem => same y (List.mem_cons_of_mem _ mem)]

theorem agenda_timers : (agenda expires base l).map Prod.fst = l := by
  induction l generalizing base with
  | nil => rfl
  | cons first le ih =>
    rw [agenda_cons, List.map_cons, ih]

theorem agenda_update {y v : Nat} (outside : y ∉ l) :
    agenda (Function.update expires y v) base l = agenda expires base l := by
  apply agenda_congr
  intro z mem
  apply Function.update_of_ne
  rintro rfl
  exact outside mem

theorem agenda_mem {y : Nat × Nat} (mem : y ∈ agenda expires base l) : y.1 ∈ l := by
  have key := List.mem_map_of_mem (f := Prod.fst) mem
  rwa [agenda_timers] at key

theorem agenda_ge {y : Nat × Nat} (mem : y ∈ agenda expires base l) : base ≤ y.2 := by
  induction l generalizing base with
  | nil => cases mem
  | cons first le ih =>
    rcases List.mem_cons.mp mem with rfl | later
    · exact Nat.le_add_right ..
    · exact (Nat.le_add_right ..).trans (ih later)

theorem agenda_shift : agenda expires base l = (agenda expires (base + 1) l).map fun y => (y.1, y.2 - 1) := by
  induction l generalizing base with
  | nil => rfl
  | cons first le ih =>
    rw [agenda_cons, agenda_cons, List.map_cons, ih, Nat.add_right_comm base 1 (expires first)]
    rfl

theorem link_other {y : Nat} (other : y ≠ timer) (outside : y ∉ l) :
    (linkTimer timer l expires).2 y = expires y := by
  induction l generalizing expires with
  | nil => rfl
  | cons next le ih =>
    rw [List.mem_cons, not_or] at outside
    unfold linkTimer
    split_ifs
    · exact Function.update_of_ne outside.1 ..
    · rw [ih outside.2, Function.update_of_ne other]

theorem link_perm : (linkTimer timer l expires).1.Perm (timer :: l) := by
  induction l generalizing expires with
  | nil => exact List.Perm.refl _
  | cons next le ih =>
    unfold linkTimer
    split_ifs
    · exact List.Perm.refl _
    · exact (ih.cons next).trans (List.Perm.swap timer next le)

/- A new timer takes its place, and the others keep their times. -/
theorem link_agenda (fresh : timer ∉ l) (distinct : l.Nodup) :
    agenda (linkTimer timer l expires).2 base (linkTimer timer l expires).1 =
      insertDeadline timer (base + expires timer) (agenda expires base l) := by
  induction l generalizing expires base with
  | nil => rfl
  | cons next le ih =>
    rw [List.mem_cons, not_or] at fresh
    obtain ⟨outside, rest⟩ := List.nodup_cons.mp distinct
    unfold linkTimer
    by_cases before : expires timer < expires next
    · rw [if_pos before]
      have shorter : base + expires timer < base + expires next := by omega
      have head : insertDeadline timer (base + expires timer) (agenda expires base (next :: le)) =
          (timer, base + expires timer) :: agenda expires base (next :: le) := by
        rw [agenda_cons, insert_cons, if_pos shorter]
      have sum : base + expires timer + (expires next - expires timer) = base + expires next := by omega
      change agenda (Function.update expires next (expires next - expires timer)) base (timer :: next :: le) = _
      rw [head, agenda_cons, Function.update_of_ne fresh.1, agenda_cons, Function.update_self,
        agenda_update outside, sum, agenda_cons]
    · rw [if_neg before]
      have later : ¬ base + expires timer < base + expires next := by omega
      have tail : insertDeadline timer (base + expires timer) (agenda expires base (next :: le)) =
          (next, base + expires next) ::
            insertDeadline timer (base + expires timer) (agenda expires (base + expires next) le) := by
        rw [agenda_cons, insert_cons, if_neg later]
      have kept : (linkTimer timer le
          (Function.update expires timer (expires timer - expires next))).2 next = expires next := by
        rw [link_other (Ne.symm fresh.1) outside, Function.update_of_ne (Ne.symm fresh.1)]
      have sum : base + expires next + (expires timer - expires next) = base + expires timer := by omega
      change agenda (linkTimer timer le (Function.update expires timer (expires timer - expires next))).2 base
        (next :: (linkTimer timer le (Function.update expires timer (expires timer - expires next))).1) = _
      rw [tail, agenda_cons, kept, ih fresh.2 rest, Function.update_self, agenda_update fresh.2, sum]

theorem next_mem {y : Nat} (found : listNext timer l = some y) : y ∈ l.tail := by
  induction l with
  | nil => cases found
  | cons first le ih =>
    unfold listNext at found
    split_ifs at found
    · exact List.mem_of_mem_head? found
    · exact List.mem_of_mem_tail (ih found)

/- What `del_timer` makes of the deltas: the next timer takes over the one that is deleted. -/
def takenOver (timer : Nat) (l : List Nat) (expires : Nat → Nat) : Nat → Nat :=
  match listNext timer l with
  | some next => Function.update expires next (expires next + expires timer)
  | none => expires

theorem unlink_agenda (linked : timer ∈ l) (distinct : l.Nodup) :
    agenda (takenOver timer l expires) base (l.erase timer) =
      (agenda expires base l).filter fun y => y.1 ≠ timer := by
  induction l generalizing base with
  | nil => cases linked
  | cons first le ih =>
    obtain ⟨outside, rest⟩ := List.nodup_cons.mp distinct
    have all : ∀ {ex : Nat → Nat} {b : Nat} {ls : List Nat}, timer ∉ ls →
        (agenda ex b ls).filter (fun y => y.1 ≠ timer) = agenda ex b ls := by
      intro ex b ls missing
      apply List.filter_eq_self.mpr
      intro y mem
      apply decide_eq_true
      rintro rfl
      exact missing (agenda_mem mem)
    by_cases same : first = timer
    · subst first
      rw [List.erase_cons_head]
      have dropped : (agenda expires base (timer :: le)).filter (fun y => y.1 ≠ timer) =
          agenda expires (base + expires timer) le := by
        rw [agenda_cons, List.filter_cons_of_neg (by simp), all outside]
      rw [dropped]
      unfold takenOver listNext
      rw [if_pos rfl]
      cases le with
      | nil => rfl
      | cons next le =>
        obtain ⟨last, _⟩ := List.nodup_cons.mp rest
        change agenda (Function.update expires next (expires next + expires timer)) base (next :: le) = _
        have sum : base + (expires next + expires timer) = base + expires timer + expires next := by omega
        rw [agenda_cons, agenda_cons, Function.update_self, agenda_update last, sum]
    · have later : timer ∈ le := (List.mem_cons.mp linked).resolve_left (Ne.symm same)
      have different : ¬ (first == timer) = true := by simpa using same
      rw [List.erase_cons_tail different]
      have next : takenOver timer (first :: le) expires = takenOver timer le expires := by
        unfold takenOver
        rw [listNext, if_neg same]
      have kept : takenOver timer le expires first = expires first := by
        unfold takenOver
        cases found : listNext timer le with
        | none => rfl
        | some y =>
          apply Function.update_of_ne
          rintro rfl
          exact outside (List.mem_of_mem_tail (next_mem found))
      rw [agenda_cons, agenda_cons, next, kept, List.filter_cons_of_pos (by simpa using same), ih later rest]

theorem del_run (timer : Nat) (s : TimerState) : delTimer timer s = .ok ((), if timer ∈ s.timers then
    { s with expires := takenOver timer s.timers s.expires, timers := s.timers.erase timer } else s) := by
  unfold delTimer
  rw [run_get_bind]
  by_cases linked : timer ∈ s.timers
  · rw [if_pos linked, if_pos linked]
    by_cases zero : s.expires timer ≠ 0
    · rw [if_pos zero]
      unfold takenOver
      cases listNext timer s.timers with
      | none => rfl
      | some next => rfl
    · rw [if_neg zero]
      have same : takenOver timer s.timers s.expires = s.expires := by
        have none_left : s.expires timer = 0 := not_not.mp zero
        unfold takenOver
        rw [none_left]
        cases listNext timer s.timers with
        | none => rfl
        | some next => exact Function.update_eq_self ..
      rw [same]
      rfl
  · rw [if_neg linked, if_neg linked]
    rfl

theorem insert_mem {remaining : Nat} {rest : List (Nat × Nat)} {y : Nat × Nat} :
    y ∈ insertDeadline timer remaining rest ↔ y = (timer, remaining) ∨ y ∈ rest := by
  induction rest with
  | nil => simp [insertDeadline]
  | cons next le ih =>
    rw [insert_cons]
    split_ifs
    · exact List.mem_cons
    · rw [List.mem_cons, ih, List.mem_cons]
      tauto

/-- Each timer is linked once, none is due, and the processes that they wake are asleep. -/
structure Ok (s : TimerState) : Prop where
  distinct : s.timers.Nodup
  due : ∀ y ∈ s.agenda, 0 < y.2
  asleep : ∀ timer ∈ s.timers, Asleep (s.state (s.proc timer)) (s.waitState (s.proc timer))

/- What waking processes makes of their states, and of what they wait for. -/
def awake (ps : List Nat) (state : Nat → ProcState) (p : Nat) : ProcState :=
  if p ∈ ps then .runnable else state p

def unwaiting (ps : List Nat) (state : Nat → ProcState) (waitState : Nat → WaitState) (p : Nat) : WaitState :=
  if p ∈ ps ∧ state p ≠ .runnable then .none else waitState p

theorem awake_cons {p : Nat} {ps : List Nat} {state : Nat → ProcState} :
    awake (p :: ps) state = awake ps (awake [p] state) := by
  funext q
  unfold awake
  simp only [List.mem_cons, List.not_mem_nil, or_false]
  by_cases later : q ∈ ps
  · rw [if_pos (.inr later), if_pos later]
  · rw [if_neg later]
    simp only [later, or_false]

/- A process that is woken twice waits for nothing after the first time. -/
theorem unwaiting_cons {p : Nat} {ps : List Nat} {state : Nat → ProcState} {waitState : Nat → WaitState} :
    unwaiting (p :: ps) state waitState = unwaiting ps (awake [p] state) (unwaiting [p] state waitState) := by
  funext q
  unfold unwaiting awake
  simp only [List.mem_cons, List.not_mem_nil, or_false]
  by_cases first : q = p
  · simp [first]
  · simp [first]

theorem asleep_kept {ps : List Nat} {state : Nat → ProcState} {waitState : Nat → WaitState} {q : Nat}
    (asleep : Asleep (state q) (waitState q)) : Asleep (awake ps state q) (unwaiting ps state waitState q) := by
  unfold awake unwaiting
  by_cases woken : q ∈ ps
  · rw [if_pos woken]
    refine ⟨by decide, ?_⟩
    split_ifs
    · exact fun waits => absurd rfl waits
    · exact asleep.2
  · rw [if_neg woken, if_neg fun both => woken both.1]
    exact asleep

/- The process of a timer is woken. -/
theorem wakeup_run {p : Nat} (alive : s.state p ≠ .zombie) : wakeupProc p s = .ok ((), { s with
    state := awake [p] s.state, waitState := unwaiting [p] s.state s.waitState, woken := s.woken ++ [p] }) := by
  unfold wakeupProc
  rw [run_get_bind, run_check_bind alive]
  by_cases sleeps : s.state p ≠ .runnable
  · rw [if_pos sleeps]
    have state : awake [p] s.state = Function.update s.state p .runnable := by
      funext q
      unfold awake
      by_cases same : q = p
      · rw [if_pos (List.mem_singleton.mpr same), same, Function.update_self]
      · rw [if_neg fun mem => same (List.mem_singleton.mp mem), Function.update_of_ne same]
    have waitState : unwaiting [p] s.state s.waitState = Function.update s.waitState p .none := by
      funext q
      unfold unwaiting
      by_cases same : q = p
      · rw [same, if_pos ⟨List.mem_singleton_self p, sleeps⟩, Function.update_self]
      · rw [if_neg fun both => same (List.mem_singleton.mp both.1), Function.update_of_ne same]
    rw [state, waitState]
    rfl
  · rw [if_neg sleeps]
    have runnable : s.state p = .runnable := not_not.mp sleeps
    have state : awake [p] s.state = s.state := by
      funext q
      unfold awake
      split_ifs with mem
      · rw [List.mem_singleton.mp mem, runnable]
      · rfl
    have waitState : unwaiting [p] s.state s.waitState = s.waitState := by
      funext q
      unfold unwaiting
      refine if_neg fun both => both.2 ?_
      rw [List.mem_singleton.mp both.1, runnable]
    rw [state, waitState]
    rfl

/- The loop of a tick: the timers that are due fire, in the order of the list. -/
theorem expire_run (distinct : s.timers.Nodup)
    (asleep : ∀ timer ∈ s.timers, Asleep (s.state (s.proc timer)) (s.waitState (s.proc timer))) :
    ∃ t, expire s.timers s = .ok ((), t) ∧ Ok t ∧ t.agenda = s.agenda.filter (fun y => 0 < y.2) ∧
      t.woken = s.woken ++ ((s.agenda.filter fun y => y.2 = 0).map Prod.fst).map s.proc ∧
      t.proc = s.proc ∧ t.state = awake (((s.agenda.filter fun y => y.2 = 0).map Prod.fst).map s.proc) s.state ∧
      t.waitState = unwaiting (((s.agenda.filter fun y => y.2 = 0).map Prod.fst).map s.proc) s.state s.waitState := by
  obtain ⟨timers, expires, proc, state, waitState, woken⟩ := s
  induction timers generalizing state waitState woken with
  | nil =>
    refine ⟨_, rfl, ⟨distinct, fun y mem => (by cases mem), asleep⟩, rfl, (List.append_nil _).symm, rfl, ?_, ?_⟩
    · funext q
      exact (if_neg List.not_mem_nil).symm
    · funext q
      exact (if_neg fun both => List.not_mem_nil both.1).symm
  | cons timer le ih =>
    dsimp only at distinct asleep ih ⊢
    obtain ⟨outside, rest⟩ := List.nodup_cons.mp distinct
    unfold expire
    rw [run_get_bind]
    by_cases zero : expires timer = 0
    · obtain ⟨alive, interrupted⟩ := asleep timer (List.mem_cons_self ..)
      let s : TimerState := ⟨timer :: le, expires, proc, state, waitState, woken⟩
      have woke := wakeup_run (s := s) (p := proc timer) alive
      have deleted := del_run timer ⟨timer :: le, expires, proc, awake [proc timer] state,
        unwaiting [proc timer] state waitState, woken ++ [proc timer]⟩
      have same : takenOver timer (timer :: le) expires = expires := by
        unfold takenOver
        rw [zero]
        cases listNext timer (timer :: le) with
        | none => rfl
        | some next => exact Function.update_eq_self ..
      rw [if_pos (List.mem_cons_self ..), same, List.erase_cons_head] at deleted
      obtain ⟨t, ran, ok, left, woken', procs, states, waits'⟩ := ih _ _ (woken ++ [proc timer]) rest
        fun x mem => asleep_kept (asleep x (List.mem_cons_of_mem _ mem))
      have base : agenda expires 0 (timer :: le) = (timer, 0) :: agenda expires 0 le := by
        rw [agenda_cons, zero]
      have fired : ((agenda expires 0 (timer :: le)).filter fun y => y.2 = 0).map Prod.fst =
          timer :: ((agenda expires 0 le).filter fun y => y.2 = 0).map Prod.fst := by
        rw [base, List.filter_cons_of_pos (by simp), List.map_cons]
      refine ⟨t, ?_, ok, ?_, ?_, procs, ?_, ?_⟩
      · have rest_run : (wakeupProc (proc timer) >>= fun _ => delTimer timer >>= fun _ => expire le) s =
            .ok ((), t) := by
          rw [run_bind woke, run_bind deleted]
          exact ran
        rw [if_pos zero]
        by_cases waits : waitState (proc timer) ≠ .none
        · change (ite (waitState (proc timer) ≠ .none) _ _ : TimerM Unit) s = _
          rw [if_pos waits, run_check_bind (interrupted waits)]
          exact rest_run
        · change (ite (waitState (proc timer) ≠ .none) _ _ : TimerM Unit) s = _
          rw [if_neg waits]
          exact rest_run
      · rw [left]
        change (agenda expires 0 le).filter _ = (agenda expires 0 (timer :: le)).filter _
        rw [base, List.filter_cons_of_neg (by simp)]
      · rw [woken']
        change _ ++ (((agenda expires 0 le).filter _).map _).map proc =
          woken ++ (((agenda expires 0 (timer :: le)).filter _).map _).map proc
        rw [fired, List.map_cons, List.append_assoc]
        rfl
      · rw [states]
        change _ = awake ((((agenda expires 0 (timer :: le)).filter _).map _).map proc) state
        rw [fired, List.map_cons]
        exact awake_cons.symm
      · rw [waits']
        change _ = unwaiting ((((agenda expires 0 (timer :: le)).filter _).map _).map proc) state waitState
        rw [fired, List.map_cons]
        exact unwaiting_cons.symm
    · rw [if_neg zero]
      have positive : ∀ y ∈ agenda expires 0 (timer :: le), 0 < y.2 := by
        intro y mem
        rw [agenda_cons] at mem
        rcases List.mem_cons.mp mem with rfl | later
        · change 0 < 0 + expires timer
          omega
        · have low := agenda_ge later
          omega
      have none_due : (agenda expires 0 (timer :: le)).filter (fun y => y.2 = 0) = [] := by
        apply List.filter_eq_nil_iff.mpr
        intro y mem
        have := positive y mem
        simp
        omega
      refine ⟨_, rfl, ⟨distinct, positive, asleep⟩, ?_, ?_, rfl, ?_, ?_⟩
      · exact (List.filter_eq_self.mpr fun y mem => decide_eq_true (positive y mem)).symm
      · change woken = woken ++ (((agenda expires 0 (timer :: le)).filter _).map _).map proc
        rw [none_due]
        exact (List.append_nil _).symm
      · change state = awake ((((agenda expires 0 (timer :: le)).filter _).map _).map proc) state
        rw [none_due]
        funext q
        exact (if_neg List.not_mem_nil).symm
      · change waitState = unwaiting ((((agenda expires 0 (timer :: le)).filter _).map _).map proc) state waitState
        rw [none_due]
        funext q
        exact (if_neg fun both => List.not_mem_nil both.1).symm

/- What an operation does, seen on the deadlines. -/
def Follows (op : TimerOp) (s t : TimerState) : Prop := t.agenda = op.apply s.agenda ∧ op.Wakes s t

/- No timer fires, and the processes are as before. -/
theorem wakes_none {op : TimerOp} (quiet : op.fires s.agenda = []) (woken : t.woken = s.woken)
    (others : ∀ p, (∀ state waitState, op ≠ .proc p state waitState) →
      t.state p = s.state p ∧ t.waitState p = s.waitState p) : op.Wakes s t := by
  refine ⟨?_, fun timer fires => ?_, fun p _ => others p⟩
  · rw [quiet, woken]
    exact (List.append_nil _).symm
  · rw [quiet] at fires
    cases fires

theorem wakes_all {op : TimerOp} (woken : t.woken = s.woken ++ (op.fires s.agenda).map s.proc)
    (states : t.state = awake ((op.fires s.agenda).map s.proc) s.state)
    (waits : t.waitState = unwaiting ((op.fires s.agenda).map s.proc) s.state s.waitState) : op.Wakes s t := by
  refine ⟨woken, fun timer fires => ⟨?_, fun sleeps => ?_⟩, fun p missed _ => ⟨?_, ?_⟩⟩
  · rw [states]
    exact if_pos (List.mem_map_of_mem fires)
  · rw [waits]
    exact if_pos ⟨List.mem_map_of_mem fires, sleeps⟩
  · rw [states]
    exact if_neg missed
  · rw [waits]
    exact if_neg fun both => missed both.1

theorem add_step {e p : Nat} (ok : Ok s) (possible : (TimerOp.add timer e p).Possible s) :
    ∃ t, (TimerOp.add timer e p).run s = .ok ((), t) ∧ Ok t ∧ t.proc = Function.update s.proc timer p ∧
      Follows (.add timer e p) s t := by
  obtain ⟨fresh, positive, asleep⟩ := possible
  let expires := Function.update s.expires timer e
  have own : expires timer = e := Function.update_self ..
  have same : agenda expires 0 s.timers = s.agenda := agenda_update fresh
  have linked : agenda (linkTimer timer s.timers expires).2 0 (linkTimer timer s.timers expires).1 =
      insertDeadline timer e s.agenda := by
    rw [link_agenda fresh ok.distinct, same, own, Nat.zero_add]
  let t : TimerState := { s with
    timers := (linkTimer timer s.timers expires).1
    expires := (linkTimer timer s.timers expires).2
    proc := Function.update s.proc timer p }
  refine ⟨t, ?_, ⟨?_, ?_, ?_⟩, rfl, linked, wakes_none rfl rfl fun _ _ => ⟨rfl, rfl⟩⟩
  · have pending : expires timer > 0 := by
      rw [own]
      exact positive
    change addTimer timer { s with expires := expires, proc := Function.update s.proc timer p } = _
    unfold addTimer
    rw [run_get_bind, run_check_bind pending, run_check_bind fresh]
    rfl
  · exact link_perm.nodup_iff.mpr (List.nodup_cons.mpr ⟨fresh, ok.distinct⟩)
  · intro y mem
    have placed : y ∈ insertDeadline timer e s.agenda := linked ▸ mem
    rcases insert_mem.mp placed with rfl | old
    · exact positive
    · exact ok.due y old
  · intro x mem
    change Asleep (s.state (Function.update s.proc timer p x)) (s.waitState (Function.update s.proc timer p x))
    rcases List.mem_cons.mp (link_perm.mem_iff.mp mem) with rfl | old
    · rw [Function.update_self]
      exact asleep
    · have other : x ≠ timer := by
        rintro rfl
        exact fresh old
      rw [Function.update_of_ne other]
      exact ok.asleep x old

theorem del_step (ok : Ok s) :
    ∃ t, (TimerOp.del timer).run s = .ok ((), t) ∧ Ok t ∧ Follows (.del timer) s t := by
  refine ⟨_, del_run timer s, ?_⟩
  by_cases linked : timer ∈ s.timers
  · rw [if_pos linked]
    have left : agenda (takenOver timer s.timers s.expires) 0 (s.timers.erase timer) =
        s.agenda.filter fun y => y.1 ≠ timer := unlink_agenda linked ok.distinct
    refine ⟨⟨ok.distinct.erase timer, ?_, fun x mem => ok.asleep x (List.mem_of_mem_erase mem)⟩, left,
      wakes_none rfl rfl fun _ _ => ⟨rfl, rfl⟩⟩
    intro y mem
    have kept : y ∈ s.agenda.filter fun y => y.1 ≠ timer := left ▸ mem
    exact ok.due y (List.mem_of_mem_filter kept)
  · rw [if_neg linked]
    refine ⟨ok, ?_, wakes_none rfl rfl fun _ _ => ⟨rfl, rfl⟩⟩
    refine (List.filter_eq_self.mpr fun y mem => decide_eq_true ?_).symm
    rintro rfl
    exact linked (agenda_mem mem)

theorem tick_step (ok : Ok s) : ∃ t, TimerOp.tick.run s = .ok ((), t) ∧ Ok t ∧ t.proc = s.proc ∧
    Follows .tick s t := by
  obtain ⟨timers, expires, proc, state, waitState, woken⟩ := s
  cases timers with
  | nil => exact ⟨_, rfl, ok, rfl, rfl, wakes_none rfl rfl fun _ _ => ⟨rfl, rfl⟩⟩
  | cons timer le =>
    have outside := (List.nodup_cons.mp ok.distinct).1
    have positive : 0 < 0 + expires timer := ok.due _ (List.mem_cons_self ..)
    have nonzero : expires timer ≠ 0 := by omega
    let s : TimerState := ⟨timer :: le, Function.update expires timer (expires timer - 1), proc, state,
      waitState, woken⟩
    -- one less remains to every timer
    have shifted : s.agenda = (agenda expires 0 (timer :: le)).map fun y => (y.1, y.2 - 1) := by
      have first : expires timer - 1 + 1 = expires timer := by omega
      change agenda (Function.update expires timer (expires timer - 1)) 0 (timer :: le) = _
      rw [agenda_cons, agenda_cons, Function.update_self, agenda_update outside, List.map_cons, agenda_shift]
      have sums : 0 + (expires timer - 1) + 1 = 0 + expires timer := by omega
      have less : 0 + (expires timer - 1) = 0 + expires timer - 1 := by omega
      rw [sums, less]
    obtain ⟨t, ran, after, left, fired, procs, states, waits⟩ := expire_run (s := s) ok.distinct ok.asleep
    refine ⟨t, ?_, after, procs, ?_, ?_⟩
    · change runTimerList _ = _
      unfold runTimerList
      rw [run_get_bind]
      change (check TimerStop.assertion (expires timer ≠ 0) >>= _ : TimerM Unit) _ = _
      rw [run_check_bind nonzero]
      exact ran
    · rw [left, shifted, List.filter_map]
      change _ = ((agenda expires 0 (timer :: le)).filter _).map _
      congr 1
      apply List.filter_congr
      intro y mem
      simp only [Function.comp_apply, decide_eq_decide]
      omega
    · have same : (agenda expires 0 (timer :: le)).filter
          ((fun y : Nat × Nat => decide (y.2 = 0)) ∘ fun y => (y.1, y.2 - 1)) =
          (agenda expires 0 (timer :: le)).filter fun y => y.2 ≤ 1 := by
        apply List.filter_congr
        intro y mem
        simp only [Function.comp_apply, decide_eq_decide]
        omega
      have now : (s.agenda.filter fun y => y.2 = 0).map Prod.fst =
          TimerOp.tick.fires (agenda expires 0 (timer :: le)) := by
        rw [shifted, List.filter_map, same, List.map_map (g := Prod.fst)]
        rfl
      rw [now] at fired states waits
      exact wakes_all fired states waits

theorem proc_step {p : Nat} {st : ProcState} {w : WaitState} (ok : Ok s)
    (possible : (TimerOp.proc p st w).Possible s) :
    ∃ t, (TimerOp.proc p st w).run s = .ok ((), t) ∧ Ok t ∧ Follows (.proc p st w) s t := by
  refine ⟨_, rfl, ⟨ok.distinct, ok.due, ?_⟩, rfl, wakes_none rfl rfl fun q other => ?_⟩
  rotate_left
  · have different : q ≠ p := fun same => other st w (same ▸ rfl)
    exact ⟨Function.update_of_ne different .., Function.update_of_ne different ..⟩
  intro timer mem
  change Asleep (Function.update s.state p st (s.proc timer)) (Function.update s.waitState p w (s.proc timer))
  by_cases same : s.proc timer = p
  · rw [same, Function.update_self, Function.update_self]
    exact possible ⟨timer, mem, same⟩
  · rw [Function.update_of_ne same, Function.update_of_ne same]
    exact ok.asleep timer mem

/- No assertion fails. -/
theorem op_step {op : TimerOp} (ok : Ok s) (possible : op.Possible s) :
    ∃ t, op.run s = .ok ((), t) ∧ Ok t ∧ Follows op s t := by
  cases op with
  | add timer e p =>
    obtain ⟨t, ran, after, _, follows⟩ := add_step ok possible
    exact ⟨t, ran, after, follows⟩
  | del timer => exact del_step ok
  | tick =>
    obtain ⟨t, ran, after, _, follows⟩ := tick_step ok
    exact ⟨t, ran, after, follows⟩
  | proc p st w => exact proc_step ok possible

theorem step_follows {op : TimerOp} (ok : Ok s) (step : TimerStep s op t) : Ok t ∧ Follows op s t := by
  obtain ⟨u, ran, after⟩ := op_step ok step.1
  rw [step.2] at ran
  cases ran
  exact after

theorem run_ok {ops : List TimerOp} (ok : Ok s) (run : Run TimerStep s ops t) : Ok t := by
  have keep : ∀ s op t, Ok s → TimerStep s op t → Ok t := fun _ _ _ ok step => (step_follows ok step).1
  exact run_invariant keep run ok

/- How often the clock ticks. -/
def ticks (ops : List TimerOp) : Nat := ops.countP fun op => match op with | .tick => true | _ => false

/- A timer that is linked keeps its process. -/
theorem step_proc {op : TimerOp} (ok : Ok s) (linked : timer ∈ s.timers) (step : TimerStep s op t) :
    t.proc timer = s.proc timer := by
  cases op with
  | add other e p =>
    obtain ⟨u, ran, _, procs, _⟩ := add_step ok step.1
    cases ran.symm.trans step.2
    have other_timer : timer ≠ other := by
      rintro rfl
      exact step.1.1 linked
    rw [procs, Function.update_of_ne other_timer]
  | del other =>
    cases (del_run other s).symm.trans step.2
    split_ifs <;> rfl
  | tick =>
    obtain ⟨u, ran, _, procs, _⟩ := tick_step ok
    cases ran.symm.trans step.2
    rw [procs]
  | proc p st w =>
    cases step.2
    rfl

/- The time of a timer runs with the clock. -/
theorem remaining_run {ops : List TimerOp} {e : Nat} (ok : Ok s) (pending : (timer, e) ∈ s.agenda)
    (run : Run TimerStep s ops t) (kept : .del timer ∉ ops) (early : ticks ops < e) :
    (timer, e - ticks ops) ∈ t.agenda ∧ t.proc timer = s.proc timer := by
  induction run generalizing e with
  | stop s => exact ⟨pending, rfl⟩
  | @call s t u op ops first rest ih =>
    obtain ⟨after, follows, _⟩ := step_follows ok first
    rw [← step_proc ok (agenda_mem pending) first]
    rw [List.mem_cons, not_or] at kept
    cases op with
    | add other d p =>
      apply ih after _ kept.2 early
      rw [follows]
      exact insert_mem.mpr (.inr pending)
    | del other =>
      apply ih after _ kept.2 early
      rw [follows]
      have other_timer : timer ≠ other := fun same => kept.1 (congrArg TimerOp.del same)
      exact List.mem_filter.mpr ⟨pending, decide_eq_true other_timer⟩
    | tick =>
      have counts : ticks (.tick :: ops) = ticks ops + 1 := List.countP_cons_of_pos rfl
      rw [counts] at early ⊢
      have sooner : (timer, e - 1) ∈ t.agenda := by
        rw [follows]
        apply List.mem_map.mpr
        exact ⟨(timer, e), List.mem_filter.mpr ⟨pending, decide_eq_true (by dsimp only; omega)⟩, rfl⟩
      have late := ih after sooner kept.2 (by omega)
      have sum : e - (ticks ops + 1) = e - 1 - ticks ops := by omega
      rw [sum]
      exact late
    | proc p st w =>
      apply ih after _ kept.2 early
      rw [follows]
      exact pending

/- A timer with one tick left fires in the next, and wakes its process. -/
theorem last_tick (ok : Ok s) (pending : (timer, 1) ∈ s.agenda) (step : TimerStep s .tick t) :
    timer ∈ TimerOp.tick.fires s.agenda ∧ timer ∉ t.timers ∧ t.state (s.proc timer) = .runnable ∧
      (s.state (s.proc timer) ≠ .runnable → t.waitState (s.proc timer) = .none) := by
  obtain ⟨after, follows, wakes⟩ := step_follows ok step
  have fires : timer ∈ TimerOp.tick.fires s.agenda :=
    List.mem_map.mpr ⟨(timer, 1), List.mem_filter.mpr ⟨pending, rfl⟩, rfl⟩
  refine ⟨fires, fun linked => ?_, wakes.runnable timer fires⟩
  have keys : s.agenda.map Prod.fst = s.timers := agenda_timers
  have left : timer ∈ t.agenda.map Prod.fst := by
    have timers : t.agenda.map Prod.fst = t.timers := agenda_timers
    rw [timers]
    exact linked
  rw [follows, TimerOp.apply, List.map_map] at left
  obtain ⟨y, mem, same⟩ := List.mem_map.mp left
  obtain ⟨there, more⟩ := List.mem_filter.mp mem
  have distinct : (s.agenda.map Prod.fst).Nodup := by
    rw [keys]
    exact ok.distinct
  have equal : y = (timer, 1) := List.inj_on_of_nodup_map distinct there pending same
  rw [equal] at more
  exact absurd (of_decide_eq_true more) (Nat.lt_irrefl 1)

end

/- No timer is linked. -/
def NoTimers (s : TimerState) : Prop := s.timers = []

theorem no_timers_ok {s : TimerState} (none_linked : NoTimers s) : Ok s := by
  have empty : s.agenda = [] := by
    unfold TimerState.agenda
    rw [none_linked]
    rfl
  refine ⟨?_, ?_, ?_⟩
  · rw [none_linked]
    exact List.nodup_nil
  · rw [empty]
    exact fun y mem => absurd mem List.not_mem_nil
  · rw [none_linked]
    exact fun x mem => absurd mem List.not_mem_nil

/-- After every run, no operation stops, and each does to the list what it is meant to do to the
deadlines, which are all in the future, and wakes the processes of the timers that fire; a timer that is
added and not deleted keeps its time less the ticks, and on the tick that makes it zero it fires, leaves the
list and wakes the process that it was added for. -/
theorem timers_refine_deadlines {s₀ s : TimerState} {ops : List TimerOp} (start : NoTimers s₀)
    (run : Run TimerStep s₀ ops s) :
    (∀ y ∈ s.agenda, 0 < y.2) ∧
    (∀ op : TimerOp, op.Possible s → ∃ t, op.run s = .ok ((), t) ∧ t.agenda = op.apply s.agenda ∧ op.Wakes s t) ∧
    ∀ timer e p later t, Run TimerStep s (.add timer e p :: later) t → .del timer ∉ later →
      (ticks later < e → (timer, e - ticks later) ∈ t.agenda) ∧
      (ticks later + 1 = e → ∀ u, TimerStep t .tick u → timer ∈ TimerOp.tick.fires t.agenda ∧ timer ∉ u.timers ∧
        u.state p = .runnable ∧ (t.state p ≠ .runnable → u.waitState p = .none)) := by
  have ok : Ok s := run_ok (no_timers_ok start) run
  refine ⟨ok.due, ?_, ?_⟩
  · intro op possible
    obtain ⟨t, ran, _, follows⟩ := op_step ok possible
    exact ⟨t, ran, follows⟩
  · intro timer e p later t more kept
    cases more with
    | @call _ u _ _ _ first rest =>
      obtain ⟨v, ran, after, procs, follows, _⟩ := add_step ok first.1
      cases ran.symm.trans first.2
      have pending : (timer, e) ∈ u.agenda := by
        rw [follows]
        exact insert_mem.mpr (.inl rfl)
      refine ⟨fun early => (remaining_run after pending rest kept early).1, fun last w tick => ?_⟩
      obtain ⟨one_left, proc⟩ := remaining_run after pending rest kept (by omega)
      have one : e - ticks later = 1 := by omega
      rw [one] at one_left
      rw [procs, Function.update_self] at proc
      rw [← proc]
      exact last_tick (run_ok after rest) one_left tick

def idleTimers : TimerState where
  timers := []
  expires := fun _ => 0
  proc := fun _ => 0
  state := fun _ => .sleeping
  waitState := fun _ => .timer
  woken := []

/- Two timers with the same deadline, added at different times. -/
def twoSleepers : List TimerOp := [.add 1 2 7, .tick, .add 2 1 8]

theorem two_sleepers_wake : ∃ t, Run TimerStep idleTimers twoSleepers t ∧
    ∃ u, TimerOp.tick.run t = .ok ((), u) ∧ u.agenda = [] ∧ u.woken = [7, 8] ∧
      (u.state 7 = .runnable ∧ u.waitState 7 = .none) ∧ u.state 8 = .runnable ∧ u.waitState 8 = .none := by
  have run : Run TimerStep idleTimers twoSleepers _ :=
    .call ⟨⟨by decide, by decide, by decide, fun _ => rfl⟩, rfl⟩ (.call ⟨trivial, rfl⟩
      (.call ⟨⟨by decide, by decide, by decide, fun _ => rfl⟩, rfl⟩ (.stop _)))
  have start : NoTimers idleTimers := rfl
  obtain ⟨u, ran, left, wakes⟩ := (timers_refine_deadlines start run).2.1 .tick trivial
  obtain ⟨seven, first⟩ := wakes.runnable 1 (by decide)
  obtain ⟨eight, second⟩ := wakes.runnable 2 (by decide)
  exact ⟨_, run, u, ran, left, wakes.woken, ⟨seven, first (by decide)⟩, eight, second (by decide)⟩

end Ucore.TimerList
