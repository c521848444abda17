import Ucore.Lib.Transitions

/- `get_pid` of lab8/kern/process/proc.c: two static variables let it skip the walk over `proc_list`. -/
namespace Ucore.GetPid
open Transitions

def MAX_PROCESS : Nat := 4096
def MAX_PID : Nat := MAX_PROCESS * 2

/-- The static variables of `get_pid`, and the pids on `proc_list`. -/
structure PidState where
  nextSafe : Nat
  lastPid : Nat
  procList : List Nat
  deriving DecidableEq

/- How a walk over `proc_list` ends: with both variables, or with `goto repeat`. -/
inductive Scan where
  | done (lastPid nextSafe : Nat)
  | again (lastPid : Nat)

def scan (maxPid : Nat) : List Nat → Nat → Nat → Scan
  | [], lastPid, nextSafe => .done lastPid nextSafe
  | pid :: le, lastPid, nextSafe =>
      if pid = lastPid then
        if lastPid + 1 ≥ nextSafe then .again (if lastPid + 1 ≥ maxPid then 1 else lastPid + 1)
        else scan maxPid le (lastPid + 1) nextSafe
      else if pid > lastPid ∧ nextSafe > pid then scan maxPid le lastPid pid
      else scan maxPid le lastPid nextSafe

/- From the label `inside`; `fuel` bounds how often the walk is repeated. -/
def inside (maxPid : Nat) (procList : List Nat) : Nat → Nat → Option (Nat × Nat)
  | 0, _ => none
  | fuel + 1, lastPid =>
      match scan maxPid procList lastPid maxPid with
      | .done lastPid nextSafe => some (lastPid, nextSafe)
      | .again lastPid => inside maxPid procList fuel lastPid

def getPid (maxPid : Nat) (s : PidState) : Option (Nat × PidState) :=
  let lastPid := s.lastPid + 1
  let found :=
    if lastPid ≥ maxPid then inside maxPid s.procList maxPid 1
    else if lastPid ≥ s.nextSafe then inside maxPid s.procList maxPid lastPid
    else some (lastPid, s.nextSafe)
  found.map fun (pid, nextSafe) => (pid, { s with lastPid := pid, nextSafe })

/-- What changes the pids in use: a fork, which may fail after `get_pid`, and a reaped process. The
order of `proc_list` may be any. -/
inductive PidOp where
  | fork (kept : Bool)
  | reap (pid : Nat)
  | reorder (procList : List Nat)

/-- `nr_process` counts the idle process too, which is not on the list. -/
def PidOp.Possible (maxProcess : Nat) (s : PidState) : PidOp → Prop
  | .fork _ => s.procList.length + 1 < maxProcess
  | .reap pid => pid ∈ s.procList
  | .reorder procList => procList.Perm s.procList

def PidOp.run (maxPid : Nat) (s : PidState) : PidOp → Option PidState
  | .fork kept => (getPid maxPid s).map fun (pid, t) =>
      if kept then { t with procList := pid :: t.procList } else t
  | .reap pid => some { s with procList := s.procList.erase pid }
  | .reorder procList => some { s with procList }

def PidStep (maxProcess maxPid : Nat) (s : PidState) (op : PidOp) (t : PidState) : Prop :=
  op.Possible maxProcess s ∧ op.run maxPid s = some t

def bootPids (maxPid : Nat) : PidState := ⟨maxPid, maxPid, []⟩

/-- No pid in use lies between the variables. -/
structure Safe (maxPid : Nat) (s : PidState) : Prop where
  between : ∀ pid ∈ s.procList, ¬ (s.lastPid < pid ∧ pid < s.nextSafe)
  last : s.lastPid ≤ maxPid
  next : s.nextSafe ≤ maxPid
  distinct : s.procList.Nodup
  range : ∀ pid ∈ s.procList, 1 ≤ pid ∧ pid < maxPid

section
variable {maxPid maxProcess lastPid nextSafe fuel free : Nat} {procList : List Nat} {s t : PidState}

/- A walk that ends has passed every process; one that is repeated has only counted up through pids in
use. -/
theorem scan_ends (maxPid : Nat) (procList : List Nat) (below : lastPid < nextSafe) :
    match scan maxPid procList lastPid nextSafe with
    | .done last next => lastPid ≤ last ∧ last < next ∧ next ≤ nextSafe ∧
        ∀ pid ∈ procList, pid < last ∨ next ≤ pid
    | .again last => ∃ reached, lastPid < reached ∧
        (∀ pid, lastPid ≤ pid → pid < reached → pid ∈ procList) ∧
        last = if reached ≥ maxPid then 1 else reached := by
  induction procList generalizing lastPid nextSafe with
  | nil => exact ⟨le_refl _, below, le_refl _, fun pid mem => absurd mem List.not_mem_nil⟩
  | cons pid le ih =>
    unfold scan
    by_cases same : pid = lastPid
    · rw [if_pos same]
      by_cases full : lastPid + 1 ≥ nextSafe
      · rw [if_pos full]
        refine ⟨lastPid + 1, Nat.lt_succ_self _, ?_, rfl⟩
        intro other low high
        obtain rfl : other = pid := by omega
        exact List.mem_cons_self ..
      · rw [if_neg full]
        have room : lastPid + 1 < nextSafe := by omega
        have rest := ih room
        cases outcome : scan maxPid le (lastPid + 1) nextSafe with
        | done last next =>
          rw [outcome] at rest
          obtain ⟨low, lt, high, passed⟩ := rest
          refine ⟨by omega, lt, high, ?_⟩
          intro other mem
          rcases List.mem_cons.mp mem with rfl | later
          · exact .inl (by omega)
          · exact passed other later
        | again last =>
          rw [outcome] at rest
          obtain ⟨reached, more, used, wrapped⟩ := rest
          refine ⟨reached, by omega, ?_, wrapped⟩
          intro other low high
          by_cases first : other = pid
          · rw [first]
            exact List.mem_cons_self ..
          · exact List.mem_cons_of_mem _ (used other (by omega) high)
    · rw [if_neg same]
      by_cases closer : pid > lastPid ∧ nextSafe > pid
      · rw [if_pos closer]
        have rest := ih closer.1
        cases outcome : scan maxPid le lastPid pid with
        | done last next =>
          rw [outcome] at rest
          obtain ⟨low, lt, high, passed⟩ := rest
          refine ⟨low, lt, by omega, ?_⟩
          intro other mem
          rcases List.mem_cons.mp mem with rfl | later
          · exact .inr high
          · exact passed other later
        | again last =>
          rw [outcome] at rest
          obtain ⟨reached, more, used, wrapped⟩ := rest
          exact ⟨reached, more, fun other low high => List.mem_cons_of_mem _ (used other low high), wrapped⟩
      · rw [if_neg closer]
        have rest := ih below
        cases outcome : scan maxPid le lastPid nextSafe with
        | done last next =>
          rw [outcome] at rest
          obtain ⟨low, lt, high, passed⟩ := rest
          refine ⟨low, lt, high, ?_⟩
          intro other mem
          rcases List.mem_cons.mp mem with rfl | later
          · omega
          · exact passed other later
        | again last =>
          rw [outcome] at rest
          obtain ⟨reached, more, used, wrapped⟩ := rest
          exact ⟨reached, more, fun other low high => List.mem_cons_of_mem _ (used other low high), wrapped⟩

/- How far it is, counting up and around, from a pid to one that is free. -/
def distance (maxPid free pid : Nat) : Nat := if pid ≤ free then free - pid else free + (maxPid - 1 - pid)

/- Every repetition comes closer to the free pid. -/
theorem inside_ends (unused : free ∉ procList) (positive : 1 ≤ free) (small : free < maxPid)
    (start : 1 ≤ lastPid) (inRange : lastPid < maxPid) (enough : distance maxPid free lastPid < fuel) :
    ∃ last next, inside maxPid procList fuel lastPid = some (last, next) ∧ 1 ≤ last ∧ last < next ∧
      next ≤ maxPid ∧ ∀ pid ∈ procList, pid < last ∨ next ≤ pid := by
  induction fuel generalizing lastPid with
  | zero => exact absurd enough (Nat.not_lt_zero _)
  | succ fuel ih =>
    unfold inside
    have walked := scan_ends maxPid procList inRange
    cases outcome : scan maxPid procList lastPid maxPid with
    | done last next =>
      rw [outcome] at walked
      obtain ⟨low, lt, high, passed⟩ := walked
      exact ⟨last, next, rfl, by omega, lt, high, passed⟩
    | again last =>
      rw [outcome] at walked
      obtain ⟨reached, more, used, rfl⟩ := walked
      -- the free pid is not among those that were counted through
      have missed : free < lastPid ∨ reached ≤ free := by
        by_contra between
        exact unused (used free (by omega) (by omega))
      unfold distance at enough
      by_cases wrapped : reached ≥ maxPid
      · rw [if_pos wrapped]
        apply ih (le_refl 1) (by omega)
        unfold distance
        split_ifs at enough ⊢ <;> omega
      · rw [if_neg wrapped]
        apply ih (by omega) (by omega)
        unfold distance
        split_ifs at enough ⊢ <;> omega

theorem distance_lt (small : free < maxPid) (start : 1 ≤ lastPid)
    (inRange : lastPid < maxPid) : distance maxPid free lastPid < maxPid := by
  unfold distance
  split_ifs <;> omega

/- There are more pids than processes. -/
theorem some_pid_free (few : procList.length + 1 < maxPid) :
    ∃ free, free ∉ procList ∧ 1 ≤ free ∧ free < maxPid := by
  by_contra none_free
  have all : Finset.Icc 1 (maxPid - 1) ⊆ procList.toFinset := by
    intro pid mem
    rw [Finset.mem_Icc] at mem
    by_contra unused
    rw [List.mem_toFinset] at unused
    exact none_free ⟨pid, unused, mem.1, by omega⟩
  have card := (Finset.card_le_card all).trans (List.toFinset_card_le _)
  rw [Nat.card_Icc] at card
  omega

/-- A call of `get_pid` returns a pid that is not in use. -/
theorem get_pid_fresh (safe : Safe maxPid s) (few : s.procList.length + 1 < maxPid) :
    ∃ pid t, getPid maxPid s = some (pid, t) ∧ 1 ≤ pid ∧ pid < maxPid ∧ pid ∉ s.procList ∧
      t.procList = s.procList ∧ t.lastPid = pid ∧ Safe maxPid t := by
  obtain ⟨free, unused, positive, small⟩ := some_pid_free few
  have walk : ∀ start, 1 ≤ start → start < maxPid → ∃ last next,
      inside maxPid s.procList maxPid start = some (last, next) ∧ 1 ≤ last ∧ last < next ∧
        next ≤ maxPid ∧ ∀ pid ∈ s.procList, pid < last ∨ next ≤ pid :=
    fun start low high => inside_ends unused positive small low high (distance_lt small low high)
  have passed_safe : ∀ last next, last < next → next ≤ maxPid →
      (∀ pid ∈ s.procList, pid < last ∨ next ≤ pid) →
      last ∉ s.procList ∧ Safe maxPid { s with lastPid := last, nextSafe := next } := by
    intro last next lt high passed
    refine ⟨fun mem => ?_, ⟨fun pid mem => ?_, lt.le.trans high, high, safe.distinct, safe.range⟩⟩
    · have := passed last mem
      omega
    · have := passed pid mem
      dsimp only
      omega
  unfold getPid
  by_cases wrap : s.lastPid + 1 ≥ maxPid
  · obtain ⟨last, next, found, low, lt, high, passed⟩ := walk 1 (le_refl 1) (by omega)
    obtain ⟨fresh, after⟩ := passed_safe last next lt high passed
    refine ⟨last, { s with lastPid := last, nextSafe := next }, ?_, low, by omega, fresh, rfl, rfl, after⟩
    dsimp only
    rw [if_pos wrap, found]
    rfl
  · by_cases walked : s.lastPid + 1 ≥ s.nextSafe
    · obtain ⟨last, next, found, low, lt, high, passed⟩ := walk (s.lastPid + 1) (by omega) (by omega)
      obtain ⟨fresh, after⟩ := passed_safe last next lt high passed
      refine ⟨last, { s with lastPid := last, nextSafe := next }, ?_, low, by omega, fresh, rfl, rfl, after⟩
      dsimp only
      rw [if_neg wrap, if_pos walked, found]
      rfl
    · -- the walk is skipped: the next pid lies between the variables
      have fresh : s.lastPid + 1 ∉ s.procList := fun mem => safe.between _ mem (by omega)
      refine ⟨s.lastPid + 1, { s with lastPid := s.lastPid + 1 }, ?_, by omega, by omega, fresh, rfl, rfl, ?_⟩
      · dsimp only
        rw [if_neg wrap, if_neg walked]
        rfl
      · refine ⟨fun pid mem => ?_, by dsimp only; omega, safe.next, safe.distinct, safe.range⟩
        have := safe.between pid mem
        dsimp only
        omega

theorem step_safe (few : maxProcess < maxPid) (safe : Safe maxPid s) {op : PidOp}
    (step : PidStep maxProcess maxPid s op t) : Safe maxPid t := by
  obtain ⟨possible, ran⟩ := step
  cases op with
  | fork kept =>
    change s.procList.length + 1 < maxProcess at possible
    obtain ⟨pid, u, got, low, high, fresh, same, last, after⟩ := get_pid_fresh safe (by omega)
    change (getPid maxPid s).map _ = some t at ran
    rw [got] at ran
    cases kept with
    | false =>
      cases ran
      exact after
    | true =>
      cases ran
      refine ⟨fun other mem => ?_, after.last, after.next, ?_, fun other mem => ?_⟩
      · rcases List.mem_cons.mp mem with rfl | old
        · change ¬ (u.lastPid < other ∧ other < u.nextSafe)
          omega
        · exact after.between other old
      · refine List.nodup_cons.mpr ⟨?_, after.distinct⟩
        rw [same]
        exact fresh
      · rcases List.mem_cons.mp mem with rfl | old
        · exact ⟨low, high⟩
        · exact after.range other old
  | reap pid =>
    cases ran
    have fewer : ∀ other ∈ s.procList.erase pid, other ∈ s.procList := fun other mem => List.mem_of_mem_erase mem
    exact ⟨fun other mem => safe.between other (fewer other mem), safe.last, safe.next,
      safe.distinct.erase pid, fun other mem => safe.range other (fewer other mem)⟩
  | reorder procList =>
    cases ran
    have perm : procList.Perm s.procList := possible
    exact ⟨fun other mem => safe.between other (perm.mem_iff.mp mem), safe.last, safe.next,
      perm.nodup_iff.mpr safe.distinct, fun other mem => safe.range other (perm.mem_iff.mp mem)⟩

theorem boot_safe : Safe maxPid (bootPids maxPid) :=
  ⟨fun _ mem => absurd mem List.not_mem_nil, le_refl _, le_refl _, List.nodup_nil,
    fun _ mem => absurd mem List.not_mem_nil⟩

end

/-- After every history, `get_pid` ends, its pid is that of no process, and no pid in use lies between
`last_pid` and `next_safe`. -/
theorem get_pid_terminates_with_a_fresh_pid {maxProcess maxPid : Nat} (few : maxProcess < maxPid)
    {s : PidState} {ops : List PidOp} (run : Run (PidStep maxProcess maxPid) (bootPids maxPid) ops s) :
    (∀ pid ∈ s.procList, ¬ (s.lastPid < pid ∧ pid < s.nextSafe)) ∧
    (s.procList.length + 1 ≤ maxProcess → ∃ pid t, getPid maxPid s = some (pid, t) ∧ 1 ≤ pid ∧
      pid < maxPid ∧ pid ∉ s.procList) := by
  have keep : ∀ s op t, Safe maxPid s → PidStep maxProcess maxPid s op t → Safe maxPid t :=
    fun _ _ _ safe step => step_safe few safe step
  have safe : Safe maxPid s := run_invariant keep run boot_safe
  refine ⟨safe.between, fun room => ?_⟩
  obtain ⟨pid, t, got, low, high, fresh, _⟩ := get_pid_fresh safe (by omega)
  exact ⟨pid, t, got, low, high, fresh⟩

/- Three processes, the second of them reaped. -/
theorem get_pid_after_reaping : ∃ s, Run (PidStep MAX_PROCESS MAX_PID) (bootPids MAX_PID)
    [.fork true, .fork true, .fork true, .reap 2, .reorder [1, 3]] s ∧
    ∃ pid t, getPid MAX_PID s = some (pid, t) ∧ 1 ≤ pid ∧ pid < MAX_PID ∧ pid ∉ s.procList := by
  have run : Run (PidStep MAX_PROCESS MAX_PID) (bootPids MAX_PID)
      [.fork true, .fork true, .fork true, .reap 2, .reorder [1, 3]] ⟨MAX_PID, 3, [1, 3]⟩ := by
    refine .call (t := ⟨MAX_PID, 1, [1]⟩) ⟨?_, ?_⟩ (.call (t := ⟨MAX_PID, 2, [2, 1]⟩) ⟨?_, ?_⟩
      (.call (t := ⟨MAX_PID, 3, [3, 2, 1]⟩) ⟨?_, ?_⟩ (.call (t := ⟨MAX_PID, 3, [3, 1]⟩) ⟨?_, ?_⟩
        (.call (t := ⟨MAX_PID, 3, [1, 3]⟩) ⟨?_, ?_⟩ (.stop _)))))
    · change _ < _
      decide
    · decide +kernel
    · change _ < _
      decide
    · decide +kernel
    · change _ < _
      decide
    · decide +kernel
    · change 2 ∈ [3, 2, 1]
      decide
    · decide +kernel
    · exact List.Perm.swap 3 1 []
    · rfl
  exact ⟨_, run, (get_pid_terminates_with_a_fresh_pid (by decide) run).2 (by decide)⟩

end Ucore.GetPid
