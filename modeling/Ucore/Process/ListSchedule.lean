import Ucore.Lib.Transitions
import Ucore.Process.ProcState

/- lab5/kern/schedule/sched.c, where `schedule` walks the list of all processes from the current one on, and what
   `do_fork`, `do_exit` and `do_wait` (process/proc.c) do to that list and to the states. A process is its address. -/
namespace Ucore.ListSched
open Transitions Process

def MAX_PROCESS : Nat := 4096

structure Kernel where
  idleproc : Nat
  procList : List Nat
  nrProcess : Nat
  state : Nat → ProcState
  waitState : Nat → WaitState
  needResched : Nat → Bool
  current : Nat

section Scan

/- The list as a ring, with `none` for its header. -/
def ring (procs : List Nat) : List (Option Nat) := none :: procs.map some

def listNext (procs : List Nat) (le : Option Nat) : Option Nat :=
  ((ring procs)[((ring procs).idxOf le + 1) % (ring procs).length]?).join

/- The loop, with `next` after it: at most once around the ring. -/
def scheduleLoop (s : Kernel) (last : Option Nat) : Nat → Option Nat → Option Nat → Option Nat
  | 0, _, next => next
  | rounds + 1, le, next =>
      match listNext s.procList le with
      | some p =>
          if s.state p = .runnable then some p
          else if some p = last then some p
          else scheduleLoop s last rounds (some p) (some p)
      | none => if none = last then next else scheduleLoop s last rounds none next

/- What becomes of `next` behind the loop. -/
def orIdle (s : Kernel) : Option Nat → Nat
  | some next => if s.state next ≠ .runnable then s.idleproc else next
  | none => s.idleproc

/- The process that `schedule` runs next. -/
def nextProc (s : Kernel) : Nat :=
  let last := if s.current = s.idleproc then none else some s.current
  orIdle s (scheduleLoop s last (s.procList.length + 1) last none)

def schedule (s : Kernel) : Kernel :=
  { s with needResched := Function.update s.needResched s.current false, current := nextProc s }

end Scan

section Calls

/- `none` is the assertion. Waking a runnable process only warns. -/
def wakeupProc (p : Nat) (s : Kernel) : Option Kernel :=
  if s.state p = .zombie then none
  else if s.state p ≠ .runnable then
    some { s with state := Function.update s.state p .runnable, waitState := Function.update s.waitState p .none }
  else some s

/- `do_fork` with the new process `p`, where it succeeds: `alloc_proc`, `set_links` and `wakeup_proc`. -/
def doFork (p : Nat) (s : Kernel) : Option Kernel :=
  if s.nrProcess ≥ MAX_PROCESS then none
  else wakeupProc p { s with
    procList := p :: s.procList
    nrProcess := s.nrProcess + 1
    state := Function.update s.state p .uninit
    waitState := Function.update (Function.update s.waitState p .none) s.current .none
    needResched := Function.update s.needResched p false }

/- `do_wait` before its call of `schedule`. -/
def waitForChild (s : Kernel) : Kernel :=
  { s with
    state := Function.update s.state s.current .sleeping
    waitState := Function.update s.waitState s.current .child }

/- `do_exit` of the current process, before it wakes others. -/
def leaveZombie (s : Kernel) : Kernel := { s with state := Function.update s.state s.current .zombie }

/- `do_wait` at `found`. -/
def reap (p : Nat) (s : Kernel) : Kernel :=
  { s with procList := s.procList.erase p, nrProcess := s.nrProcess - 1 }

inductive Call where
  | schedule (next : Nat)
  | wakeup (p : Nat)
  | fork (p : Nat)
  | wait
  | exit
  | reap (p : Nat)
  | tick
  deriving DecidableEq

/- One call in the kernel. The process that `do_wait` frees is a zombie child of the current one, and the one that
   `do_fork` creates is new; a tick of the clock asks for a call of `schedule`. -/
def Step (s : Kernel) : Call → Kernel → Prop
  | .schedule next, t => next = nextProc s ∧ t = schedule s
  | .wakeup p, t => p ∈ s.procList ∧ wakeupProc p s = some t
  | .fork p, t => p ∉ s.procList ∧ p ≠ s.idleproc ∧ doFork p s = some t
  | .wait, t => s.current ≠ s.idleproc ∧ t = waitForChild s
  | .exit, t => s.current ≠ s.idleproc ∧ t = leaveZombie s
  | .reap p, t => p ∈ s.procList ∧ s.state p = .zombie ∧ p ≠ s.current ∧ t = reap p s
  | .tick, t => t = { s with needResched := Function.update s.needResched s.current true }

end Calls

section Rotation

/-- The processes in the order in which `schedule` looks at them: those behind the current one, those before it, and
itself; all of them in their order for the idle process, which is not in the list. -/
def rotation (s : Kernel) : List Nat :=
  s.procList.drop (s.procList.idxOf s.current + 1) ++ s.procList.take (s.procList.idxOf s.current + 1)

/-- What holds between any two calls. -/
structure Inv (s : Kernel) : Prop where
  distinct : s.procList.Nodup
  idle : s.idleproc ∉ s.procList
  current : s.current = s.idleproc ∨ s.current ∈ s.procList
  counted : s.nrProcess = s.procList.length + 1
  few : s.nrProcess ≤ MAX_PROCESS

variable {s : Kernel} {procs : List Nat} {last le next : Option Nat} {rest : List (Option Nat)}

def runnable (s : Kernel) (p : Nat) : Bool := decide (s.state p = .runnable)

/- By induction on the entries that are left: what has been passed is not runnable. -/
theorem loop_finds {rounds : Nat} (chain : List.IsChain (fun a b => listNext s.procList a = b) (le :: rest))
    (ends : rest.getLast? = some last) (once : last ∉ rest.dropLast) (enough : rest.length ≤ rounds)
    (none_yet : next.filter (runnable s) = none) :
    (scheduleLoop s last rounds le next).filter (runnable s) = rest.reduceOption.find? (runnable s) := by
  induction rest generalizing le next rounds with
  | nil => simp at ends
  | cons e rest ih =>
    obtain ⟨here, later⟩ := List.isChain_cons_cons.mp chain
    cases rounds with
    | zero => simp at enough
    | succ rounds =>
      have shorter : rest.length ≤ rounds := by simpa using enough
      unfold scheduleLoop
      rw [here]
      cases rest with
      | nil =>
        obtain rfl : e = last := by simpa using ends
        cases e with
        | none => simpa [List.reduceOption] using none_yet
        | some p =>
          by_cases ready : s.state p = .runnable
          · simp [List.reduceOption, runnable, ready]
          · simp [List.reduceOption, runnable, ready]
      | cons f rest =>
        have ends' : (f :: rest).getLast? = some last := by simpa using ends
        have once' : last ≠ e ∧ last ∉ (f :: rest).dropLast := by simpa using once
        cases e with
        | none =>
          have other : ¬ none = last := fun same => once'.1 same.symm
          simp only [if_neg other]
          rw [ih later ends' once'.2 shorter none_yet]
          simp [List.reduceOption]
        | some p =>
          have other : ¬ some p = last := fun same => once'.1 same.symm
          simp only [if_neg other]
          by_cases ready : s.state p = .runnable
          · simp [List.reduceOption, runnable, ready]
          · rw [if_neg ready, ih later ends' once'.2 shorter (by simp [runnable, ready])]
            simp [List.reduceOption, runnable, ready]

theorem ring_nodup (distinct : procs.Nodup) : (ring procs).Nodup := by
  unfold ring
  refine List.nodup_cons.mpr ⟨by simp, ?_⟩
  exact distinct.map (Option.some_injective Nat)

/- The ring from the entry behind one on, up to that one. -/
theorem ring_chain (distinct : procs.Nodup) {i : Nat} (inside : i < (ring procs).length) :
    List.IsChain (fun a b => listNext procs a = b) ((ring procs)[i] :: (ring procs).rotate (i + 1)) := by
  have nodup := ring_nodup distinct
  have follows : ∀ j (below : j < (ring procs).length) (next : (j + 1) % (ring procs).length < (ring procs).length),
      listNext procs (ring procs)[j] = (ring procs)[(j + 1) % (ring procs).length] := by
    intro j below next
    unfold listNext
    rw [nodup.idxOf_getElem, List.getElem?_eq_getElem next]
    rfl
  rw [List.isChain_iff_getElem]
  intro j below
  cases j with
  | zero =>
    simp only [List.getElem_cons_zero, List.getElem_cons_succ]
    rw [follows i inside (Nat.mod_lt _ (by omega)), List.getElem_rotate]
    congr 1
    simp
  | succ j =>
    simp only [List.getElem_cons_succ]
    rw [List.getElem_rotate, List.getElem_rotate, follows _ _ (Nat.mod_lt _ (by omega))]
    congr 1
    rw [Nat.mod_add_mod]
    congr 1
    omega

theorem reduce_some (xs : List Nat) : (xs.map some).reduceOption = xs := by
  induction xs with
  | nil => rfl
  | cons x xs ih => simp [List.reduceOption] at ih ⊢

/- What the ring holds behind an entry, without the header. -/
theorem ring_order {i : Nat} (inside : i < (ring procs).length) :
    ((ring procs).rotate (i + 1)).reduceOption = procs.drop i ++ procs.take i := by
  rw [List.rotate_eq_drop_append_take inside, List.reduceOption_append]
  unfold ring
  rw [List.drop_succ_cons, List.take_succ_cons, ← List.map_drop, ← List.map_take, reduce_some,
    List.reduceOption_cons_of_none, reduce_some]

theorem rotated_last (distinct : procs.Nodup) {i : Nat} (inside : i < (ring procs).length) :
    ((ring procs).rotate (i + 1)).getLast? = some (ring procs)[i] ∧
      (ring procs)[i] ∉ ((ring procs).rotate (i + 1)).dropLast := by
  have split : (ring procs).rotate (i + 1) = (ring procs).drop (i + 1) ++ (ring procs).take i ++ [(ring procs)[i]] := by
    rw [List.rotate_eq_drop_append_take inside, List.append_assoc, List.take_append_getElem]
  have nodup : ((ring procs).rotate (i + 1)).Nodup := List.nodup_rotate.mpr (ring_nodup distinct)
  rw [split] at nodup ⊢
  constructor
  · exact List.getLast?_concat
  · rw [List.dropLast_concat]
    intro mem
    exact (List.disjoint_of_nodup_append nodup) mem (List.mem_singleton_self _)

/- The scan from an entry of the ring all around it. -/
theorem scan_finds (distinct : s.procList.Nodup) {i : Nat} (inside : i < (ring s.procList).length)
    (entry : last = (ring s.procList)[i]) :
    (scheduleLoop s last (s.procList.length + 1) last none).filter (runnable s) =
      (s.procList.drop i ++ s.procList.take i).find? (runnable s) := by
  obtain ⟨ends, once⟩ := rotated_last distinct inside
  have enough : ((ring s.procList).rotate (i + 1)).length ≤ s.procList.length + 1 := by
    simp [ring]
  subst entry
  rw [loop_finds (ring_chain distinct inside) ends once enough rfl, ring_order inside]

theorem or_idle_eq : orIdle s next = (next.filter (runnable s)).getD s.idleproc := by
  cases next with
  | none => rfl
  | some p =>
    unfold orIdle
    by_cases ready : s.state p = .runnable
    · simp [Option.filter, runnable, ready]
    · simp [Option.filter, runnable, ready]

theorem next_proc_eq (inv : Inv s) : nextProc s = ((rotation s).find? (runnable s)).getD s.idleproc := by
  unfold nextProc
  dsimp only
  rw [or_idle_eq]
  congr 1
  by_cases idle : s.current = s.idleproc
  · have whole : rotation s = s.procList.drop 0 ++ s.procList.take 0 := by
      unfold rotation
      rw [idle, List.idxOf_eq_length inv.idle, List.drop_eq_nil_of_le (Nat.le_succ _), List.take_of_length_le (Nat.le_succ _)]
      simp
    rw [if_pos idle, whole]
    exact scan_finds inv.distinct (by simp [ring]) rfl
  · have mem := inv.current.resolve_left idle
    have inside := List.idxOf_lt_length_of_mem mem
    rw [if_neg idle]
    apply scan_finds inv.distinct (by simpa [ring] using inside)
    simp [ring]

end Rotation

section Waiting

/- The first runnable one behind the place `i` of a ring is found before any other runnable one. -/
theorem found_before {procs : List Nat} {P : Nat → Bool} {i q n : Nat} (inside : q < procs.length) (holds : P procs[q] = true)
    (found : (procs.drop (i + 1) ++ procs.take (i + 1)).find? P = some n) (other : n ≠ procs[q]) :
    ∃ m, ∃ below : m < procs.length, procs[m] = n ∧ (i < q ∧ i < m ∧ m < q ∨ q ≤ i ∧ (i < m ∨ m < q)) := by
  rw [List.find?_append] at found
  cases behind : (procs.drop (i + 1)).find? P with
  | some r =>
    rw [behind] at found
    obtain rfl : r = n := by simpa using found
    obtain ⟨-, j, below, here, earlier⟩ := List.find?_eq_some_iff_getElem.mp behind
    rw [List.length_drop] at below
    rw [List.getElem_drop] at here
    refine ⟨i + 1 + j, by omega, here, ?_⟩
    by_cases low : q ≤ i
    · exact .inr ⟨low, .inl (by omega)⟩
    · have place : i + 1 + (q - (i + 1)) = q := by omega
      have not_before : ¬ q - (i + 1) < j := by
        intro before
        have fails := earlier _ before
        simp only [List.getElem_drop, place, holds] at fails
        cases fails
      have not_same : q ≠ i + 1 + j := by
        rintro rfl
        exact other here.symm
      exact .inl ⟨by omega, by omega, by omega⟩
  | none =>
    rw [behind] at found
    have before : (procs.take (i + 1)).find? P = some n := by simpa using found
    obtain ⟨-, m, below, here, earlier⟩ := List.find?_eq_some_iff_getElem.mp before
    rw [List.length_take] at below
    rw [List.getElem_take] at here
    have low : q ≤ i := by
      by_contra high
      have mem : procs[q] ∈ procs.drop (i + 1) := by
        rw [List.mem_iff_getElem]
        refine ⟨q - (i + 1), by rw [List.length_drop]; omega, ?_⟩
        rw [List.getElem_drop]
        congr 1
        omega
      exact List.find?_eq_none.mp behind _ mem holds
    refine ⟨m, by omega, here, .inr ⟨low, .inr ?_⟩⟩
    have not_before : ¬ q < m := by
      intro before
      have fails := earlier q before
      simp only [List.getElem_take, holds] at fails
      cases fails
    have not_same : q ≠ m := by
      rintro rfl
      exact other here.symm
    omega

theorem idx_of_erase {procs : List Nat} {x r : Nat} (nodup : procs.Nodup) (mem : r ∈ procs) (other : x ≠ r) :
    (procs.erase r).idxOf x = if procs.idxOf r < procs.idxOf x then procs.idxOf x - 1 else procs.idxOf x := by
  induction procs with
  | nil => cases mem
  | cons y procs ih =>
    obtain ⟨fresh, nodup⟩ := List.nodup_cons.mp nodup
    by_cases first : y = r
    · subst first
      rw [List.erase_cons_head, List.idxOf_cons_self, List.idxOf_cons_ne _ (Ne.symm other)]
      simp
    · have later : r ∈ procs := (List.mem_cons.mp mem).resolve_left (Ne.symm first)
      rw [List.erase_cons_tail (by simpa using first), List.idxOf_cons_ne _ first]
      by_cases same : y = x
      · subst same
        simp
      · rw [List.idxOf_cons_ne _ same, List.idxOf_cons_ne _ same, ih nodup later]
        split_ifs <;> omega

/-- In the list, runnable, and not running. -/
structure Waits (s : Kernel) (p : Nat) : Prop where
  mem : p ∈ s.procList
  ready : s.state p = .runnable
  off : p ≠ s.current

/-- How often `schedule` can still pass over the process. As long as the header lies ahead, new processes may come in
before it; there are never more than `MAX_PROCESS` of them. -/
def passes (s : Kernel) (p : Nat) : Nat :=
  if s.current = s.idleproc then MAX_PROCESS
  else if s.procList.idxOf s.current < s.procList.idxOf p then s.procList.idxOf p - s.procList.idxOf s.current
  else s.procList.length - s.procList.idxOf s.current + MAX_PROCESS

variable {s t : Kernel} {p : Nat}

theorem list_short (inv : Inv s) : s.procList.length < MAX_PROCESS := by
  have counted := inv.counted
  have few := inv.few
  omega

theorem passes_le (inv : Inv s) : passes s p ≤ 2 * MAX_PROCESS := by
  have short := list_short inv
  have inside := List.idxOf_le_length (a := p) (l := s.procList)
  unfold passes
  split_ifs <;> omega

/- The process that runs next when this one is passed over. -/
theorem passed_over (inv : Inv s) (waits : Waits s p) (other : nextProc s ≠ p) :
    nextProc s ∈ s.procList ∧
      (s.procList.idxOf s.current < s.procList.idxOf p ∧ s.procList.idxOf s.current < s.procList.idxOf (nextProc s) ∧
          s.procList.idxOf (nextProc s) < s.procList.idxOf p ∨
        s.procList.idxOf p ≤ s.procList.idxOf s.current ∧
          (s.procList.idxOf s.current < s.procList.idxOf (nextProc s) ∨
            s.procList.idxOf (nextProc s) < s.procList.idxOf p)) := by
  have inside := List.idxOf_lt_length_of_mem waits.mem
  have place : s.procList[s.procList.idxOf p] = p := List.getElem_idxOf inside
  have holds : runnable s p = true := by simp [runnable, waits.ready]
  have among : p ∈ rotation s := by
    unfold rotation
    rw [List.mem_append, or_comm, ← List.mem_append, List.take_append_drop]
    exact waits.mem
  have picked := next_proc_eq inv
  cases found : (rotation s).find? (runnable s) with
  | none => exact absurd holds (List.find?_eq_none.mp found p among)
  | some n =>
    rw [found, Option.getD_some] at picked
    rw [picked] at other ⊢
    obtain ⟨m, below, here, order⟩ := found_before inside (by rw [place]; exact holds) found (by rwa [place])
    have index : s.procList.idxOf n = m := by
      rw [← here]
      exact inv.distinct.idxOf_getElem m below
    rw [index]
    exact ⟨here ▸ List.getElem_mem below, order⟩

theorem schedule_keeps (inv : Inv s) : Inv (schedule s) := by
  refine ⟨inv.distinct, inv.idle, ?_, inv.counted, inv.few⟩
  change nextProc s = s.idleproc ∨ nextProc s ∈ s.procList
  rw [next_proc_eq inv]
  cases found : (rotation s).find? (runnable s) with
  | none => exact .inl rfl
  | some n =>
    right
    have mem := List.mem_of_find?_eq_some found
    unfold rotation at mem
    rwa [List.mem_append, or_comm, ← List.mem_append, List.take_append_drop] at mem

theorem schedule_passes (inv : Inv s) (waits : Waits s p) (other : nextProc s ≠ p) :
    Waits (schedule s) p ∧ passes (schedule s) p + 1 ≤ passes s p := by
  obtain ⟨mem, order⟩ := passed_over inv waits other
  have short := list_short inv
  have inside := List.idxOf_lt_length_of_mem waits.mem
  have next_inside := List.idxOf_lt_length_of_mem mem
  have not_idle : nextProc s ≠ s.idleproc := fun same => inv.idle (same ▸ mem)
  refine ⟨⟨waits.mem, waits.ready, Ne.symm other⟩, ?_⟩
  unfold passes
  change (if nextProc s = s.idleproc then MAX_PROCESS
    else if s.procList.idxOf (nextProc s) < s.procList.idxOf p then s.procList.idxOf p - s.procList.idxOf (nextProc s)
    else s.procList.length - s.procList.idxOf (nextProc s) + MAX_PROCESS) + 1 ≤ _
  rw [if_neg not_idle]
  by_cases idle : s.current = s.idleproc
  · have last : s.procList.idxOf s.current = s.procList.length := by
      rw [idle]
      exact List.idxOf_eq_length inv.idle
    rw [if_pos idle, if_pos (by omega)]
    omega
  · rw [if_neg idle]
    split_ifs <;> omega

/- Neither the list nor the running process matters to the states and the other way round. -/
theorem wakeup_frame {r : Nat} (woken : wakeupProc r s = some t) :
    t.idleproc = s.idleproc ∧ t.procList = s.procList ∧ t.nrProcess = s.nrProcess ∧ t.current = s.current ∧
      ∀ q, s.state q = .runnable → t.state q = .runnable := by
  unfold wakeupProc at woken
  split_ifs at woken with zombie asleep
  · cases woken
    refine ⟨rfl, rfl, rfl, rfl, fun q ready => ?_⟩
    by_cases same : q = r
    · subst same
      simp
    · simp [Function.update_of_ne same, ready]
  · cases woken
    exact ⟨rfl, rfl, rfl, rfl, fun q ready => ready⟩

/- Calls that leave the list and the running process as they are. -/
theorem frame_keeps (inv : Inv s) (idle : t.idleproc = s.idleproc) (list : t.procList = s.procList)
    (count : t.nrProcess = s.nrProcess) (current : t.current = s.current) : Inv t := by
  obtain ⟨distinct, out, known, counted, few⟩ := inv
  refine ⟨?_, ?_, ?_, ?_, ?_⟩
  · rwa [list]
  · rwa [list, idle]
  · rwa [current, idle, list]
  · rwa [count, list]
  · rwa [count]

theorem frame_waits (waits : Waits s p) (idle : t.idleproc = s.idleproc) (list : t.procList = s.procList)
    (current : t.current = s.current) (ready : t.state p = .runnable) : Waits t p ∧ passes t p = passes s p := by
  refine ⟨⟨?_, ready, ?_⟩, ?_⟩
  · rw [list]
    exact waits.mem
  · rw [current]
    exact waits.off
  · unfold passes
    rw [current, idle, list]

/- What `do_fork` leaves: the new process is at the head of the list. -/
theorem fork_frame {r : Nat} (forked : doFork r s = some t) :
    s.nrProcess < MAX_PROCESS ∧ t.idleproc = s.idleproc ∧ t.procList = r :: s.procList ∧ t.nrProcess = s.nrProcess + 1 ∧
      t.current = s.current ∧ ∀ q ≠ r, s.state q = .runnable → t.state q = .runnable := by
  unfold doFork at forked
  split_ifs at forked with full
  obtain ⟨idle, list, count, current, ready⟩ := wakeup_frame forked
  refine ⟨Nat.lt_of_not_le full, idle, list, count, current, fun q other was => ready q ?_⟩
  dsimp only
  rw [Function.update_of_ne other]
  exact was

theorem fork_keeps {r : Nat} (inv : Inv s) (fresh : r ∉ s.procList) (not_idle : r ≠ s.idleproc)
    (forked : doFork r s = some t) : Inv t := by
  obtain ⟨distinct, out, known, counted, few⟩ := inv
  obtain ⟨room, idle, list, count, current, -⟩ := fork_frame forked
  refine ⟨?_, ?_, ?_, ?_, ?_⟩
  · rw [list]
    exact List.nodup_cons.mpr ⟨fresh, distinct⟩
  · rw [list, idle]
    simp [Ne.symm not_idle, out]
  · rw [current, idle, list]
    rcases known with same | mem
    · exact .inl same
    · exact .inr (List.mem_cons_of_mem r mem)
  · rw [count, list, List.length_cons]
    omega
  · rw [count]
    exact room

theorem fork_waits {r : Nat} (inv : Inv s) (waits : Waits s p) (fresh : r ∉ s.procList) (forked : doFork r s = some t) :
    Waits t p ∧ passes t p = passes s p := by
  obtain ⟨-, idle, list, -, current, ready⟩ := fork_frame forked
  have other : r ≠ p := fun same => fresh (same ▸ waits.mem)
  refine ⟨⟨?_, ready p (Ne.symm other) waits.ready, ?_⟩, ?_⟩
  · rw [list]
    exact List.mem_cons_of_mem r waits.mem
  · rw [current]
    exact waits.off
  · unfold passes
    rw [current, idle, list, List.length_cons, List.idxOf_cons_ne _ other]
    by_cases at_rest : s.current = s.idleproc
    · rw [if_pos at_rest, if_pos at_rest]
    · have behind : r ≠ s.current := fun same => fresh (same ▸ inv.current.resolve_left at_rest)
      rw [if_neg at_rest, if_neg at_rest, List.idxOf_cons_ne _ behind]
      split_ifs <;> omega

theorem reap_keeps {r : Nat} (inv : Inv s) (mem : r ∈ s.procList) (off : r ≠ s.current) : Inv (reap r s) := by
  obtain ⟨distinct, out, known, counted, few⟩ := inv
  have length := List.length_erase_of_mem mem
  have positive := List.length_pos_of_mem mem
  refine ⟨distinct.erase r, fun inside => out (List.mem_of_mem_erase inside), ?_, ?_, ?_⟩
  · rcases known with same | current
    · exact .inl same
    · exact .inr ((List.mem_erase_of_ne (Ne.symm off)).mpr current)
  · change s.nrProcess - 1 = (s.procList.erase r).length + 1
    omega
  · change s.nrProcess - 1 ≤ MAX_PROCESS
    omega

theorem reap_waits {r : Nat} (inv : Inv s) (waits : Waits s p) (mem : r ∈ s.procList) (zombie : s.state r = .zombie)
    (off : r ≠ s.current) : Waits (reap r s) p ∧ passes (reap r s) p ≤ passes s p := by
  have other : p ≠ r := by
    rintro rfl
    rw [waits.ready] at zombie
    cases zombie
  have length := List.length_erase_of_mem mem
  refine ⟨⟨(List.mem_erase_of_ne other).mpr waits.mem, waits.ready, waits.off⟩, ?_⟩
  unfold passes
  change (if s.current = s.idleproc then MAX_PROCESS
    else if (s.procList.erase r).idxOf s.current < (s.procList.erase r).idxOf p then
      (s.procList.erase r).idxOf p - (s.procList.erase r).idxOf s.current
    else (s.procList.erase r).length - (s.procList.erase r).idxOf s.current + MAX_PROCESS) ≤ _
  rw [idx_of_erase inv.distinct mem other, idx_of_erase inv.distinct mem (Ne.symm off), length]
  by_cases at_rest : s.current = s.idleproc
  · rw [if_pos at_rest, if_pos at_rest]
  · have inside := List.idxOf_lt_length_of_mem (inv.current.resolve_left at_rest)
    have place := List.idxOf_lt_length_of_mem mem
    have own := List.idxOf_lt_length_of_mem waits.mem
    have apart : s.procList.idxOf r ≠ s.procList.idxOf p := fun same => other ((List.idxOf_inj mem).mp same).symm
    have apart' : s.procList.idxOf r ≠ s.procList.idxOf s.current := fun same => off ((List.idxOf_inj mem).mp same)
    rw [if_neg at_rest, if_neg at_rest]
    split_ifs <;> omega

theorem step_keeps {c : Call} (inv : Inv s) (step : Step s c t) : Inv t := by
  cases c with
  | schedule next =>
    obtain ⟨-, rfl⟩ := step
    exact schedule_keeps inv
  | wakeup r =>
    obtain ⟨idle, list, count, current, -⟩ := wakeup_frame step.2
    exact frame_keeps inv idle list count current
  | fork r => exact fork_keeps inv step.1 step.2.1 step.2.2
  | wait =>
    obtain ⟨-, rfl⟩ := step
    exact @frame_keeps s (waitForChild s) inv rfl rfl rfl rfl
  | exit =>
    obtain ⟨-, rfl⟩ := step
    exact @frame_keeps s (leaveZombie s) inv rfl rfl rfl rfl
  | reap r =>
    obtain ⟨mem, -, off, rfl⟩ := step
    exact reap_keeps inv mem off
  | tick =>
    obtain rfl := step
    exact @frame_keeps s { s with needResched := Function.update s.needResched s.current true } inv rfl rfl rfl rfl

def Call.isSchedule : Call → Bool
  | .schedule _ => true
  | _ => false

/- What any one call does to a process that waits. -/
theorem step_waits {c : Call} (inv : Inv s) (waits : Waits s p) (step : Step s c t) (other : c ≠ .schedule p) :
    Waits t p ∧ passes t p + c.isSchedule.toNat ≤ passes s p := by
  cases c with
  | schedule next =>
    obtain ⟨rfl, rfl⟩ := step
    exact schedule_passes inv waits fun same => other (by rw [same])
  | wakeup r =>
    obtain ⟨idle, list, -, current, ready⟩ := wakeup_frame step.2
    obtain ⟨still, same⟩ := frame_waits waits idle list current (ready p waits.ready)
    exact ⟨still, same.le⟩
  | fork r =>
    obtain ⟨still, same⟩ := fork_waits inv waits step.1 step.2.2
    exact ⟨still, same.le⟩
  | wait =>
    obtain ⟨-, rfl⟩ := step
    have ready : (waitForChild s).state p = .runnable := by
      simp [waitForChild, Function.update_of_ne waits.off, waits.ready]
    obtain ⟨still, same⟩ := @frame_waits s (waitForChild s) p waits rfl rfl rfl ready
    exact ⟨still, same.le⟩
  | exit =>
    obtain ⟨-, rfl⟩ := step
    have ready : (leaveZombie s).state p = .runnable := by
      simp [leaveZombie, Function.update_of_ne waits.off, waits.ready]
    obtain ⟨still, same⟩ := @frame_waits s (leaveZombie s) p waits rfl rfl rfl ready
    exact ⟨still, same.le⟩
  | reap r =>
    obtain ⟨mem, zombie, off, rfl⟩ := step
    exact reap_waits inv waits mem zombie off
  | tick =>
    obtain rfl := step
    obtain ⟨still, same⟩ := @frame_waits s { s with needResched := Function.update s.needResched s.current true } p
      waits rfl rfl rfl waits.ready
    exact ⟨still, same.le⟩

/- By induction on the run, which uses up what `passes` allows. -/
theorem run_waits {cs : List Call} (inv : Inv s) (waits : Waits s p) (run : Run Step s cs t) (never : Call.schedule p ∉ cs) :
    passes t p + cs.countP Call.isSchedule ≤ passes s p := by
  induction run with
  | stop s => simp
  | @call s u t c cs first rest ih =>
    have not_first : c ≠ .schedule p := fun same => never (same ▸ List.mem_cons_self)
    obtain ⟨still, used⟩ := step_waits inv waits first not_first
    have later := ih (step_keeps inv first) still fun mem => never (List.mem_cons_of_mem c mem)
    rw [List.countP_cons]
    cases kind : c.isSchedule with
    | true =>
      rw [kind, Bool.toNat_true] at used
      rw [if_pos rfl]
      omega
    | false =>
      rw [kind, Bool.toNat_false] at used
      rw [if_neg (by decide)]
      omega

/- `proc_init` before its `kernel_thread`: the idle process runs, and nothing is in the list. -/
def booted (idleproc : Nat) : Kernel :=
  ⟨idleproc, [], 1, Function.update (fun _ => .uninit) idleproc .runnable, fun _ => .none,
    Function.update (fun _ => false) idleproc true, idleproc⟩

theorem booted_inv (idleproc : Nat) : Inv (booted idleproc) :=
  ⟨List.nodup_nil, List.not_mem_nil, .inl rfl, rfl, (by decide : 1 ≤ MAX_PROCESS)⟩

theorem passes_pos : 0 < passes s p := by
  have some_there : 0 < MAX_PROCESS := by decide
  unfold passes
  split_ifs <;> omega

/-- Whatever the others do, fork or exit or wake in between, a process that is runnable runs within twice as many calls
of `schedule` as there may be processes. -/
theorem none_starves {idleproc : Nat} {ds cs : List Call} (reached : Run Step (booted idleproc) ds s) (mem : p ∈ s.procList)
    (ready : s.state p = .runnable) (off : p ≠ s.current) (run : Run Step s cs t) (never : Call.schedule p ∉ cs) :
    cs.countP Call.isSchedule < 2 * MAX_PROCESS := by
  have inv := run_invariant (fun s c t inv step => @step_keeps s t c inv step) reached (booted_inv idleproc)
  have used := run_waits inv ⟨mem, ready, off⟩ run never
  have most := @passes_le s p inv
  have left := @passes_pos t p
  omega

/- Two new processes, of which the later one runs first. -/
def firstForked : Kernel := (doFork 1 (booted 0)).getD (booted 0)
def bothForked : Kernel := (doFork 2 firstForked).getD firstForked

theorem later_runs_first : Run Step (booted 0) [.fork 1, .fork 2] bothForked ∧ 1 ∈ bothForked.procList ∧
    bothForked.state 1 = .runnable ∧ 1 ≠ bothForked.current ∧ Run Step bothForked [.schedule 2] (schedule bothForked) ∧
    Call.schedule 1 ∉ [Call.schedule 2] ∧ [Call.schedule 2].countP Call.isSchedule < 2 * MAX_PROCESS := by
  have reached : Run Step (booted 0) [.fork 1, .fork 2] bothForked :=
    .call (t := firstForked) ⟨by decide, by decide, rfl⟩ (.call ⟨by decide, by decide, rfl⟩ (.stop bothForked))
  have run : Run Step bothForked [.schedule 2] (schedule bothForked) := .call ⟨by decide, rfl⟩ (.stop _)
  exact ⟨reached, by decide, by decide, by decide, run, by decide,
    @none_starves bothForked (schedule bothForked) 1 0 [.fork 1, .fork 2] [.schedule 2] reached (by decide) (by decide)
      (by decide) run (by decide)⟩

end Waiting

end Ucore.ListSched
