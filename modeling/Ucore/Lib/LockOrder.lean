import Mathlib

/- Processes that take semaphores one inside the other: where each of them takes only semaphores above those it
   holds, and puts them back, there is no deadlock. -/
namespace LockOrder

/-- The `down` and `up` steps of a program, its branches and its loops left open. -/
inductive LockProg (L : Type) where
  | skip
  | down (l : L)
  | up (l : L)
  | seq (p q : LockProg L)
  | choice (p q : LockProg L)
  | any (f : Nat → LockProg L)
  | loop (p : LockProg L)

def block {L : Type} : List (LockProg L) → LockProg L
  | [] => .skip
  | p :: rest => .seq p (block rest)

/-- A counting semaphore, with the processes that wait for it. -/
structure Semaphore where
  value : Nat
  queue : List Nat

/-- What a process has still to do, what it holds and what it is blocked on. A process with nothing to do is in
user mode. -/
structure Process (L : Type) where
  todo : List (LockProg L)
  held : List L
  waiting : Option L

structure System (L : Type) where
  sems : L → Semaphore
  procs : Nat → Process L

section
variable {L : Type}

/-- The process goes on after a `down`. -/
def Process.taken (p : Process L) (l : L) : Process L :=
  { todo := p.todo.tail, held := l :: p.held, waiting := none }

/-- What makes a program, started with the semaphores `held`, take only semaphores above those it holds and end with
`Q`. -/
def Fine (rank : L → Nat) : LockProg L → (List L → Prop) → List L → Prop
  | .skip, Q, held => Q held
  | .down l, Q, held => (∀ h ∈ held, rank h < rank l) ∧ Q (l :: held)
  | .up l, Q, held => ∃ rest, held = l :: rest ∧ Q rest
  | .seq p q, Q, held => Fine rank p (Fine rank q Q) held
  | .choice p q, Q, held => Fine rank p Q held ∧ Fine rank q Q held
  | .any f, Q, held => ∀ n, Fine rank (f n) Q held
  | .loop p, Q, held => Q held ∧ Fine rank p (fun after => after = held) held

/-- A process does the rest in order, and ends without semaphores. -/
def FineList (rank : L → Nat) : List (LockProg L) → List L → Prop
  | [], held => held = []
  | p :: rest, held => Fine rank p (FineList rank rest) held

/-- The invariant of a process; one that is blocked is in the `down` of that semaphore. -/
structure Orderly (rank : L → Nat) (p : Process L) : Prop where
  fine : FineList rank p.todo p.held
  waits : ∀ l, p.waiting = some l → ∃ rest, p.todo = .down l :: rest

/-- The program takes only semaphores from the rank `r` on, and puts them back. -/
def Keeps (rank : L → Nat) (r : Nat) (p : LockProg L) : Prop :=
  ∀ (Q : List L → Prop) (held : List L), (∀ h ∈ held, rank h < r) → Q held → Fine rank p Q held

/-- The program puts back the semaphore `l` that was taken last, and is as above but for it. -/
def Closes (rank : L → Nat) (r : Nat) (l : L) (p : LockProg L) : Prop :=
  ∀ (Q : List L → Prop) (held : List L), (∀ h ∈ held, rank h < r) → Q held → Fine rank p Q (l :: held)

end

section
variable {L : Type} {rank : L → Nat} {Q R : List L → Prop} {held : List L} {l : L} {r r' : Nat} {p q : LockProg L}
  {rest : List (LockProg L)} {f : Nat → LockProg L}

theorem fine_mono (weaker : ∀ held, Q held → R held) (p : LockProg L) : ∀ {held}, Fine rank p Q held → Fine rank p R held := by
  induction p generalizing Q R with
  | skip => exact weaker _
  | down l => exact fun fine => ⟨fine.1, weaker _ fine.2⟩
  | up l =>
    rintro held ⟨rest, same, post⟩
    exact ⟨rest, same, weaker _ post⟩
  | seq p q ihp ihq => exact ihp fun _ => ihq weaker
  | choice p q ihp ihq => exact fun fine => ⟨ihp weaker fine.1, ihq weaker fine.2⟩
  | any f ih => exact fun fine n => ih n weaker (fine n)
  | loop p ih => exact fun fine => ⟨weaker _ fine.1, fine.2⟩

/- A process that goes on was not blocked: its next step is no `down`. -/
theorem orderly_moves {p : Process L} {next : LockProg L} {rest todo : List (LockProg L)} (orderly : Orderly rank p)
    (is : p.todo = next :: rest) (moves : ∀ l, next ≠ .down l) (fine : FineList rank todo p.held) :
    Orderly rank { p with todo } := by
  refine ⟨fine, fun l waiting => ?_⟩
  obtain ⟨others, blocked⟩ := orderly.waits l waiting
  rw [is] at blocked
  exact absurd (List.cons.inj blocked).1 (moves l)

theorem orderly_taken {p : Process L} {rest : List (LockProg L)} (orderly : Orderly rank p) (is : p.todo = .down l :: rest) :
    Orderly rank (p.taken l) := by
  have fine := orderly.fine
  rw [is] at fine
  refine ⟨?_, nofun⟩
  change FineList rank p.todo.tail (l :: p.held)
  rw [is]
  exact fine.2

/- A process that is blocked holds only semaphores below. -/
theorem blocked_above {p : Process L} (orderly : Orderly rank p) (waiting : p.waiting = some l) :
    ∀ h ∈ p.held, rank h < rank l := by
  obtain ⟨rest, todo⟩ := orderly.waits l waiting
  have fine := orderly.fine
  rw [todo] at fine
  exact fine.1

theorem keeps_fine (keeps : Keeps rank r p) : Fine rank p (fun held => held = []) [] := keeps _ [] nofun rfl

theorem keeps_mono (above : r ≤ r') (keeps : Keeps rank r' p) : Keeps rank r p :=
  fun Q held below post => keeps Q held (fun h mem => lt_of_lt_of_le (below h mem) above) post

theorem keeps_skip : Keeps rank r (.skip : LockProg L) := fun _ _ _ post => post

theorem keeps_choice (left : Keeps rank r p) (right : Keeps rank r q) : Keeps rank r (.choice p q) :=
  fun Q held below post => ⟨left Q held below post, right Q held below post⟩

theorem keeps_any (each : ∀ n, Keeps rank r (f n)) : Keeps rank r (.any f) :=
  fun Q held below post n => each n Q held below post

theorem keeps_loop (turn : Keeps rank r p) : Keeps rank r (.loop p) :=
  fun _ held below post => ⟨post, turn _ held below rfl⟩

theorem keeps_nil : Keeps rank r (block [] : LockProg L) := keeps_skip

theorem keeps_cons (first : Keeps rank r p) (others : Keeps rank r (block rest)) : Keeps rank r (block (p :: rest)) :=
  fun Q held below post => first _ held below (others Q held below post)

theorem keeps_down (above : r ≤ rank l) (closes : Closes rank r l (block rest)) : Keeps rank r (block (.down l :: rest)) :=
  fun Q held below post => ⟨fun h mem => lt_of_lt_of_le (below h mem) above, closes Q held below post⟩

theorem closes_up : Closes rank r l (.up l) := fun _ held _ post => ⟨held, rfl, post⟩

theorem closes_choice (left : Closes rank r l p) (right : Closes rank r l q) : Closes rank r l (.choice p q) :=
  fun Q held below post => ⟨left Q held below post, right Q held below post⟩

theorem closes_last (closes : Closes rank r l p) : Closes rank r l (block [p]) := closes

/- Inside, only semaphores above `l` are taken. -/
theorem closes_inside (above : r ≤ rank l) (first : Keeps rank (rank l + 1) p) (others : Closes rank r l (block rest)) :
    Closes rank r l (block (p :: rest)) := by
  intro Q held below post
  refine first _ (l :: held) (fun h mem => ?_) (others Q held below post)
  rcases List.mem_cons.mp mem with rfl | mem
  · exact Nat.lt_succ_self _
  · exact (lt_of_lt_of_le (below h mem) above).trans (Nat.lt_succ_self _)

/- The semaphore is put back first, and then others are taken. -/
theorem closes_then (closes : Closes rank r l p) (others : Keeps rank r (block rest)) :
    Closes rank r l (block (p :: rest)) :=
  fun Q held below post => closes _ held below (others Q held below post)

/- A function that does all its work with the semaphore taken. -/
theorem keeps_locked (above : r ≤ rank l) (inside : Keeps rank (rank l + 1) p) :
    Keeps rank r (block [.down l, p, .up l]) :=
  keeps_down above (closes_inside above inside (closes_last closes_up))

end

section
variable {L : Type} [DecidableEq L]

def System.setProc (s : System L) (i : Nat) (p : Process L) : System L :=
  { s with procs := Function.update s.procs i p }

def System.setSem (s : System L) (l : L) (sem : Semaphore) : System L :=
  { s with sems := Function.update s.sems l sem }

omit [DecidableEq L] in
theorem set_proc_same {s : System L} {i : Nat} {p : Process L} : (s.setProc i p).procs i = p := Function.update_self ..

omit [DecidableEq L] in
theorem set_proc_other {s : System L} {i j : Nat} {p : Process L} (apart : j ≠ i) :
    (s.setProc i p).procs j = s.procs j := Function.update_of_ne apart ..

theorem set_sem_same {s : System L} {l : L} {sem : Semaphore} : (s.setSem l sem).sems l = sem := Function.update_self ..

theorem set_sem_other {s : System L} {k l : L} {sem : Semaphore} (apart : k ≠ l) : (s.setSem l sem).sems k = s.sems k :=
  Function.update_of_ne apart ..

/-- One step of one process; from user mode it enters one of the `ops`. -/
inductive Step (ops : Set (LockProg L)) (s : System L) : System L → Prop
  | enter (i : Nat) (op : LockProg L) (user : (s.procs i).todo = []) (known : op ∈ ops) :
      Step ops s (s.setProc i { s.procs i with todo := [op] })
  | skip (i : Nat) (rest : List (LockProg L)) (todo : (s.procs i).todo = .skip :: rest) :
      Step ops s (s.setProc i { s.procs i with todo := rest })
  | seq (i : Nat) (p q : LockProg L) (rest : List (LockProg L)) (todo : (s.procs i).todo = .seq p q :: rest) :
      Step ops s (s.setProc i { s.procs i with todo := p :: q :: rest })
  | left (i : Nat) (p q : LockProg L) (rest : List (LockProg L)) (todo : (s.procs i).todo = .choice p q :: rest) :
      Step ops s (s.setProc i { s.procs i with todo := p :: rest })
  | right (i : Nat) (p q : LockProg L) (rest : List (LockProg L)) (todo : (s.procs i).todo = .choice p q :: rest) :
      Step ops s (s.setProc i { s.procs i with todo := q :: rest })
  | any (i : Nat) (f : Nat → LockProg L) (n : Nat) (rest : List (LockProg L)) (todo : (s.procs i).todo = .any f :: rest) :
      Step ops s (s.setProc i { s.procs i with todo := f n :: rest })
  | turn (i : Nat) (p : LockProg L) (rest : List (LockProg L)) (todo : (s.procs i).todo = .loop p :: rest) :
      Step ops s (s.setProc i { s.procs i with todo := p :: .loop p :: rest })
  | leave (i : Nat) (p : LockProg L) (rest : List (LockProg L)) (todo : (s.procs i).todo = .loop p :: rest) :
      Step ops s (s.setProc i { s.procs i with todo := rest })
  | take (i : Nat) (l : L) (rest : List (LockProg L)) (todo : (s.procs i).todo = .down l :: rest)
      (awake : (s.procs i).waiting = none) (free : 0 < (s.sems l).value) :
      Step ops s ((s.setSem l { s.sems l with value := (s.sems l).value - 1 }).setProc i ((s.procs i).taken l))
  | wait (i : Nat) (l : L) (rest : List (LockProg L)) (todo : (s.procs i).todo = .down l :: rest)
      (awake : (s.procs i).waiting = none) (taken : (s.sems l).value = 0) :
      Step ops s ((s.setSem l { s.sems l with queue := (s.sems l).queue ++ [i] }).setProc i
        { s.procs i with waiting := some l })
  | free (i : Nat) (l : L) (rest : List (LockProg L)) (todo : (s.procs i).todo = .up l :: rest)
      (none_waits : (s.sems l).queue = []) :
      Step ops s ((s.setSem l { s.sems l with value := (s.sems l).value + 1 }).setProc i
        { s.procs i with todo := rest, held := (s.procs i).held.erase l })
  -- the semaphore goes to the first process of the queue
  | wake (i j : Nat) (l : L) (rest : List (LockProg L)) (others : List Nat) (todo : (s.procs i).todo = .up l :: rest)
      (first : (s.sems l).queue = j :: others) :
      Step ops s (((s.setSem l { s.sems l with queue := others }).setProc i
        { s.procs i with todo := rest, held := (s.procs i).held.erase l }).setProc j ((s.procs j).taken l))

/-- Every semaphore is free, and every process is in user mode. -/
def idle : System L := ⟨fun _ => ⟨1, []⟩, fun _ => ⟨[], [], none⟩⟩

inductive Reachable (ops : Set (LockProg L)) : System L → Prop
  | start : Reachable ops idle
  | step {s t : System L} (reached : Reachable ops s) (next : Step ops s t) : Reachable ops t

/-- Some processes are each blocked on a semaphore that one of them holds. -/
def Deadlock (s : System L) : Prop := ∃ blocked : Set Nat, blocked.Nonempty ∧
  ∀ i ∈ blocked, ∃ l, (s.procs i).waiting = some l ∧ ∃ j ∈ blocked, l ∈ (s.procs j).held

end

section
variable {L : Type} [DecidableEq L] {rank : L → Nat} {s t : System L} {ops : Set (LockProg L)} {Q R : List L → Prop}
  {held : List L} {l : L} {i : Nat}

omit [DecidableEq L] in
/-- The processes that are no party to a step stay as they are. -/
theorem orderly_set {p : Process L} (all : ∀ i, Orderly rank (s.procs i)) (orderly : Orderly rank p) :
    ∀ j, Orderly rank ((s.setProc i p).procs j) := by
  intro j
  by_cases here : j = i
  · rwa [here, set_proc_same]
  · rw [set_proc_other here]
    exact all j

theorem orderly_put {p : Process L} {rest : List (LockProg L)} (orderly : Orderly rank p) (is : p.todo = .up l :: rest) :
    Orderly rank { p with todo := rest, held := p.held.erase l } := by
  have fine := orderly.fine
  rw [is] at fine
  obtain ⟨others, same, after⟩ := fine
  refine ⟨?_, fun k waiting => ?_⟩
  · change FineList rank rest (p.held.erase l)
    rw [same, List.erase_cons_head]
    exact after
  · obtain ⟨others, blocked⟩ := orderly.waits k waiting
    rw [is] at blocked
    cases blocked

/-- The processes in the queue of a semaphore are blocked on it, and each is there once. -/
structure Queued (s : System L) (l : L) : Prop where
  once : (s.sems l).queue.Nodup
  blocked : ∀ i ∈ (s.sems l).queue, (s.procs i).waiting = some l

/-- The invariant of the runs. -/
structure Ordered (rank : L → Nat) (s : System L) : Prop where
  orderly : ∀ i, Orderly rank (s.procs i)
  queued : ∀ l, Queued s l

omit [DecidableEq L] in
theorem queued_set {p : Process L} (queued : ∀ l, Queued s l) (same : p.waiting = (s.procs i).waiting) :
    ∀ l, Queued (s.setProc i p) l := by
  intro l
  refine ⟨(queued l).once, fun j mem => ?_⟩
  by_cases here : j = i
  · rw [here, set_proc_same, same]
    exact (queued l).blocked i (here ▸ mem)
  · rw [set_proc_other here]
    exact (queued l).blocked j mem

theorem queued_sem {sem : Semaphore} (queued : ∀ l, Queued s l) (once : sem.queue.Nodup)
    (blocked : ∀ i ∈ sem.queue, (s.procs i).waiting = some l) : ∀ k, Queued (s.setSem l sem) k := by
  intro k
  by_cases here : k = l
  · subst here
    exact ⟨by rwa [set_sem_same], by rwa [set_sem_same]⟩
  · exact ⟨by rw [set_sem_other here]; exact (queued k).once, by rw [set_sem_other here]; exact (queued k).blocked⟩

omit [DecidableEq L] in
theorem move_ordered {next : LockProg L} {rest todo : List (LockProg L)} (ordered : Ordered rank s)
    (is : (s.procs i).todo = next :: rest) (moves : ∀ l, next ≠ .down l)
    (fine : Fine rank next (FineList rank rest) (s.procs i).held → FineList rank todo (s.procs i).held) :
    Ordered rank (s.setProc i { s.procs i with todo }) := by
  have orderly := ordered.orderly i
  have before := orderly.fine
  rw [is] at before
  exact ⟨orderly_set ordered.orderly (orderly_moves orderly is moves (fine before)), queued_set ordered.queued rfl⟩

theorem take_ordered {rest : List (LockProg L)} {value : Nat} (ordered : Ordered rank s)
    (is : (s.procs i).todo = .down l :: rest) (awake : (s.procs i).waiting = none) :
    Ordered rank ((s.setSem l { s.sems l with value }).setProc i ((s.procs i).taken l)) where
  orderly := orderly_set ordered.orderly (orderly_taken (ordered.orderly i) is)
  queued := queued_set (queued_sem ordered.queued (ordered.queued l).once (ordered.queued l).blocked) awake.symm

theorem wait_ordered {rest : List (LockProg L)} (ordered : Ordered rank s) (is : (s.procs i).todo = .down l :: rest)
    (awake : (s.procs i).waiting = none) :
    Ordered rank ((s.setSem l { s.sems l with queue := (s.sems l).queue ++ [i] }).setProc i
      { s.procs i with waiting := some l }) where
  orderly := by
    refine orderly_set ordered.orderly ⟨(ordered.orderly i).fine, ?_⟩
    rintro k ⟨⟩
    exact ⟨rest, is⟩
  queued := by
    have nowhere : ∀ k, i ∉ (s.sems k).queue := by
      intro k mem
      have blocked := (ordered.queued k).blocked i mem
      rw [awake] at blocked
      cases blocked
    have others : ∀ {k j}, j ∈ (s.sems k).queue → ((s.setProc i { s.procs i with waiting := some l }).procs j).waiting = some k := by
      intro k j mem
      have apart : j ≠ i := by
        rintro rfl
        exact nowhere k mem
      rw [set_proc_other apart]
      exact (ordered.queued k).blocked j mem
    have queued : ∀ k, Queued (s.setProc i { s.procs i with waiting := some l }) k :=
      fun k => ⟨(ordered.queued k).once, fun j mem => others mem⟩
    refine queued_sem queued ?_ ?_
    · exact List.nodup_append.mpr ⟨(ordered.queued l).once, List.nodup_singleton i, fun j mem k last => by
        rw [List.mem_singleton.mp last]
        exact fun same => nowhere l (same ▸ mem)⟩
    · intro j mem
      rcases List.mem_append.mp mem with early | last
      · exact others early
      · rw [List.mem_singleton.mp last, set_proc_same]

theorem free_ordered {rest : List (LockProg L)} {value : Nat} (ordered : Ordered rank s)
    (is : (s.procs i).todo = .up l :: rest) :
    Ordered rank ((s.setSem l { s.sems l with value }).setProc i
      { s.procs i with todo := rest, held := (s.procs i).held.erase l }) where
  orderly := orderly_set ordered.orderly (orderly_put (ordered.orderly i) is)
  queued := queued_set (queued_sem ordered.queued (ordered.queued l).once (ordered.queued l).blocked) rfl

theorem wake_ordered {j : Nat} {rest : List (LockProg L)} {others : List Nat} (ordered : Ordered rank s)
    (is : (s.procs i).todo = .up l :: rest) (first : (s.sems l).queue = j :: others) :
    Ordered rank (((s.setSem l { s.sems l with queue := others }).setProc i
      { s.procs i with todo := rest, held := (s.procs i).held.erase l }).setProc j ((s.procs j).taken l)) := by
  have once := (ordered.queued l).once
  have blocked := (ordered.queued l).blocked
  rw [first] at once blocked
  have waiting := blocked j (.head _)
  obtain ⟨below, todo⟩ := (ordered.orderly j).waits l waiting
  obtain ⟨absent, once⟩ := List.nodup_cons.mp once
  refine ⟨orderly_set (orderly_set ordered.orderly (orderly_put (ordered.orderly i) is))
    (orderly_taken (ordered.orderly j) todo), ?_⟩
  have elsewhere : ∀ {k m}, m ∈ ((s.setSem l { s.sems l with queue := others }).sems k).queue → m ≠ j ∧
      (s.procs m).waiting = some k := by
    intro k m mem
    by_cases here : k = l
    · subst here
      rw [set_sem_same] at mem
      exact ⟨fun same => absent (same ▸ mem), blocked m (.tail _ mem)⟩
    · rw [set_sem_other here] at mem
      have there := (ordered.queued k).blocked m mem
      refine ⟨?_, there⟩
      rintro rfl
      rw [waiting] at there
      exact here (Option.some.inj there).symm
  have nodup : ∀ k, ((s.setSem l { s.sems l with queue := others }).sems k).queue.Nodup := by
    intro k
    by_cases here : k = l
    · subst here
      rwa [set_sem_same]
    · rw [set_sem_other here]
      exact (ordered.queued k).once
  refine fun k => ⟨nodup k, fun m mem => ?_⟩
  obtain ⟨apart, there⟩ := elsewhere mem
  rw [set_proc_other apart]
  by_cases here : m = i
  · rw [here, set_proc_same]
    exact here ▸ there
  · rw [set_proc_other here]
    exact there

theorem step_ordered (fine : ∀ op ∈ ops, Fine rank op (fun held => held = []) []) (ordered : Ordered rank s)
    (step : Step ops s t) : Ordered rank t := by
  cases step with
  | enter i op user known =>
    have orderly := ordered.orderly i
    have empty := orderly.fine
    rw [user] at empty
    refine ⟨orderly_set ordered.orderly ⟨?_, fun l waiting => ?_⟩, queued_set ordered.queued rfl⟩
    · have none_held : (s.procs i).held = [] := empty
      change Fine rank op (fun held => held = []) (s.procs i).held
      rw [none_held]
      exact fine op known
    · obtain ⟨rest, todo⟩ := orderly.waits l waiting
      rw [user] at todo
      cases todo
  | skip i rest todo => exact move_ordered ordered todo nofun id
  | seq i p q rest todo => exact move_ordered ordered todo nofun id
  | left i p q rest todo => exact move_ordered ordered todo nofun And.left
  | right i p q rest todo => exact move_ordered ordered todo nofun And.right
  | any i f n rest todo => exact move_ordered ordered todo nofun fun fine => fine n
  | turn i p rest todo =>
    refine move_ordered ordered todo nofun fun fine => fine_mono ?_ p fine.2
    rintro after rfl
    exact fine
  | leave i p rest todo => exact move_ordered ordered todo nofun And.left
  | take i l rest todo awake free => exact take_ordered ordered todo awake
  | wait i l rest todo awake taken => exact wait_ordered ordered todo awake
  | free i l rest todo none_waits => exact free_ordered ordered todo
  | wake i j l rest others todo first => exact wake_ordered ordered todo first

omit [DecidableEq L] in
theorem start_ordered : Ordered rank (idle : System L) :=
  ⟨fun _ => ⟨rfl, nofun⟩, fun _ => ⟨List.nodup_nil, nofun⟩⟩

theorem run_ordered (fine : ∀ op ∈ ops, Fine rank op (fun held => held = []) []) (reached : Reachable ops s) :
    Ordered rank s := by
  induction reached with
  | start => exact start_ordered
  | step _ next ih => exact step_ordered fine ih next

omit [DecidableEq L] in
/-- Among processes that block each other, the semaphores that they wait for would get higher without end. -/
theorem no_deadlock {bound : Nat} (bounded : ∀ l, rank l ≤ bound) (ordered : Ordered rank s) : ¬ Deadlock s := by
  rintro ⟨blocked, ⟨i, mem⟩, each⟩
  have higher : ∀ n, ∃ i ∈ blocked, ∃ l, (s.procs i).waiting = some l ∧ n ≤ rank l := by
    intro n
    induction n with
    | zero =>
      obtain ⟨l, waiting, -⟩ := each i mem
      exact ⟨i, mem, l, waiting, Nat.zero_le _⟩
    | succ n ih =>
      obtain ⟨i, mem, l, waiting, above⟩ := ih
      obtain ⟨k, same, j, memJ, held⟩ := each i mem
      obtain ⟨m, waitingJ, -⟩ := each j memJ
      rw [waiting] at same
      have next := blocked_above (ordered.orderly j) waitingJ k held
      rw [← Option.some.inj same] at next
      exact ⟨j, memJ, m, waitingJ, by omega⟩
  obtain ⟨i, -, l, -, beyond⟩ := higher (bound + 1)
  have top := bounded l
  omega

/-- What the order of the semaphores gives. -/
structure Safe (s : System L) : Prop where
  no_deadlock : ¬ Deadlock s
  no_self_lock : ∀ i l rest, (s.procs i).todo = .down l :: rest → l ∉ (s.procs i).held
  none_held : ∀ i, (s.procs i).todo = [] → (s.procs i).held = []

theorem reachable_safe {bound : Nat} (bounded : ∀ l, rank l ≤ bound)
    (fine : ∀ op ∈ ops, Fine rank op (fun held => held = []) []) (reached : Reachable ops s) : Safe s := by
  have ordered := run_ordered fine reached
  refine ⟨no_deadlock bounded ordered, fun i l rest todo held => ?_, fun i user => ?_⟩
  · have here := (ordered.orderly i).fine
    rw [todo] at here
    exact absurd (here.1 l held) (Nat.lt_irrefl _)
  · have here := (ordered.orderly i).fine
    rw [user] at here
    exact here

end
end LockOrder
