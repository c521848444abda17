import Ucore.Fs.Devs.StdinRuns

/- lab8/kern/driver/console.c: the ring of characters that the serial port has given; the clock tick of trap/trap.c,
   which passes one of them on to stdin; and libs/readline.c, which edits a line of them and echoes it. -/
namespace Ucore.Console
open Transitions

def CONSBUFSIZE : Nat := 512

/-- `cons`. -/
structure Cons where
  buf : Nat → UInt8
  rpos : Nat
  wpos : Nat

/-- The ring, and what the serial port has still to give. -/
structure Input where
  cons : Cons
  port : List UInt8

section Ring

/- `serial_proc_data` of a character that is there. -/
def serialProcData (c : UInt8) : UInt8 := if c = 127 then 8 else c

def Cons.store (s : Cons) (c : UInt8) : Cons :=
  let wpos := s.wpos + 1
  { s with buf := Function.update s.buf s.wpos c, wpos := if wpos = CONSBUFSIZE then 0 else wpos }

/- The loop, until the port has nothing left. -/
def consIntr : List UInt8 → Cons → Cons
  | [], s => s
  | c :: port, s => consIntr port (if serialProcData c ≠ 0 then s.store (serialProcData c) else s)

def serialIntr (s : Input) : Input := ⟨consIntr s.port s.cons, []⟩

def Cons.fetch (s : Cons) : UInt8 × Cons :=
  if s.rpos ≠ s.wpos then
    let rpos := s.rpos + 1
    (s.buf s.rpos, { s with rpos := if rpos = CONSBUFSIZE then 0 else rpos })
  else (0, s)

def consGetc (s : Input) : UInt8 × Input :=
  let polled := serialIntr s
  (polled.cons.fetch.1, { polled with cons := polled.cons.fetch.2 })

inductive ConsCall where
  | arrive (c : UInt8)
  | intr
  | getc (c : UInt8)
  deriving DecidableEq

def ConsStep (s : Input) : ConsCall → Input → Prop
  | .arrive c, t => t = { s with port := s.port ++ [c] }
  | .intr, t => t = serialIntr s
  | .getc c, t => (c, t) = consGetc s

end Ring

section Queue

/-- What the ring is for: the characters that wait, in their order. As nothing looks for a full ring, the last free
place empties it. -/
structure Waiting where
  queue : List UInt8
  port : List UInt8

def feed (queue : List UInt8) (c : UInt8) : List UInt8 :=
  if serialProcData c = 0 then queue
  else if queue.length + 1 = CONSBUFSIZE then []
  else queue ++ [serialProcData c]

def QueueStep (w : Waiting) : ConsCall → Waiting → Prop
  | .arrive c, w' => w' = { w with port := w.port ++ [c] }
  | .intr, w' => w' = ⟨w.port.foldl feed w.queue, []⟩
  | .getc c, w' => c = (w.port.foldl feed w.queue).headD 0 ∧ w' = ⟨(w.port.foldl feed w.queue).tail, []⟩

/- The characters between the two positions. -/
def Cons.pending (s : Cons) : List UInt8 :=
  (List.range ((s.wpos + CONSBUFSIZE - s.rpos) % CONSBUFSIZE)).map fun i => s.buf ((s.rpos + i) % CONSBUFSIZE)

def Input.waiting (s : Input) : Waiting := ⟨s.cons.pending, s.port⟩

/-- Both positions are in the ring. -/
structure Cons.InRing (s : Cons) : Prop where
  read : s.rpos < CONSBUFSIZE
  write : s.wpos < CONSBUFSIZE

variable {s : Cons} {c : UInt8} {w w' : Waiting} {k t : Input}

theorem store_in_ring (inside : s.InRing) : (s.store c).InRing := by
  obtain ⟨read, write⟩ := inside
  refine ⟨read, ?_⟩
  unfold Cons.store
  dsimp only
  split_ifs with full
  · decide
  · unfold CONSBUFSIZE at *
    omega

theorem store_pending (inside : s.InRing) (nonzero : serialProcData c ≠ 0) :
    (s.store (serialProcData c)).pending = feed s.pending c := by
  obtain ⟨read, write⟩ := inside
  have size : CONSBUFSIZE = 512 := rfl
  have length : s.pending.length = (s.wpos + CONSBUFSIZE - s.rpos) % CONSBUFSIZE := by
    unfold Cons.pending
    rw [List.length_map, List.length_range]
  rw [size] at read write length
  have next : (s.store (serialProcData c)).wpos = (s.wpos + 1) % 512 := by
    unfold Cons.store
    rw [size]
    dsimp only
    split_ifs <;> omega
  have kept : ∀ i, i < (s.wpos + 512 - s.rpos) % 512 →
      (s.store (serialProcData c)).buf ((s.rpos + i) % 512) = s.buf ((s.rpos + i) % 512) := by
    intro i below
    apply Function.update_of_ne
    omega
  unfold feed
  rw [if_neg nonzero, length, size]
  unfold Cons.pending
  rw [next, size]
  change (List.range (((s.wpos + 1) % 512 + 512 - s.rpos) % 512)).map
    (fun i => (s.store (serialProcData c)).buf ((s.rpos + i) % 512)) = _
  split_ifs with full
  · have empty : ((s.wpos + 1) % 512 + 512 - s.rpos) % 512 = 0 := by omega
    rw [empty]
    rfl
  · have longer : ((s.wpos + 1) % 512 + 512 - s.rpos) % 512 = (s.wpos + 512 - s.rpos) % 512 + 1 := by omega
    have last : (s.rpos + (s.wpos + 512 - s.rpos) % 512) % 512 = s.wpos := by omega
    rw [longer, List.range_succ, List.map_append, List.map_singleton, last]
    congr 1
    · apply List.map_congr_left
      intro i mem
      exact kept i (List.mem_range.mp mem)
    · unfold Cons.store
      simp

theorem intr_pending (port : List UInt8) (inside : s.InRing) :
    (consIntr port s).InRing ∧ (consIntr port s).pending = port.foldl feed s.pending := by
  induction port generalizing s with
  | nil => exact ⟨inside, rfl⟩
  | cons c port ih =>
    unfold consIntr
    by_cases zero : serialProcData c = 0
    · have same : feed s.pending c = s.pending := by
        unfold feed
        rw [if_pos zero]
      rw [if_neg (not_not.mpr zero), List.foldl_cons, same]
      exact ih inside
    · rw [if_pos zero, List.foldl_cons, ← store_pending inside zero]
      exact ih (store_in_ring inside)

theorem fetch_pending (inside : s.InRing) :
    s.fetch.2.InRing ∧ s.fetch.1 = s.pending.headD 0 ∧ s.fetch.2.pending = s.pending.tail := by
  obtain ⟨read, write⟩ := inside
  have size : CONSBUFSIZE = 512 := rfl
  rw [size] at read write
  unfold Cons.fetch
  split_ifs with some_there
  · have longer : (s.wpos + 512 - s.rpos) % 512 = (s.wpos + 512 - (s.rpos + 1)) % 512 + 1 := by omega
    have next : (if s.rpos + 1 = 512 then 0 else s.rpos + 1) = (s.rpos + 1) % 512 := by
      split_ifs <;> omega
    have count : (s.wpos + 512 - (s.rpos + 1) % 512) % 512 = (s.wpos + 512 - (s.rpos + 1)) % 512 := by omega
    have first : (s.rpos + 0) % 512 = s.rpos := by omega
    unfold Cons.pending
    dsimp only
    rw [size, next, longer, count, List.range_succ_eq_map, List.map_cons, List.map_map, first]
    refine ⟨⟨Nat.mod_lt _ (by decide), write⟩, rfl, ?_⟩
    rw [List.tail_cons]
    apply List.map_congr_left
    intro i mem
    change s.buf _ = s.buf _
    congr 1
    omega
  · have none_there : (s.wpos + 512 - s.rpos) % 512 = 0 := by omega
    have empty : s.pending = [] := by
      unfold Cons.pending
      rw [size, none_there]
      rfl
    rw [empty]
    exact ⟨⟨read, write⟩, rfl, rfl⟩

theorem console_step {c : ConsCall} (inside : k.cons.InRing) (step : ConsStep k c t) :
    t.cons.InRing ∧ QueueStep k.waiting c t.waiting := by
  obtain ⟨polled, contents⟩ := intr_pending k.port inside
  cases c with
  | arrive c =>
    obtain rfl := step
    exact ⟨inside, rfl⟩
  | intr =>
    obtain rfl := step
    refine ⟨polled, ?_⟩
    unfold QueueStep Input.waiting serialIntr
    rw [contents]
  | getc c =>
    obtain ⟨rest, answer, left⟩ := fetch_pending polled
    have both := step
    unfold ConsStep consGetc serialIntr at both
    obtain ⟨rfl, rfl⟩ := Prod.mk.inj both
    refine ⟨rest, ?_, ?_⟩
    · rw [answer, contents]
      rfl
    · unfold Input.waiting
      rw [left, contents]

theorem console_run {cs : List ConsCall} (inside : k.cons.InRing) (run : Run ConsStep k cs t) :
    Run QueueStep k.waiting cs t.waiting := by
  induction run with
  | stop k => exact .stop _
  | call first rest ih =>
    obtain ⟨inside', step⟩ := console_step inside first
    exact .call step (ih inside')

/-- What has arrived, as the ring takes it. -/
def taken (c : UInt8) : List UInt8 := if serialProcData c = 0 then [] else [serialProcData c]

/-- The characters that came in during a run, and those that `cons_getc` gave. -/
def arrived : List ConsCall → List UInt8
  | [] => []
  | .arrive c :: cs => taken c ++ arrived cs
  | .intr :: cs => arrived cs
  | .getc _ :: cs => arrived cs

def delivered : List ConsCall → List UInt8
  | [] => []
  | .arrive _ :: cs => delivered cs
  | .intr :: cs => delivered cs
  | .getc c :: cs => (if c = 0 then [] else [c]) ++ delivered cs

/- Everything that waits, in the order in which it goes. -/
def Waiting.all (w : Waiting) : List UInt8 := w.queue ++ w.port.flatMap taken

/- Never a full ring on the way: at each point fewer than `CONSBUFSIZE` characters are there. -/
def NeverFull (w : Waiting) (cs : List ConsCall) : Prop :=
  ∀ n, w.all.length + (arrived (cs.take n)).length < (delivered (cs.take n)).length + CONSBUFSIZE

theorem feed_all {port queue : List UInt8} (room : (queue ++ port.flatMap taken).length < CONSBUFSIZE) :
    port.foldl feed queue = queue ++ port.flatMap taken := by
  induction port generalizing queue with
  | nil => simp
  | cons c port ih =>
    rw [List.foldl_cons, List.flatMap_cons]
    rw [List.flatMap_cons] at room
    unfold feed taken at *
    by_cases zero : serialProcData c = 0
    · simp only [if_pos zero, List.nil_append] at room ⊢
      exact ih room
    · simp only [if_neg zero] at room ⊢
      have below : ¬ queue.length + 1 = CONSBUFSIZE := by
        simp only [List.length_append, List.length_singleton] at room
        omega
      rw [if_neg below, ih (by simpa using room)]
      simp

theorem taken_nonzero : 0 ∉ taken c := by
  unfold taken
  split_ifs with zero
  · exact List.not_mem_nil
  · simpa using Ne.symm zero

theorem all_nonzero (nonzero : 0 ∉ w.queue) : 0 ∉ w.all := by
  unfold Waiting.all
  rw [List.mem_append]
  rintro (mem | mem)
  · exact nonzero mem
  · obtain ⟨c, -, zero⟩ := List.mem_flatMap.mp mem
    exact taken_nonzero zero

/- What `cons_getc` gives and what it leaves. -/
theorem split_first {all : List UInt8} (clean : 0 ∉ all) (answer : c = all.headD 0) :
    (if c = 0 then [] else [c]) ++ all.tail = all := by
  cases all with
  | nil =>
    have zero : c = 0 := answer
    simp [zero]
  | cons x xs =>
    obtain rfl : c = x := answer
    have other : c ≠ 0 := fun zero => clean (by simp [zero])
    simp [other]

/- By induction on the run: what waits at first and what comes in is what has gone and what waits at last. -/
theorem queue_order {cs : List ConsCall} (nonzero : 0 ∉ w.queue) (never : NeverFull w cs) (run : Run QueueStep w cs w') :
    w.all ++ arrived cs = delivered cs ++ w'.all := by
  induction run with
  | stop w => simp [arrived, delivered]
  | @call w u w' c cs first rest ih =>
    have room : w.all.length < CONSBUFSIZE := by simpa [arrived, delivered] using never 0
    have fed : w.port.foldl feed w.queue = w.all := feed_all room
    have clean := all_nonzero nonzero
    cases c with
    | arrive c =>
      obtain rfl := first
      have longer : ({ w with port := w.port ++ [c] } : Waiting).all = w.all ++ taken c := by
        simp [Waiting.all]
      have later := ih nonzero fun n => by
        have here := never (n + 1)
        rw [longer]
        simp only [List.take_succ_cons, arrived, delivered, List.length_append] at here ⊢
        omega
      rw [longer] at later
      simpa [arrived, delivered] using later
    | intr =>
      obtain rfl := first
      have same : (⟨w.port.foldl feed w.queue, []⟩ : Waiting).all = w.all := by
        simp [Waiting.all] at fed ⊢
        exact fed
      have later := ih (by rw [fed]; exact clean) fun n => by
        have here := never (n + 1)
        rw [same]
        simpa only [List.take_succ_cons, arrived, delivered] using here
      rw [same] at later
      simpa [arrived, delivered] using later
    | getc c =>
      obtain ⟨answer, rfl⟩ := first
      rw [fed] at answer
      have split := split_first clean answer
      have left : (⟨(w.port.foldl feed w.queue).tail, []⟩ : Waiting).all = w.all.tail := by
        rw [fed]
        simp [Waiting.all]
      have later := ih (by rw [fed]; exact fun mem => clean (List.mem_of_mem_tail mem)) fun n => by
        have here := never (n + 1)
        have count := congrArg List.length split
        rw [left]
        simp only [List.take_succ_cons, arrived, delivered, List.length_append] at here count ⊢
        omega
      rw [left] at later
      simp only [arrived, delivered]
      rw [List.append_assoc, ← later, ← List.append_assoc, split]

/- Nothing has come in yet. -/
def empty (buf : Nat → UInt8) : Input := ⟨⟨buf, 0, 0⟩, []⟩

theorem booted_in_ring (buf : Nat → UInt8) : (empty buf).cons.InRing :=
  ⟨(by decide : 0 < CONSBUFSIZE), (by decide : 0 < CONSBUFSIZE)⟩

theorem empty_pending (buf : Nat → UInt8) : (empty buf).cons.pending = [] := by
  simp [empty, Cons.pending, CONSBUFSIZE]

theorem empty_waiting (buf : Nat → UInt8) : (empty buf).waiting = ⟨[], []⟩ := by
  unfold Input.waiting
  rw [empty_pending]
  rfl

/-- The ring is the queue of the characters that wait, however the port, the interrupts and the readers come in
between. Where it never gets full, the readers get every character that has arrived, once and in order. -/
theorem console_refines_queue {buf : Nat → UInt8} {cs : List ConsCall} (run : Run ConsStep (empty buf) cs t) :
    Run QueueStep ⟨[], []⟩ cs t.waiting ∧
      (NeverFull ⟨[], []⟩ cs → arrived cs = delivered cs ++ t.waiting.all) := by
  have queue := console_run (booted_in_ring buf) run
  rw [empty_waiting] at queue
  exact ⟨queue, fun never => queue_order List.not_mem_nil never queue⟩

/- A DEL that comes in is given out as a backspace. -/
theorem delete_delivered : ∃ t, Run ConsStep (empty fun _ => 0) [.arrive 127, .getc 8] t ∧
    Run QueueStep ⟨[], []⟩ [.arrive 127, .getc 8] t.waiting ∧ (NeverFull ⟨[], []⟩ [.arrive 127, .getc 8] →
      arrived [.arrive 127, .getc 8] = delivered [.arrive 127, .getc 8] ++ t.waiting.all) := by
  have first : ConsStep (empty fun _ => 0) (.arrive 127) ⟨⟨fun _ => 0, 0, 0⟩, [127]⟩ := rfl
  have second : ConsStep ⟨⟨fun _ => 0, 0, 0⟩, [127]⟩ (.getc 8) (consGetc ⟨⟨fun _ => 0, 0, 0⟩, [127]⟩).2 := rfl
  have run := Run.call first (.call second (.stop _))
  exact ⟨_, run, console_refines_queue run⟩

end Queue

section Ticks

/-- The ring before the buffer of stdin. -/
structure Keyboard where
  input : Input
  stdin : DevStdin.Stdin

/-- A character comes in, the clock ticks, or something happens at stdin that is no key. -/
inductive KeyCall where
  | arrive (c : UInt8)
  | tick (c : UInt8)
  | reader (e : DevStdin.StdinEvent) (out : List UInt8)

def KeyStep (s : Keyboard) : KeyCall → Keyboard → Prop
  | .arrive c, t => t = { s with input := { s.input with port := s.input.port ++ [c] } }
  | .tick c, t => (c, t.input) = consGetc s.input ∧ t.stdin = DevStdin.devStdinWrite c s.stdin
  | .reader e out, t => t.input = s.input ∧ (∀ c, e ≠ .key c) ∧ DevStdin.StdinStep s.stdin (e, out) t.stdin

/-- Neither the ring nor the buffer of stdin is full. -/
structure KeyRoom (s : Keyboard) : Prop where
  ring : s.input.waiting.all.length < CONSBUFSIZE
  stdin : s.stdin.wpos - s.stdin.rpos < DevStdin.STDIN_BUFSIZE

def RoomyStep (s : Keyboard) (c : KeyCall) (t : Keyboard) : Prop := KeyRoom s ∧ KeyStep s c t

def typedIn : List KeyCall → List UInt8
  | [] => []
  | .arrive c :: cs => taken c ++ typedIn cs
  | .tick _ :: cs => typedIn cs
  | .reader _ _ :: cs => typedIn cs

def readOut : List KeyCall → List UInt8
  | [] => []
  | .arrive _ :: cs => readOut cs
  | .tick _ :: cs => readOut cs
  | .reader _ out :: cs => out ++ readOut cs

/-- The ring is sound, and the buffer of stdin holds these characters. -/
structure Passing (s : Keyboard) (pending : List UInt8) : Prop where
  inRing : s.input.cons.InRing
  nonzero : 0 ∉ s.input.cons.pending
  held : DevStdin.Holds s.stdin pending

variable {s t : Keyboard} {pending : List UInt8}

/- `cons_getc` of a ring with room gives the first of all that wait. -/
theorem getc_first {k k' : Input} {c : UInt8} (inside : k.cons.InRing) (nonzero : 0 ∉ k.cons.pending)
    (room : k.waiting.all.length < CONSBUFSIZE) (step : (c, k') = consGetc k) :
    k'.cons.InRing ∧ 0 ∉ k'.cons.pending ∧ k.waiting.all = (if c = 0 then [] else [c]) ++ k'.waiting.all := by
  have fed : k.port.foldl feed k.cons.pending = k.waiting.all := feed_all room
  have clean := @all_nonzero k.waiting nonzero
  obtain ⟨inside', answer, after⟩ := @console_step k k' (.getc c) inside step
  have queue := congrArg Waiting.queue after
  have port := congrArg Waiting.port after
  change k'.cons.pending = (k.port.foldl feed k.cons.pending).tail at queue
  change k'.port = [] at port
  change c = (k.port.foldl feed k.cons.pending).headD 0 at answer
  rw [fed] at queue answer
  have left : k'.waiting.all = k.waiting.all.tail := by
    change k'.cons.pending ++ k'.port.flatMap taken = _
    rw [queue, port, List.flatMap_nil, List.append_nil]
  refine ⟨inside', ?_, ?_⟩
  · rw [queue]
    exact fun mem => clean (List.mem_of_mem_tail mem)
  · rw [left]
    exact (split_first clean answer).symm

/- What is in the buffer and what waits before it, through one call. -/
theorem key_step {c : KeyCall} (passing : Passing s pending) (room : KeyRoom s) (step : KeyStep s c t) :
    ∃ pending', Passing t pending' ∧
      pending ++ s.input.waiting.all ++ typedIn [c] = readOut [c] ++ pending' ++ t.input.waiting.all := by
  obtain ⟨inRing, nonzero, held⟩ := passing
  cases c with
  | arrive c =>
    obtain rfl := step
    refine ⟨pending, ⟨inRing, nonzero, held⟩, ?_⟩
    simp [typedIn, readOut, Input.waiting, Waiting.all]
  | tick c =>
    obtain ⟨got, written⟩ := step
    obtain ⟨inRing', nonzero', split⟩ := getc_first inRing nonzero room.ring got
    rw [split]
    by_cases zero : c = 0
    · have same : t.stdin = s.stdin := by
        rw [written]
        unfold DevStdin.devStdinWrite
        rw [if_pos zero]
      refine ⟨pending, ⟨inRing', nonzero', same ▸ held⟩, ?_⟩
      simp [typedIn, readOut, zero]
    · have positions : pending.length < DevStdin.STDIN_BUFSIZE := by
        have free := room.stdin
        rw [held.wpos] at free
        omega
      refine ⟨pending ++ [c], ⟨inRing', nonzero', written ▸ DevStdin.write_room held zero positions⟩, ?_⟩
      simp [typedIn, readOut, zero]
  | reader e out =>
    obtain ⟨same, no_key, event⟩ := step
    have tracks : DevStdin.Tracks s.stdin ⟨pending, []⟩ := ⟨pending, rfl, held⟩
    have fits : DevStdin.StdinEvent.Room s.stdin e := by
      cases e with
      | key c => exact absurd rfl (no_key c)
      | read p len => trivial
      | kill p => trivial
      | resume p => trivial
    obtain ⟨pending', accepted, held'⟩ := DevStdin.tracks_step tracks event fits
    have order : pending = out ++ pending' := by
      cases e with
      | key c => exact absurd rfl (no_key c)
      | read p len => simpa [DevStdin.Seen.next] using accepted
      | kill p => simpa [DevStdin.Seen.next] using accepted
      | resume p => simpa [DevStdin.Seen.next] using accepted
    refine ⟨pending', ⟨same ▸ inRing, same ▸ nonzero, held'⟩, ?_⟩
    simp [typedIn, readOut, same, order]

theorem typed_in_cons (c : KeyCall) (cs : List KeyCall) : typedIn (c :: cs) = typedIn [c] ++ typedIn cs := by
  cases c <;> simp [typedIn]

theorem read_out_cons (c : KeyCall) (cs : List KeyCall) : readOut (c :: cs) = readOut [c] ++ readOut cs := by
  cases c <;> simp [readOut]

theorem key_run {cs : List KeyCall} (passing : Passing s pending)
    (run : Run RoomyStep s cs t) :
    ∃ pending', Passing t pending' ∧
      pending ++ s.input.waiting.all ++ typedIn cs = readOut cs ++ pending' ++ t.input.waiting.all := by
  induction run generalizing pending with
  | stop s => exact ⟨pending, passing, by simp [typedIn, readOut]⟩
  | @call s u t c cs first rest ih =>
    obtain ⟨middle, passing', one⟩ := key_step passing first.1 first.2
    obtain ⟨last, passing'', others⟩ := ih passing'
    refine ⟨last, passing'', ?_⟩
    rw [typed_in_cons, read_out_cons, ← List.append_assoc, one]
    rw [List.append_assoc, List.append_assoc, ← List.append_assoc middle, others]
    simp

/-- As long as neither the ring nor the buffer of stdin is full, whatever comes in at the serial port reaches the
readers of stdin: what has been typed is what they have read, what stdin holds for them, and what is on its way. -/
theorem keys_reach_readers {buf : Nat → UInt8} {stdin : DevStdin.Stdin} {cs : List KeyCall} (init : DevStdin.Init stdin)
    (run : Run RoomyStep ⟨empty buf, stdin⟩ cs t) :
    ∃ pending, DevStdin.Holds t.stdin pending ∧ typedIn cs = readOut cs ++ pending ++ t.input.waiting.all := by
  have start : Passing ⟨empty buf, stdin⟩ [] := by
    refine ⟨booted_in_ring buf, ?_, ?_, Nat.zero_le _, fun i c here => ?_⟩
    · rw [empty_pending]
      exact List.not_mem_nil
    · rw [init.wpos, init.rpos]
      rfl
    · rw [List.getElem?_nil] at here
      cases here
  obtain ⟨pending, passing, order⟩ := key_run start run
  refine ⟨pending, passing.held, ?_⟩
  rw [empty_waiting] at order
  simpa [Waiting.all] using order

theorem reader_step {e : DevStdin.StdinEvent} {out : List UInt8} {stdin : DevStdin.Stdin} (room : KeyRoom s)
    (other : ∀ c, e ≠ .key c) (step : DevStdin.StdinStep s.stdin (e, out) stdin) :
    RoomyStep s (.reader e out) ⟨s.input, stdin⟩ := ⟨room, rfl, other, step⟩

theorem tick_step {c : UInt8} (room : KeyRoom s) (first : (consGetc s.input).1 = c) :
    RoomyStep s (.tick c) ⟨(consGetc s.input).2, DevStdin.devStdinWrite c s.stdin⟩ :=
  ⟨room, Prod.ext first.symm rfl, rfl⟩

/- A reader that waits gets both of two keys, which the clock has passed on one by one. -/
def twoKeys : List KeyCall :=
  [.reader (.read 1 2) [], .arrive 97, .arrive 98, .tick 97, .tick 98, .reader (.resume 1) [97, 98]]

theorem keys_passed_on : ∃ t, Run RoomyStep ⟨empty fun _ => 0, DevStdin.typed 0⟩ twoKeys t ∧ readOut twoKeys = [97, 98] ∧
    ∃ pending, DevStdin.Holds t.stdin pending ∧ typedIn twoKeys = readOut twoKeys ++ pending ++ t.input.waiting.all := by
  have run : Run RoomyStep ⟨empty fun _ => 0, DevStdin.typed 0⟩ twoKeys _ :=
    .call (reader_step ⟨by decide +kernel, by decide +kernel⟩ nofun rfl)
      (.call ⟨⟨by decide +kernel, by decide +kernel⟩, rfl⟩ (.call ⟨⟨by decide +kernel, by decide +kernel⟩, rfl⟩
        (.call (tick_step ⟨by decide +kernel, by decide +kernel⟩ (by decide +kernel))
          (.call (tick_step ⟨by decide +kernel, by decide +kernel⟩ (by decide +kernel))
            (.call (reader_step ⟨by decide +kernel, by decide +kernel⟩ nofun rfl) (.stop _))))))
  exact ⟨_, run, by decide, keys_reach_readers DevStdin.typed_init run⟩

end Ticks

section Readline

def BUFSIZE : Nat := 1024

/-- `buf`, `i`, and what has been written to the console. -/
structure Line where
  buf : Nat → UInt8
  i : Nat
  out : List UInt8

/- `cputchar`, down to `serial_putc`. -/
def serialPutc (c : UInt8) : List UInt8 := if c ≠ 8 then [c] else [8, 32, 8]

/- One round of the loop for a character that does not end the line. -/
def Line.round (s : Line) (c : UInt8) : Line :=
  if 32 ≤ c ∧ s.i < BUFSIZE - 1 then ⟨Function.update s.buf s.i c, s.i + 1, s.out ++ serialPutc c⟩
  else if c = 8 ∧ s.i > 0 then ⟨s.buf, s.i - 1, s.out ++ serialPutc c⟩
  else s

/- The loop over the characters that `getchar` gives; `none` when it goes on waiting. -/
def readlineLoop : List UInt8 → Line → Option Line
  | [], _ => none
  | c :: cs, s =>
      if 32 ≤ c ∧ s.i < BUFSIZE - 1 ∨ c = 8 ∧ s.i > 0 then readlineLoop cs (s.round c)
      else if c = 10 ∨ c = 13 then some ⟨Function.update s.buf s.i 0, s.i, s.out ++ serialPutc c⟩
      else readlineLoop cs s

/- `prompt` is what `cprintf` writes. -/
def readline (prompt : List UInt8) (buf : Nat → UInt8) (chars : List UInt8) : Option Line :=
  readlineLoop chars ⟨buf, 0, prompt⟩

/-- A line as its user edits it. -/
def edit (line : List UInt8) (c : UInt8) : List UInt8 :=
  if 32 ≤ c ∧ line.length < BUFSIZE - 1 then line ++ [c]
  else if c = 8 then line.dropLast
  else line

/-- One line of a terminal, and the column of the cursor. -/
structure Terminal where
  cells : List UInt8
  col : Nat

/- A backspace only moves the cursor. -/
def Terminal.write (t : Terminal) (c : UInt8) : Terminal :=
  if c = 8 then { t with col := t.col - 1 }
  else ⟨t.cells.take t.col ++ c :: t.cells.drop (t.col + 1), t.col + 1⟩

def shown (out : List UInt8) : Terminal := out.foldl Terminal.write ⟨[], 0⟩

/-- The cursor stands behind the text, and behind it are blanks only. -/
def Terminal.Shows (t : Terminal) (text : List UInt8) : Prop :=
  t.col = text.length ∧ ∃ n, t.cells = text ++ List.replicate n 32

def Has (buf : Nat → UInt8) (text : List UInt8) : Prop := ∀ j (inside : j < text.length), buf j = text[j]

/-- The buffer holds the line, and the terminal shows it behind the prompt. -/
structure Holds (s : Line) (prompt line : List UInt8) : Prop where
  count : s.i = line.length
  bytes : Has s.buf line
  short : line.length < BUFSIZE
  shows : (shown s.out).Shows (prompt ++ line)

variable {s : Line} {c : UInt8} {prompt line : List UInt8} {t : Terminal}

theorem shows_typed (shows : t.Shows line) (printed : c ≠ 8) : (t.write c).Shows (line ++ [c]) := by
  obtain ⟨col, n, cells⟩ := shows
  unfold Terminal.write Terminal.Shows
  rw [if_neg printed]
  dsimp only
  rw [col, cells, List.take_left' rfl]
  refine ⟨by simp, n - 1, ?_⟩
  rw [List.drop_append, List.drop_of_length_le (Nat.le_succ _), List.drop_replicate, List.append_assoc]
  simp

/- A backspace, a blank and a backspace. -/
theorem shows_erased (shows : t.Shows (line ++ [c])) :
    (((t.write 8).write 32).write 8).Shows line := by
  obtain ⟨col, n, cells⟩ := shows
  unfold Terminal.write Terminal.Shows
  simp only [if_true, show ¬ ((32 : UInt8) = 8) by decide, if_false]
  rw [col, cells]
  simp only [List.length_append, List.length_singleton, Nat.add_sub_cancel]
  refine ⟨trivial, n + 1, ?_⟩
  rw [List.append_assoc, List.take_left' rfl, List.drop_append, List.drop_of_length_le (Nat.le_succ _)]
  simp [List.replicate_succ]

theorem has_typed {buf : Nat → UInt8} (has : Has buf line) : Has (Function.update buf line.length c) (line ++ [c]) := by
  intro j inside
  rw [List.length_append, List.length_singleton] at inside
  by_cases last : j = line.length
  · subst last
    simp
  · rw [Function.update_of_ne last, has j (by omega), List.getElem_append_left]

theorem has_erased {buf : Nat → UInt8} (has : Has buf line) : Has buf line.dropLast := by
  intro j inside
  rw [List.length_dropLast] at inside
  rw [has j (by omega), List.getElem_dropLast]

/- Each character keeps the buffer and the terminal in step with the line as its user edits it. -/
theorem round_holds (holds : Holds s prompt line) : Holds (s.round c) prompt (edit line c) := by
  obtain ⟨count, bytes, short, shows⟩ := holds
  unfold Line.round edit
  rw [count]
  by_cases typed : 32 ≤ c ∧ line.length < BUFSIZE - 1
  · have printed : c ≠ 8 := by
      rintro rfl
      exact absurd typed.1 (by decide)
    rw [if_pos typed, if_pos typed]
    constructor
    · simp
    · exact has_typed bytes
    · have room := typed.2
      rw [List.length_append, List.length_singleton]
      omega
    · unfold serialPutc shown
      rw [if_pos printed, List.foldl_append, ← List.append_assoc]
      exact shows_typed shows printed
  · rw [if_neg typed, if_neg typed]
    by_cases back : c = 8
    · subst back
      rw [if_pos rfl]
      rcases List.eq_nil_or_concat line with rfl | ⟨rest, last, rfl⟩
      · simp only [List.length_nil, gt_iff_lt, Nat.lt_irrefl, and_false, if_false, List.dropLast_nil]
        exact ⟨count, bytes, short, shows⟩
      · rw [List.concat_eq_append] at *
        rw [List.length_append, List.length_singleton, if_pos ⟨rfl, Nat.succ_pos _⟩, List.dropLast_concat]
        constructor
        · simp
        · simpa using has_erased bytes
        · rw [List.length_append] at short
          omega
        · unfold serialPutc shown
          rw [if_neg (by decide), List.foldl_append]
          rw [← List.append_assoc] at shows
          exact shows_erased shows
    · rw [if_neg back, if_neg fun both => back both.1]
      exact ⟨count, bytes, short, shows⟩

/- By induction on the characters before the one that ends the line. -/
theorem loop_reads {chars rest : List UInt8} {newline : UInt8} (ends : newline = 10 ∨ newline = 13)
    (inside : ∀ c ∈ chars, c ≠ 10 ∧ c ≠ 13) (holds : Holds s prompt line) :
    ∃ t, Holds t prompt (chars.foldl edit line) ∧ readlineLoop (chars ++ newline :: rest) s =
      some ⟨Function.update t.buf t.i 0, t.i, t.out ++ serialPutc newline⟩ := by
  induction chars generalizing s line with
  | nil =>
    refine ⟨s, holds, ?_⟩
    have plain : ¬ (32 ≤ newline ∧ s.i < BUFSIZE - 1 ∨ newline = 8 ∧ s.i > 0) := by
      rcases ends with rfl | rfl
      · rintro (⟨large, -⟩ | ⟨back, -⟩)
        · exact absurd large (by decide)
        · exact absurd back (by decide)
      · rintro (⟨large, -⟩ | ⟨back, -⟩)
        · exact absurd large (by decide)
        · exact absurd back (by decide)
    rw [List.nil_append, readlineLoop, if_neg plain, if_pos ends]
  | cons c chars ih =>
    obtain ⟨first, later⟩ := List.forall_mem_cons.mp inside
    obtain ⟨t, final, run⟩ := ih later (@round_holds s c prompt line holds)
    refine ⟨t, final, ?_⟩
    rw [List.cons_append, readlineLoop]
    split_ifs with edits newline
    · exact run
    · rcases newline with same | same
      · exact absurd same first.1
      · exact absurd same first.2
    · have same : s.round c = s := by
        unfold Line.round
        rw [if_neg fun typed => edits (.inl typed), if_neg fun back => edits (.inr back)]
      rwa [same] at run

theorem shown_plain (plain : 8 ∉ prompt) (shows : t.Shows line) : (prompt.foldl Terminal.write t).Shows (line ++ prompt) := by
  induction prompt generalizing t line with
  | nil => simpa using shows
  | cons c prompt ih =>
    obtain ⟨first, later⟩ : 8 ≠ c ∧ 8 ∉ prompt := by simpa using plain
    have further := ih later (shows_typed shows (Ne.symm first))
    rwa [List.append_assoc, List.singleton_append] at further

theorem edited_visible {chars : List UInt8} (visible : ∀ x ∈ line, 32 ≤ x) : ∀ x ∈ chars.foldl edit line, 32 ≤ x := by
  induction chars generalizing line with
  | nil => exact visible
  | cons c chars ih =>
    apply ih
    intro x mem
    unfold edit at mem
    split_ifs at mem with typed back
    · rcases List.mem_append.mp mem with old | new
      · exact visible x old
      · exact List.mem_singleton.mp new ▸ typed.1
    · exact visible x (List.mem_of_mem_dropLast mem)
    · exact visible x mem

/-- `readline` returns the line as its user edited it, which its buffer holds with a NUL behind; and the terminal shows
that line behind the prompt until the newline is echoed. -/
theorem readline_right {chars rest : List UInt8} {newline : UInt8} (buf : Nat → UInt8) (plain : 8 ∉ prompt)
    (ends : newline = 10 ∨ newline = 13) (inside : ∀ c ∈ chars, c ≠ 10 ∧ c ≠ 13) :
    ∃ t echo, readline prompt buf (chars ++ newline :: rest) = some t ∧ t.i = (chars.foldl edit []).length ∧
      Has t.buf (chars.foldl edit []) ∧ t.buf t.i = 0 ∧ t.i < BUFSIZE ∧ 0 ∉ chars.foldl edit [] ∧
      t.out = echo ++ [newline] ∧ (shown echo).Shows (prompt ++ chars.foldl edit []) := by
  have start : Holds ⟨buf, 0, prompt⟩ prompt [] := by
    refine ⟨rfl, fun j none_there => absurd none_there (Nat.not_lt_zero j), (by decide : 0 < BUFSIZE), ?_⟩
    have blank : (⟨[], 0⟩ : Terminal).Shows [] := ⟨rfl, 0, rfl⟩
    have all := shown_plain plain blank
    rw [List.nil_append] at all
    simpa [shown] using all
  obtain ⟨t, final, run⟩ := @loop_reads _ prompt [] chars rest newline ends inside start
  have printed : serialPutc newline = [newline] := by
    unfold serialPutc
    rcases ends with rfl | rfl
    · exact if_pos (by decide)
    · exact if_pos (by decide)
  have visible := @edited_visible [] chars fun x mem => absurd mem List.not_mem_nil
  obtain ⟨count, bytes, short, shows⟩ := final
  refine ⟨_, t.out, run, count, ?_, Function.update_self .., ?_, fun zero => absurd (visible 0 zero) (by decide), ?_, shows⟩
  · intro j below
    dsimp only
    rw [count, Function.update_of_ne (by omega), bytes j below]
  · rwa [← count] at short
  · rw [printed]

/- `ab`, a backspace, and `c` at the prompt `>`. -/
theorem typed_line : ∃ t echo, readline [62] (fun _ => 0) ([97, 98, 8, 99] ++ 10 :: []) = some t ∧
    t.i = ([97, 98, 8, 99].foldl edit []).length ∧ Has t.buf ([97, 98, 8, 99].foldl edit []) ∧ t.buf t.i = 0 ∧
    t.i < BUFSIZE ∧ 0 ∉ [97, 98, 8, 99].foldl edit [] ∧ t.out = echo ++ [10] ∧
    (shown echo).Shows ([62] ++ [97, 98, 8, 99].foldl edit []) :=
  readline_right (fun _ => 0) (by simp) (.inl rfl) (by simp)

end Readline

end Ucore.Console
