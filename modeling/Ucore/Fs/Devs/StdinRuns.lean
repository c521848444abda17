import Ucore.Fs.Devs.Stdin

/- Which characters the readers of stdin get. -/
namespace Ucore.DevStdin
open Transitions

/-- The buffer has these characters, and they have not been delivered. -/
structure Holds (s : Stdin) (pending : List UInt8) : Prop where
  wpos : s.wpos = s.rpos + pending.length
  fits : pending.length ≤ STDIN_BUFSIZE
  stored : ∀ i c, pending[i]? = some c → s.buffer ((s.rpos + i) % STDIN_BUFSIZE) = c

/-- A key at a full buffer is the oldest character in it. -/
def StdinEvent.Room (s : Stdin) : StdinEvent → Prop
  | .key c => c ≠ 0 → s.wpos - s.rpos = STDIN_BUFSIZE → s.buffer (s.rpos % STDIN_BUFSIZE) = c
  | _ => True

/-- What was accepted and is not delivered is in the buffer. -/
def Tracks (s : Stdin) (o : Seen) : Prop := ∃ pending, o.accepted = o.delivered ++ pending ∧ Holds s pending

section
variable {s t : Stdin} {pending : List UInt8} {o : Seen} {c : UInt8} {p n : Nat}

theorem holds_same (holds : Holds s pending) (buffer : t.buffer = s.buffer) (rpos : t.rpos = s.rpos)
    (wpos : t.wpos = s.wpos) : Holds t pending := by
  obtain ⟨count, fits, stored⟩ := holds
  refine ⟨?_, fits, ?_⟩
  · rw [wpos, rpos, count]
  · rw [buffer, rpos]
    exact stored

/- The loop delivers the oldest characters in their order. -/
theorem read_loop_takes (holds : Holds s pending) :
    (readLoop n s).2.1 = pending.take n ∧ Holds (readLoop n s).1 (pending.drop n) := by
  induction n generalizing s pending with
  | zero => exact ⟨rfl, holds⟩
  | succ n ih =>
    obtain ⟨wpos, fits, stored⟩ := holds
    unfold readLoop
    cases pending with
    | nil =>
      have empty : ¬ s.rpos < s.wpos := by
        rw [wpos]
        exact Nat.lt_irrefl _
      rw [if_neg empty]
      exact ⟨rfl, wpos, fits, stored⟩
    | cons c pending =>
      rw [List.length_cons] at wpos fits
      have some_left : s.rpos < s.wpos := by omega
      rw [if_pos some_left]
      have first : s.buffer (s.rpos % STDIN_BUFSIZE) = c := stored 0 c rfl
      have rest : Holds { s with rpos := s.rpos + 1 } pending := by
        refine ⟨?_, Nat.le_of_succ_le fits, fun i d here => ?_⟩
        · change s.wpos = s.rpos + 1 + pending.length
          omega
        · change s.buffer ((s.rpos + 1 + i) % STDIN_BUFSIZE) = d
          rw [Nat.add_assoc, Nat.add_comm 1 i]
          exact stored (i + 1) d here
      obtain ⟨taken, later⟩ := ih rest
      refine ⟨?_, later⟩
      change s.buffer (s.rpos % STDIN_BUFSIZE) :: (readLoop n { s with rpos := s.rpos + 1 }).2.1 = _
      rw [first, taken, List.take_succ_cons]

theorem read_on_takes (holds : Holds s pending) :
    (readOn p n s).2 = pending.take n ∧ Holds (readOn p n s).1 (pending.drop n) := by
  obtain ⟨taken, later⟩ := read_loop_takes (n := n) holds
  unfold readOn
  dsimp only
  split_ifs
  · exact ⟨taken, holds_same later rfl rfl rfl⟩
  · exact ⟨taken, holds_same later rfl rfl rfl⟩

/- Waking the readers leaves the buffer. -/
theorem write_positions (key : c ≠ 0) : (devStdinWrite c s).buffer = Function.update s.buffer (s.wpos % STDIN_BUFSIZE) c ∧
    (devStdinWrite c s).rpos = s.rpos ∧
    (devStdinWrite c s).wpos = if s.wpos - s.rpos < STDIN_BUFSIZE then s.wpos + 1 else s.wpos := by
  unfold devStdinWrite Stdin.wakeupQueue
  rw [if_neg key]
  dsimp only
  split_ifs
  · exact ⟨rfl, rfl, rfl⟩
  · exact ⟨rfl, rfl, rfl⟩
  · exact ⟨rfl, rfl, rfl⟩
  · exact ⟨rfl, rfl, rfl⟩

/- A character for which there is room goes behind the others. -/
theorem write_room (holds : Holds s pending) (key : c ≠ 0) (room : pending.length < STDIN_BUFSIZE) :
    Holds (devStdinWrite c s) (pending ++ [c]) := by
  obtain ⟨buffer, rpos, wpos⟩ := write_positions (s := s) key
  obtain ⟨count, fits, stored⟩ := holds
  have free : s.wpos - s.rpos < STDIN_BUFSIZE := by omega
  rw [if_pos free] at wpos
  refine ⟨?_, ?_, fun i d here => ?_⟩
  · rw [wpos, rpos, count, List.length_append, List.length_singleton, Nat.add_assoc]
  · rw [List.length_append, List.length_singleton]
    exact room
  · rw [buffer, rpos]
    by_cases last : i = pending.length
    · subst last
      rw [List.getElem?_append_right (le_refl _), Nat.sub_self] at here
      cases here
      rw [count, Function.update_self]
    · have before : i < pending.length := by
        have inside := (List.getElem?_eq_some_iff.mp here).1
        rw [List.length_append, List.length_singleton] at inside
        omega
      rw [List.getElem?_append_left before] at here
      rw [Function.update_of_ne]
      · exact stored i d here
      · -- Two positions less than a buffer apart have different places.
        unfold STDIN_BUFSIZE at room ⊢
        omega

/- At a full buffer the oldest character is overwritten. -/
theorem write_full (holds : Holds s pending) (key : c ≠ 0) (full : pending.length = STDIN_BUFSIZE) :
    Holds (devStdinWrite c s) pending ↔ s.buffer (s.rpos % STDIN_BUFSIZE) = c := by
  obtain ⟨buffer, rpos, wpos⟩ := write_positions (s := s) key
  obtain ⟨count, fits, stored⟩ := holds
  have none_free : ¬ s.wpos - s.rpos < STDIN_BUFSIZE := by omega
  rw [if_neg none_free] at wpos
  have place : s.wpos % STDIN_BUFSIZE = s.rpos % STDIN_BUFSIZE := by
    rw [count, full, Nat.add_mod_right]
  have some_there : 0 < pending.length := by
    rw [full]
    decide
  obtain ⟨d, first⟩ : ∃ d, pending[0]? = some d := ⟨_, List.getElem?_eq_getElem some_there⟩
  have same : s.buffer (s.rpos % STDIN_BUFSIZE) = d := stored 0 d first
  constructor
  · intro held
    have now := held.stored 0 d first
    rw [buffer, rpos, place, Nat.add_zero, Function.update_self] at now
    rw [same, now]
  · intro again
    refine holds_same ⟨count, fits, stored⟩ ?_ rpos wpos
    rw [buffer, place, ← again, Function.update_eq_self]

theorem tracks_key (holds : Holds s pending) (accepted : o.accepted = o.delivered ++ pending) :
    Tracks (devStdinWrite c s) (o.next (.key c, [])) ↔ StdinEvent.Room s (.key c) := by
  have count : o.accepted.length - o.delivered.length = pending.length := by
    rw [accepted, List.length_append, Nat.add_sub_cancel_left]
  have positions : s.wpos - s.rpos = pending.length := by
    rw [holds.wpos, Nat.add_sub_cancel_left]
  unfold Seen.next StdinEvent.Room
  dsimp only
  rw [count, positions]
  by_cases key : c = 0
  · subst key
    rw [if_neg fun both => both.1 rfl]
    exact ⟨fun _ never => absurd rfl never, fun _ => ⟨pending, accepted, holds⟩⟩
  · by_cases room : pending.length < STDIN_BUFSIZE
    · rw [if_pos ⟨key, room⟩]
      refine ⟨fun _ _ full => absurd full (Nat.ne_of_lt room), fun _ => ⟨pending ++ [c], ?_, write_room holds key room⟩⟩
      change o.accepted ++ [c] = _
      rw [accepted, List.append_assoc]
    · have full : pending.length = STDIN_BUFSIZE := Nat.le_antisymm holds.fits (not_lt.mp room)
      rw [if_neg fun both => room both.2]
      constructor
      · rintro ⟨pending', accepted', holds'⟩ _ _
        obtain rfl : pending' = pending := List.append_cancel_left (accepted'.symm.trans accepted)
        exact (write_full holds key full).mp holds'
      · intro same
        exact ⟨pending, accepted, (write_full holds key full).mpr (same key full)⟩

theorem tracks_read {out : List UInt8} (holds : Holds s pending) (accepted : o.accepted = o.delivered ++ pending)
    (ran : some (readOn p n s) = some (t, out)) : Tracks t { o with delivered := o.delivered ++ out } := by
  obtain ⟨taken, later⟩ := read_on_takes (p := p) (n := n) holds
  rw [Option.some.inj ran] at taken later
  refine ⟨pending.drop n, ?_, later⟩
  change out = _ at taken
  change o.accepted = o.delivered ++ out ++ _
  rw [taken, List.append_assoc, List.take_append_drop, accepted]

/-- One event, where a key does not change what is in the buffer. -/
theorem tracks_step {e : StdinEvent × List UInt8} (tracks : Tracks s o) (step : StdinStep s e t)
    (room : e.1.Room s) : Tracks t (o.next e) := by
  obtain ⟨pending, accepted, holds⟩ := tracks
  obtain ⟨event, out⟩ := e
  unfold StdinStep Stdin.step at step
  unfold Seen.next
  have silent : out = [] → Holds t pending → Tracks t { o with delivered := o.delivered ++ out } := by
    rintro rfl later
    refine ⟨pending, ?_, later⟩
    rw [List.append_nil, accepted]
  cases event with
  | key c =>
    cases step
    exact (tracks_key holds accepted).mpr room
  | read p len =>
    dsimp only at step ⊢
    split_ifs at step
    exact tracks_read holds accepted step
  | kill p =>
    cases step
    apply silent rfl
    unfold doKill
    split_ifs
    · exact holds
    · exact holds_same holds rfl rfl rfl
  | resume p =>
    dsimp only at step ⊢
    cases here : s.reader p with
    | none =>
      rw [here] at step
      cases step
    | some r =>
      rw [here] at step
      dsimp only at step
      split_ifs at step
      unfold resume at step
      dsimp only at step
      by_cases keyed : r.keyed = true
      · rw [if_pos keyed] at step
        exact tracks_read (s := { s with queue := s.queue.erase p }) (holds_same holds rfl rfl rfl) accepted step
      · rw [if_neg keyed] at step
        cases step
        exact silent rfl (holds_same holds rfl rfl rfl)

theorem tracks_run {es : List (StdinEvent × List UInt8)} (tracks : Tracks s o)
    (run : Run (fun s e t => StdinStep s e t ∧ e.1.Room s) s es t) : Tracks t (es.foldl Seen.next o) := by
  induction run generalizing o with
  | stop s => exact tracks
  | call first rest ih => exact ih (tracks_step tracks first.1 first.2)

end

/-- In a run in which every key at a full buffer is the oldest character there, the readers get the accepted
characters in their order, each of them at most once, and the next key alters no accepted character exactly
when it is such a key again. -/
theorem stdin_is_fifo_without_overruns {s₀ s : Stdin} {es : List (StdinEvent × List UInt8)} (init : Init s₀)
    (run : Run (fun s e t => StdinStep s e t ∧ e.1.Room s) s₀ es s) :
    (seen es).delivered <+: (seen es).accepted ∧ Tracks s (seen es) ∧
      ∀ c, Tracks (devStdinWrite c s) ((seen es).next (.key c, [])) ↔ StdinEvent.Room s (.key c) := by
  have empty : Tracks s₀ ⟨[], []⟩ := by
    refine ⟨[], rfl, ?_, Nat.zero_le _, fun i c here => ?_⟩
    · rw [init.wpos, init.rpos]
      rfl
    · rw [List.getElem?_nil] at here
      cases here
  obtain ⟨pending, accepted, holds⟩ := tracks_run empty run
  exact ⟨⟨pending, accepted.symm⟩, ⟨pending, accepted, holds⟩, fun c => tracks_key holds accepted⟩

/- After `n` keys of one character. -/
def typed (n : Nat) : Stdin where
  buffer := fun i => if i < n then 97 else 0
  rpos := 0
  wpos := n
  queue := []
  reader := fun _ => none
  exiting := fun _ => false

theorem typed_init : Init (typed 0) := ⟨rfl, rfl, rfl, fun _ => rfl⟩

/- A key, a reader that has to wait for more, a kill, and another key before it runs again. -/
theorem killed_reader_reads : ∃ s,
    Run (fun s e t => StdinStep s e t ∧ e.1.Room s) (typed 0) [(.key 98, []), (.read 1 3, [98]), (.kill 1, []),
      (.key 99, []), (.resume 1, [99])] s ∧ (seen [(.key 98, []), (.read 1 3, [98]), (.kill 1, []),
      (.key 99, []), (.resume 1, [99])]).delivered <+: [98, 99] := by
  have run : ∃ s, Run (fun s e t => StdinStep s e t ∧ e.1.Room s) (typed 0) [(.key 98, []), (.read 1 3, [98]),
      (.kill 1, []), (.key 99, []), (.resume 1, [99])] s := by
    refine ⟨_, .call ⟨rfl, fun _ full => ?_⟩ (.call ⟨rfl, trivial⟩ (.call ⟨rfl, trivial⟩ (.call ⟨rfl, fun _ full => ?_⟩
      (.call ⟨rfl, trivial⟩ (.stop _)))))⟩
    · cases full
    · cases full
  obtain ⟨s, run⟩ := run
  exact ⟨s, run, (stdin_is_fifo_without_overruns typed_init run).1⟩

theorem typed_next {n : Nat} (room : n < STDIN_BUFSIZE) : devStdinWrite 97 (typed n) = typed (n + 1) := by
  have place : n % STDIN_BUFSIZE = n := Nat.mod_eq_of_lt room
  have buffer : Function.update (typed n).buffer (n % STDIN_BUFSIZE) 97 = (typed (n + 1)).buffer := by
    funext i
    rw [place]
    unfold typed
    dsimp only
    by_cases here : i = n
    · rw [here, Function.update_self, if_pos (Nat.lt_succ_self n)]
    · rw [Function.update_of_ne here]
      have same : i < n ↔ i < n + 1 := by omega
      exact if_congr same rfl rfl
  unfold devStdinWrite
  rw [if_neg (by decide)]
  dsimp only
  have free : (typed n).wpos - (typed n).rpos < STDIN_BUFSIZE := room
  rw [if_pos free, if_neg fun some_wait => some_wait rfl]
  change (⟨Function.update (typed n).buffer (n % STDIN_BUFSIZE) 97, _, _, _, _, _⟩ : Stdin) = _
  rw [buffer]
  rfl

theorem typed_run {n : Nat} (fits : n ≤ STDIN_BUFSIZE) :
    Run StdinStep (typed 0) (List.replicate n (.key 97, [])) (typed n) ∧
      seen (List.replicate n (.key 97, [])) = ⟨List.replicate n 97, []⟩ := by
  induction n with
  | zero => exact ⟨.stop _, rfl⟩
  | succ n ih =>
    obtain ⟨run, before⟩ := ih (Nat.le_of_succ_le fits)
    rw [List.replicate_succ']
    constructor
    · have last : StdinStep (typed n) (.key 97, []) (typed (n + 1)) := by
        unfold StdinStep Stdin.step
        rw [← typed_next fits]
      exact run_append run (.call last (.stop _))
    · unfold seen at before ⊢
      rw [List.foldl_append, before]
      unfold Seen.next
      dsimp only [List.foldl_cons, List.foldl_nil]
      rw [List.length_replicate, List.length_nil, if_pos ⟨by decide, fits⟩, List.replicate_succ']

/-- With the buffer full, one more key replaces the oldest character, and a reader gets the new one. -/
theorem key_at_full_buffer_is_read : ∃ s,
    Run StdinStep (typed 0) (List.replicate STDIN_BUFSIZE (.key 97, []) ++ [(.key 98, []), (.read 1 1, [98])]) s ∧
      ¬ (seen (List.replicate STDIN_BUFSIZE (.key 97, []) ++ [(.key 98, []), (.read 1 1, [98])])).delivered <+:
        (seen (List.replicate STDIN_BUFSIZE (.key 97, []) ++ [(.key 98, []), (.read 1 1, [98])])).accepted := by
  obtain ⟨run, before⟩ := typed_run (le_refl STDIN_BUFSIZE)
  refine ⟨_, run_append run (.call rfl (.call rfl (.stop _))), ?_⟩
  unfold seen at before ⊢
  rw [List.foldl_append, before]
  have dropped : Seen.next ⟨List.replicate STDIN_BUFSIZE 97, []⟩ (.key 98, []) =
      ⟨List.replicate STDIN_BUFSIZE 97, []⟩ := by
    unfold Seen.next
    dsimp only
    rw [List.length_replicate, if_neg fun both => absurd both.2 (Nat.lt_irrefl _)]
  rw [List.foldl_cons, dropped]
  rintro ⟨rest, same⟩
  change 98 :: rest = List.replicate (4095 + 1) 97 at same
  rw [List.replicate_succ] at same
  exact absurd (List.cons.inj same).1 (by decide)

end Ucore.DevStdin
