import Ucore.Sync.Sem

/- What each call does to sound semaphores. -/
namespace Ucore.Sync
open Transitions Process
variable {S P : Type*} {v : S → Int} {k k' : Sems S P} {p : P} {s : S}

/-- A process in `down` sleeps in the queue or was handed its unit; the queue is in the order of arrival, and the
units are accounted for. -/
structure Sound (v : S → Int) (k : Sems S P) : Prop where
  room : ∀ s, 0 ≤ k.value s ∧ k.value s ≤ INT_MAX
  served : ∀ s, 0 < k.value s → k.waitQueue s = []
  queued : ∀ s, ∀ p ∈ k.waitQueue s, k.pos p = .down s ∧ k.state p = .sleeping ∧ k.waitState p = .ksem
  granted : ∀ s p, k.Granted p s → k.state p = .runnable ∧ k.waitState p = .none ∧ k.wakeupFlags p = waitBits .ksem
  running : ∀ p, k.pos p = .running → k.state p ≠ .sleeping ∧ k.waitState p = .none
  asleep : ∀ p, k.pos p = .asleep → k.state p = .sleeping ∨ k.state p = .runnable ∧ k.waitState p = .none
  order : ∀ s, (k.waitQueue s).Pairwise fun p q => k.since p < k.since q
  clock : ∀ s, ∀ p ∈ k.waitQueue s, k.since p < k.clock
  finite : ∀ s, {p | k.Granted p s}.Finite
  account : ∀ s, (k.downs s : Int) + {p | k.Granted p s}.ncard = v s + k.ups s - k.value s

theorem init_sound (init : Init v k) : Sound v k := by
  have nobody : ∀ s, {p | k.Granted p s} = ∅ := by
    intro s
    ext p
    simp [Sems.Granted, init.pos p]
  constructor
  case room => exact fun s => (init.value s).symm ▸ init.room s
  case served => exact fun s _ => init.queue s
  case queued =>
    intro s p mem
    rw [init.queue s] at mem
    cases mem
  case granted =>
    intro s p granted
    rw [Sems.Granted, init.pos p] at granted
    cases granted.1
  case running => exact fun p _ => ⟨init.state p, init.waitState p⟩
  case asleep =>
    intro p asleep
    rw [init.pos p] at asleep
    cases asleep
  case order =>
    intro s
    rw [init.queue s]
    exact .nil
  case clock =>
    intro s p mem
    rw [init.queue s] at mem
    cases mem
  case finite =>
    intro s
    rw [nobody s]
    exact Set.finite_empty
  case account =>
    intro s
    rw [nobody s, Set.ncard_empty, init.downs s, init.ups s, init.value s]
    simp

theorem Sound.nodup (sound : Sound v k) (s : S) : (k.waitQueue s).Nodup :=
  (sound.order s).imp fun less same => absurd (same ▸ less) (lt_irrefl _)

/-- What the others than one process in no `down` see of a step that is not one of a semaphore. -/
structure Aside (k k' : Sems S P) : Prop where
  value : k'.value = k.value
  queue : k'.waitQueue = k.waitQueue
  ups : k'.ups = k.ups
  downs : k'.downs = k.downs
  clock : k'.clock = k.clock
  since : k'.since = k.since
  flags : k'.wakeupFlags = k.wakeupFlags
  down : ∀ p s, k'.pos p = .down s ↔ k.pos p = .down s
  state : ∀ p s, k.pos p = .down s → k'.state p = k.state p ∧ k'.waitState p = k.waitState p
  running : ∀ p, k'.pos p = .running → k'.state p ≠ .sleeping ∧ k'.waitState p = .none
  asleep : ∀ p, k'.pos p = .asleep → k'.state p = .sleeping ∨ k'.state p = .runnable ∧ k'.waitState p = .none

theorem Aside.granted (aside : Aside k k') (p : P) (s : S) : k'.Granted p s ↔ k.Granted p s := by
  unfold Sems.Granted
  rw [aside.down p s, aside.queue]

theorem aside_sound (aside : Aside k k') (sound : Sound v k) : Sound v k' := by
  have same : ∀ s, {p | k'.Granted p s} = {p | k.Granted p s} := by
    intro s
    ext p
    exact aside.granted p s
  constructor
  case room =>
    rw [aside.value]
    exact sound.room
  case served =>
    rw [aside.value, aside.queue]
    exact sound.served
  case queued =>
    rw [aside.queue]
    intro s p mem
    obtain ⟨pos, sleeps, waits⟩ := sound.queued s p mem
    have state := aside.state p s pos
    exact ⟨(aside.down p s).mpr pos, state.1.trans sleeps, state.2.trans waits⟩
  case granted =>
    intro s p granted
    have before := (aside.granted p s).mp granted
    obtain ⟨runs, waits, flags⟩ := sound.granted s p before
    have state := aside.state p s before.1
    exact ⟨state.1.trans runs, state.2.trans waits, (congrFun aside.flags p).trans flags⟩
  case running => exact aside.running
  case asleep => exact aside.asleep
  case order =>
    rw [aside.queue, aside.since]
    exact sound.order
  case clock =>
    rw [aside.queue, aside.since, aside.clock]
    exact sound.clock
  case finite =>
    intro s
    rw [same s]
    exact sound.finite s
  case account =>
    intro s
    rw [same s, aside.downs, aside.ups, aside.value]
    exact sound.account s

theorem exiting_aside (sound : Sound v k) (exiting : P → Bool) : Aside k { k with exiting := exiting } :=
  ⟨rfl, rfl, rfl, rfl, rfl, rfl, rfl, fun _ _ => Iff.rfl, fun _ _ _ => ⟨rfl, rfl⟩, sound.running, sound.asleep⟩

theorem Aside.trans {k'' : Sems S P} (first : Aside k k') (second : Aside k' k'') : Aside k k'' := by
  refine ⟨second.value.trans first.value, second.queue.trans first.queue, second.ups.trans first.ups,
    second.downs.trans first.downs, second.clock.trans first.clock, second.since.trans first.since,
    second.flags.trans first.flags, fun p s => (second.down p s).trans (first.down p s), fun p s down => ?_,
    second.running, second.asleep⟩
  have one := first.state p s down
  have two := second.state p s ((first.down p s).mpr down)
  exact ⟨two.1.trans one.1, two.2.trans one.2⟩

section
variable [DecidableEq P]

/- A process in another sleeping call is woken. -/
theorem wakeup_aside (sound : Sound v k) (asleep : k.pos p = .asleep) :
    ∃ k', wakeupProc p k = some k' ∧ Aside k k' := by
  have awake : k.state p ≠ .zombie := by
    rcases sound.asleep p asleep with sleeps | runs
    · rw [sleeps]
      exact ProcState.noConfusion
    · rw [runs.1]
      exact ProcState.noConfusion
  unfold wakeupProc
  rw [if_neg awake]
  split_ifs with sleeps
  · refine ⟨_, rfl, rfl, rfl, rfl, rfl, rfl, rfl, rfl, fun _ _ => Iff.rfl, ?_, ?_, ?_⟩
    · intro q s down
      have ne : q ≠ p := by
        rintro rfl
        rw [asleep] at down
        cases down
      exact ⟨Function.update_of_ne ne .., Function.update_of_ne ne ..⟩
    · intro q running
      have ne : q ≠ p := by
        rintro rfl
        rw [asleep] at running
        cases running
      dsimp only
      rw [Function.update_of_ne ne, Function.update_of_ne ne]
      exact sound.running q running
    · intro q elsewhere
      by_cases same : q = p
      · subst same
        exact .inr ⟨Function.update_self .., Function.update_self ..⟩
      · dsimp only
        rw [Function.update_of_ne same, Function.update_of_ne same]
        exact sound.asleep q elsewhere
  · exact ⟨k, rfl, rfl, rfl, rfl, rfl, rfl, rfl, rfl, fun _ _ => Iff.rfl, fun _ _ _ => ⟨rfl, rfl⟩, sound.running,
      sound.asleep⟩

/- Only one process moves, and it is in no `down`. -/
theorem move_aside (sound : Sound v k) (p : P) (state : ProcState) (wait : WaitState) (pos : Pos S)
    (before : ∀ s, k.pos p ≠ .down s) (after : ∀ s, pos ≠ .down s)
    (running : pos = .running → state ≠ .sleeping ∧ wait = .none) (asleep : pos = .asleep → state = .sleeping ∨ state = .runnable ∧ wait = .none) :
    Aside k { k with
      state := Function.update k.state p state
      waitState := Function.update k.waitState p wait
      pos := Function.update k.pos p pos } := by
  refine ⟨rfl, rfl, rfl, rfl, rfl, rfl, rfl, fun q s => ?_, fun q s down => ?_, fun q => ?_, fun q => ?_⟩ <;>
    by_cases same : q = p
  · subst same
    dsimp only
    rw [Function.update_self]
    exact ⟨fun down => absurd down (after s), fun down => absurd down (before s)⟩
  · dsimp only
    rw [Function.update_of_ne same]
  · exact absurd (same ▸ down) (before s)
  · exact ⟨Function.update_of_ne same .., Function.update_of_ne same ..⟩
  · subst same
    dsimp only
    rw [Function.update_self, Function.update_self, Function.update_self]
    exact running
  · dsimp only
    rw [Function.update_of_ne same, Function.update_of_ne same, Function.update_of_ne same]
    exact sound.running q
  · subst same
    dsimp only
    rw [Function.update_self, Function.update_self, Function.update_self]
    exact asleep
  · dsimp only
    rw [Function.update_of_ne same, Function.update_of_ne same, Function.update_of_ne same]
    exact sound.asleep q

theorem kill_aside (sound : Sound v k) (q : P) : ∃ k', doKill q k = some k' ∧ Aside k k' := by
  unfold doKill
  dsimp only
  split_ifs with exiting wakes
  · exact ⟨k, rfl, exiting_aside sound k.exiting⟩
  · have asleep : k.pos q = .asleep := by
      cases pos : k.pos q with
      | running => rw [(sound.running q pos).2] at wakes; cases wakes
      | asleep => rfl
      | down s =>
        -- `WT_KSEM` is not interrupted, and a granted process waits for nothing
        by_cases mem : q ∈ k.waitQueue s
        · rw [(sound.queued s q mem).2.2] at wakes; cases wakes
        · rw [(sound.granted s q ⟨pos, mem⟩).2.1] at wakes; cases wakes
    have killed := exiting_aside sound (Function.update k.exiting q true)
    obtain ⟨k', call, aside⟩ := wakeup_aside (aside_sound killed sound) asleep
    exact ⟨k', call, killed.trans aside⟩
  · exact ⟨_, rfl, exiting_aside sound _⟩

end

section
variable [DecidableEq S]

/-- An `up` of a semaphore without waiters. -/
structure Raised (s : S) (k k' : Sems S P) : Prop where
  empty : k.waitQueue s = []
  value : k'.value = Function.update k.value s (k.value s + 1)
  queue : k'.waitQueue = k.waitQueue
  pos : k'.pos = k.pos
  state : k'.state = k.state
  waitState : k'.waitState = k.waitState
  flags : k'.wakeupFlags = k.wakeupFlags
  since : k'.since = k.since

/-- An `up` that hands its unit to `p`. -/
structure Released (s : S) (p : P) (k k' : Sems S P) : Prop where
  value : k'.value = k.value
  first : k.waitQueue s = p :: k'.waitQueue s
  longest : ∀ q ∈ k'.waitQueue s, k.since p < k.since q
  others : ∀ t, t ≠ s → k'.waitQueue t = k.waitQueue t
  pos : k'.pos = k.pos
  woken : k'.state p = .runnable ∧ k'.waitState p = .none ∧ k'.wakeupFlags p = waitBits .ksem
  rest : ∀ q, q ≠ p → k'.state q = k.state q ∧ k'.waitState q = k.waitState q ∧ k'.wakeupFlags q = k.wakeupFlags q
  since : k'.since = k.since

theorem raised_sound (raised : Raised s k k') (ups : k'.ups = Function.update k.ups s (k.ups s + 1))
    (downs : k'.downs = k.downs) (clock : k'.clock = k.clock) (fits : k.value s < INT_MAX) (sound : Sound v k) :
    Sound v k' := by
  have granted : ∀ p t, k'.Granted p t ↔ k.Granted p t := by
    intro p t
    unfold Sems.Granted
    rw [raised.pos, raised.queue]
  have same : ∀ t, {p | k'.Granted p t} = {p | k.Granted p t} := fun t => Set.ext fun p => granted p t
  constructor
  case room =>
    intro t
    rw [raised.value]
    by_cases here : t = s
    · subst here
      have before := sound.room t
      rw [Function.update_self]
      omega
    · rw [Function.update_of_ne here]
      exact sound.room t
  case served =>
    intro t
    rw [raised.value, raised.queue]
    by_cases here : t = s
    · exact fun _ => here ▸ raised.empty
    · rw [Function.update_of_ne here]
      exact sound.served t
  case queued =>
    rw [raised.queue, raised.pos, raised.state, raised.waitState]
    exact sound.queued
  case granted =>
    intro t p mem
    rw [raised.state, raised.waitState, raised.flags]
    exact sound.granted t p ((granted p t).mp mem)
  case running =>
    rw [raised.pos, raised.state, raised.waitState]
    exact sound.running
  case asleep =>
    rw [raised.pos, raised.state, raised.waitState]
    exact sound.asleep
  case order =>
    rw [raised.queue, raised.since]
    exact sound.order
  case clock =>
    rw [raised.queue, raised.since, clock]
    exact sound.clock
  case finite =>
    intro t
    rw [same t]
    exact sound.finite t
  case account =>
    intro t
    have before := sound.account t
    rw [same t, downs, ups, raised.value]
    by_cases here : t = s
    · subst here
      rw [Function.update_self, Function.update_self]
      omega
    · rw [Function.update_of_ne here, Function.update_of_ne here]
      exact before

theorem Released.queue (released : Released s p k k') (sound : Sound v k) {t : S} {q : P} :
    q ∈ k'.waitQueue t ↔ q ∈ k.waitQueue t ∧ q ≠ p := by
  by_cases here : t = s
  · subst here
    have nodup := sound.nodup t
    rw [released.first] at nodup ⊢
    have fresh := (List.nodup_cons.mp nodup).1
    constructor
    · intro mem
      exact ⟨List.mem_cons_of_mem _ mem, fun same => fresh (same ▸ mem)⟩
    · rintro ⟨mem, ne⟩
      exact (List.mem_cons.mp mem).resolve_left ne
  · rw [released.others t here]
    refine ⟨fun mem => ⟨mem, ?_⟩, And.left⟩
    rintro rfl
    have one := (sound.queued t q mem).1
    have two := (sound.queued s q (released.first ▸ List.mem_cons_self)).1
    exact here (Pos.down.inj (one.symm.trans two))

theorem Released.granted (released : Released s p k k') (sound : Sound v k) (t : S) :
    {q | k'.Granted q t} = if t = s then insert p {q | k.Granted q t} else {q | k.Granted q t} := by
  have first := sound.queued s p (released.first ▸ List.mem_cons_self)
  ext q
  have queue := released.queue sound (t := t) (q := q)
  have here : q = p → k.pos q = .down s := fun same => same ▸ first.1
  split_ifs with same
  · subst same
    simp only [Set.mem_ofPred_eq, Set.mem_insert_iff, Sems.Granted, released.pos, queue]
    tauto
  · simp only [Set.mem_ofPred_eq, Sems.Granted, released.pos, queue]
    have apart : k.pos q = .down t → q ≠ p := by
      intro down at_first
      exact same (Pos.down.inj (down.symm.trans (here at_first)))
    tauto

theorem released_sound (released : Released s p k k') (ups : k'.ups = Function.update k.ups s (k.ups s + 1))
    (downs : k'.downs = k.downs) (clock : k'.clock = k.clock) (sound : Sound v k) : Sound v k' := by
  have first := sound.queued s p (released.first ▸ List.mem_cons_self)
  have before : p ∉ {q | k.Granted q s} := fun granted => granted.2 (released.first ▸ List.mem_cons_self)
  have queue : ∀ {t q}, q ∈ k'.waitQueue t ↔ q ∈ k.waitQueue t ∧ q ≠ p := released.queue sound
  have handed := released.granted sound
  constructor
  case room =>
    rw [released.value]
    exact sound.room
  case served =>
    intro t positive
    rw [released.value] at positive
    have empty := sound.served t positive
    rw [List.eq_nil_iff_forall_not_mem] at empty ⊢
    exact fun q mem => empty q (queue.mp mem).1
  case queued =>
    intro t q mem
    obtain ⟨mem, ne⟩ := queue.mp mem
    have rest := released.rest q ne
    rw [released.pos, rest.1, rest.2.1]
    exact sound.queued t q mem
  case granted =>
    intro t q mem
    by_cases same : q = p
    · exact same ▸ released.woken
    · have rest := released.rest q same
      rw [rest.1, rest.2.1, rest.2.2]
      refine sound.granted t q ⟨released.pos ▸ mem.1, fun inside => mem.2 (queue.mpr ⟨inside, same⟩)⟩
  case running =>
    intro q running
    rw [released.pos] at running
    have ne : q ≠ p := by
      rintro rfl
      rw [first.1] at running
      cases running
    rw [(released.rest q ne).1, (released.rest q ne).2.1]
    exact sound.running q running
  case asleep =>
    intro q asleep
    rw [released.pos] at asleep
    have ne : q ≠ p := by
      rintro rfl
      rw [first.1] at asleep
      cases asleep
    rw [(released.rest q ne).1, (released.rest q ne).2.1]
    exact sound.asleep q asleep
  case order =>
    intro t
    rw [released.since]
    by_cases here : t = s
    · have order := sound.order s
      rw [released.first] at order
      exact here ▸ (List.pairwise_cons.mp order).2
    · rw [released.others t here]
      exact sound.order t
  case clock =>
    intro t q mem
    rw [released.since, clock]
    exact sound.clock t q (queue.mp mem).1
  case finite =>
    intro t
    rw [handed t]
    split_ifs
    · exact (sound.finite t).insert p
    · exact sound.finite t
  case account =>
    intro t
    have account := sound.account t
    rw [handed t, downs, ups, released.value]
    split_ifs with here
    · subst here
      rw [Set.ncard_insert_of_notMem before (sound.finite t), Function.update_self]
      omega
    · rw [Function.update_of_ne here]
      exact account

end

variable [DecidableEq S] [DecidableEq P]

theorem increment_fits {value : Int} (nonneg : 0 ≤ value) (fits : value < INT_MAX) : increment value = value + 1 := by
  unfold increment
  unfold INT_MAX at fits
  apply Int.bmod_eq_of_le <;> omega

theorem up_raises (sound : Sound v k) (fits : k.value s < INT_MAX) (empty : k.waitQueue s = []) :
    ∃ k', up s k = some k' ∧ Raised s k k' ∧ k'.ups = Function.update k.ups s (k.ups s + 1) ∧ k'.downs = k.downs ∧
      k'.clock = k.clock := by
  unfold up
  dsimp only
  rw [empty, increment_fits (sound.room s).1 fits]
  exact ⟨_, rfl, ⟨empty, rfl, rfl, rfl, rfl, rfl, rfl, rfl⟩, rfl, rfl, rfl⟩

theorem up_releases (sound : Sound v k) {rest : List P} (first : k.waitQueue s = p :: rest) :
    ∃ k', up s k = some k' ∧ Released s p k k' ∧ k'.ups = Function.update k.ups s (k.ups s + 1) ∧ k'.downs = k.downs ∧
      k'.clock = k.clock := by
  have queued := sound.queued s p (first ▸ List.mem_cons_self)
  have order := sound.order s
  rw [first] at order
  unfold up
  dsimp only
  rw [first]
  dsimp only
  rw [if_pos queued.2.2]
  unfold wakeupWait wakeupProc
  dsimp only
  rw [queued.2.1, if_neg (by decide), if_pos (by decide)]
  refine ⟨_, rfl, ⟨rfl, ?_, ?_, fun t ne => Function.update_of_ne ne .., rfl, ?_, fun q ne => ?_, rfl⟩, rfl, rfl, rfl⟩
  · dsimp only
    rw [Function.update_self, first, List.erase_cons_head]
  · dsimp only
    rw [Function.update_self, first, List.erase_cons_head]
    exact (List.pairwise_cons.mp order).1
  · exact ⟨Function.update_self .., Function.update_self .., Function.update_self ..⟩
  · exact ⟨Function.update_of_ne ne .., Function.update_of_ne ne .., Function.update_of_ne ne ..⟩

end Ucore.Sync
