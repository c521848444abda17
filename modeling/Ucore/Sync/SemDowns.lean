import Ucore.Sync.SemSteps

/- What `down` does to sound semaphores, before and after it sleeps. -/
namespace Ucore.Sync
open Transitions Process
variable {S P : Type*} {v : S → Int} {k k' : Sems S P} {p : P} {s : S}

theorem Sound.not_queued (sound : Sound v k) (running : k.pos p = .running) (t : S) : p ∉ k.waitQueue t := by
  intro mem
  rw [(sound.queued t p mem).1] at running
  cases running

section
variable [DecidableEq P]

/-- A handed-over process returns from `down`. -/
structure Returned (p : P) (s : S) (k k' : Sems S P) : Prop where
  value : k'.value = k.value
  queue : k'.waitQueue = k.waitQueue
  pos : k'.pos = Function.update k.pos p .running
  state : k'.state = k.state
  waitState : k'.waitState = k.waitState
  flags : k'.wakeupFlags = k.wakeupFlags

theorem Returned.granted (returned : Returned p s k k') (q : P) (t : S) :
    k'.Granted q t ↔ k.Granted q t ∧ q ≠ p := by
  unfold Sems.Granted
  rw [returned.queue, returned.pos]
  by_cases same : q = p
  · subst same
    rw [Function.update_self]
    exact ⟨fun granted => (nomatch granted.1), fun granted => absurd rfl granted.2⟩
  · rw [Function.update_of_ne same]
    tauto

end

variable [DecidableEq S]

theorem taken_sound (sound : Sound v k) (positive : 0 < k.value s) : Sound v (takeUnit s k) := by
  refine { sound with room := fun t => ?_, served := fun t => ?_, account := fun t => ?_ }
  · have room := sound.room t
    unfold takeUnit
    dsimp only
    by_cases here : t = s
    · subst here
      rw [Function.update_self]
      omega
    · rw [Function.update_of_ne here]
      exact room
  · unfold takeUnit
    dsimp only
    by_cases here : t = s
    · exact fun _ => sound.served t (here ▸ positive)
    · rw [Function.update_of_ne here]
      exact sound.served t
  · have account := sound.account t
    change ((Function.update k.downs s (k.downs s + 1) t : Nat) : Int) + ({p | k.Granted p t}.ncard : Nat) =
      v t + k.ups t - Function.update k.value s (k.value s - 1) t
    by_cases here : t = s
    · subst here
      rw [Function.update_self, Function.update_self]
      omega
    · rw [Function.update_of_ne here, Function.update_of_ne here]
      exact account

variable [DecidableEq P]

/- `down` of a semaphore without units. -/
def Sems.waiting (k : Sems S P) (p : P) (s : S) : Sems S P :=
  { waitCurrentSet s p .ksem k with pos := Function.update k.pos p (.down s) }

theorem down_eq : down p s k = if 0 < k.value s then takeUnit s k else k.waiting p s := rfl

theorem waiting_queue {t : S} {q : P} :
    q ∈ (k.waiting p s).waitQueue t ↔ q ∈ k.waitQueue t ∨ q = p ∧ t = s := by
  change q ∈ Function.update k.waitQueue s (k.waitQueue s ++ [p]) t ↔ _
  by_cases here : t = s
  · subst here
    rw [Function.update_self, List.mem_append, List.mem_singleton]
    tauto
  · rw [Function.update_of_ne here]
    tauto

theorem waiting_granted (running : k.pos p = .running) (q : P) (t : S) :
    (k.waiting p s).Granted q t ↔ k.Granted q t := by
  unfold Sems.Granted
  rw [waiting_queue]
  change Function.update k.pos p (.down s) q = .down t ∧ _ ↔ _
  by_cases same : q = p
  · subst same
    rw [Function.update_self, running]
    constructor
    · rintro ⟨down, outside⟩
      exact absurd (.inr ⟨rfl, (Pos.down.inj down).symm⟩) outside
    · rintro ⟨down, _⟩
      cases down
  · rw [Function.update_of_ne same]
    tauto

theorem waiting_sound (sound : Sound v k) (running : k.pos p = .running) (none_left : ¬ 0 < k.value s) :
    Sound v (k.waiting p s) := by
  have fresh := sound.not_queued running
  have same : ∀ t, {q | (k.waiting p s).Granted q t} = {q | k.Granted q t} :=
    fun t => Set.ext fun q => waiting_granted running q t
  have moved : ∀ q, q ≠ p → (k.waiting p s).pos q = k.pos q ∧ (k.waiting p s).state q = k.state q ∧
      (k.waiting p s).waitState q = k.waitState q ∧ (k.waiting p s).wakeupFlags q = k.wakeupFlags q := fun q ne =>
    ⟨Function.update_of_ne ne .., Function.update_of_ne ne .., Function.update_of_ne ne .., Function.update_of_ne ne ..⟩
  have pos : (k.waiting p s).pos p = .down s := Function.update_self ..
  have since : (k.waiting p s).since p = k.clock := Function.update_self ..
  have earlier : ∀ t, ∀ q ∈ k.waitQueue t, (k.waiting p s).since q = k.since q := by
    intro t q mem
    exact Function.update_of_ne (ne_of_mem_of_not_mem mem (fresh t)) ..
  constructor
  case room => exact sound.room
  case served =>
    intro t positive
    have here : t ≠ s := fun here => none_left (here ▸ positive)
    exact (Function.update_of_ne here ..).trans (sound.served t positive)
  case queued =>
    intro t q mem
    rcases waiting_queue.mp mem with before | ⟨rfl, rfl⟩
    · have rest := moved q fun at_last => fresh t (at_last ▸ before)
      rw [rest.1, rest.2.1, rest.2.2.1]
      exact sound.queued t q before
    · exact ⟨pos, Function.update_self .., Function.update_self ..⟩
  case granted =>
    intro t q mem
    have before := (waiting_granted running q t).mp mem
    have ne : q ≠ p := by
      rintro rfl
      rw [before.1] at running
      cases running
    have rest := moved q ne
    rw [rest.2.1, rest.2.2.1, rest.2.2.2]
    exact sound.granted t q before
  case running =>
    intro q at_rest
    have ne : q ≠ p := by
      rintro rfl
      rw [pos] at at_rest
      cases at_rest
    have rest := moved q ne
    rw [rest.2.1, rest.2.2.1]
    exact sound.running q (rest.1 ▸ at_rest)
  case asleep =>
    intro q at_rest
    have ne : q ≠ p := by
      rintro rfl
      rw [pos] at at_rest
      cases at_rest
    have rest := moved q ne
    rw [rest.2.1, rest.2.2.1]
    exact sound.asleep q (rest.1 ▸ at_rest)
  case order =>
    intro t
    have kept : (k.waitQueue t).Pairwise fun q r => (k.waiting p s).since q < (k.waiting p s).since r := by
      refine (sound.order t).imp_of_mem fun {q r} hq hr less => ?_
      rw [earlier t q hq, earlier t r hr]
      exact less
    change (Function.update k.waitQueue s (k.waitQueue s ++ [p]) t).Pairwise _
    by_cases here : t = s
    · subst here
      rw [Function.update_self, List.pairwise_append]
      refine ⟨kept, List.pairwise_singleton .., fun q mem r last => ?_⟩
      rw [List.mem_singleton.mp last, since, earlier t q mem]
      exact sound.clock t q mem
    · rw [Function.update_of_ne here]
      exact kept
  case clock =>
    intro t q mem
    change _ < k.clock + 1
    rcases waiting_queue.mp mem with before | ⟨rfl, _⟩
    · rw [earlier t q before]
      exact Nat.lt_succ_of_lt (sound.clock t q before)
    · rw [since]
      exact Nat.lt_succ_self _
  case finite =>
    intro t
    rw [same t]
    exact sound.finite t
  case account =>
    intro t
    rw [same t]
    exact sound.account t

theorem down_returns (sound : Sound v k) (granted : k.Granted p s) :
    ∃ k', downReturn p s k = some k' ∧ Returned p s k k' ∧ k'.ups = k.ups ∧
      k'.downs = Function.update k.downs s (k.downs s + 1) ∧ k'.clock = k.clock ∧ k'.since = k.since := by
  have flags := (sound.granted s p granted).2.2
  unfold downReturn
  dsimp only
  rw [flags, if_neg (not_not.mpr rfl), if_pos rfl]
  refine ⟨_, rfl, ⟨rfl, ?_, rfl, rfl, rfl, rfl⟩, rfl, rfl, rfl, rfl⟩
  dsimp only
  rw [List.erase_of_not_mem granted.2, Function.update_eq_self]

theorem returned_sound (granted : k.Granted p s) (returned : Returned p s k k') (ups : k'.ups = k.ups)
    (downs : k'.downs = Function.update k.downs s (k.downs s + 1)) (clock : k'.clock = k.clock)
    (since : k'.since = k.since) (sound : Sound v k) : Sound v k' := by
  have others : ∀ q, q ≠ p → k'.pos q = k.pos q := fun q ne => by rw [returned.pos, Function.update_of_ne ne]
  have handed := sound.granted s p granted
  have set : ∀ t, {q | k'.Granted q t} = {q | k.Granted q t} \ {p} := fun t => Set.ext fun q => returned.granted q t
  constructor
  case room =>
    rw [returned.value]
    exact sound.room
  case served =>
    rw [returned.value, returned.queue]
    exact sound.served
  case queued =>
    rw [returned.queue, returned.state, returned.waitState]
    intro t q mem
    have queued := sound.queued t q mem
    have ne : q ≠ p := by
      rintro rfl
      rw [handed.1] at queued
      cases queued.2.1
    rw [others q ne]
    exact queued
  case granted =>
    rw [returned.state, returned.waitState, returned.flags]
    exact fun t q mem => sound.granted t q ((returned.granted q t).mp mem).1
  case running =>
    rw [returned.state, returned.waitState]
    intro q running
    by_cases same : q = p
    · rw [same, handed.1]
      exact ⟨ProcState.noConfusion, handed.2.1⟩
    · exact sound.running q (others q same ▸ running)
  case asleep =>
    rw [returned.state, returned.waitState]
    intro q asleep
    have ne : q ≠ p := by
      rintro rfl
      rw [returned.pos, Function.update_self] at asleep
      cases asleep
    exact sound.asleep q (others q ne ▸ asleep)
  case order =>
    rw [returned.queue, since]
    exact sound.order
  case clock =>
    rw [returned.queue, since, clock]
    exact sound.clock
  case finite =>
    intro t
    rw [set t]
    exact (sound.finite t).sdiff
  case account =>
    intro t
    have account := sound.account t
    rw [set t, downs, ups, returned.value]
    by_cases here : t = s
    · subst here
      have one := Set.ncard_sdiff_singleton_add_one (show p ∈ {q | k.Granted q t} from granted) (sound.finite t)
      rw [Function.update_self]
      omega
    · have elsewhere : p ∉ {q | k.Granted q t} := fun inside => here (Pos.down.inj (inside.1.symm.trans granted.1))
      rw [Set.sdiff_singleton_eq_self elsewhere, Function.update_of_ne here]
      exact account

end Ucore.Sync
