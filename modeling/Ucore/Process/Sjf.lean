import Ucore.Lib.Transitions
import Ucore.Libs.SkewHeap

/- lab6/kern/schedule/default_sched_sjf.c, with the skew heap. A process is a number, and its `lab6_run_pool` is the node
   of that number. -/
namespace Ucore.Sjf
open SkewHeap Transitions

/-- The run queue with the fields of the processes that the class reads. `queued` are those enqueued and not dequeued;
the code does not keep them. -/
structure RunQueue where
  lab6RunPool : Option Nat
  links : SkewLinks Nat
  procNum : Nat
  inRq : Nat → Bool
  lab6Priority : Nat → BitVec 32
  queued : Finset Nat

def procSjfCompF (priority : Nat → BitVec 32) (p q : Nat) : Int :=
  let c := (priority p - priority q).toInt
  if c > 0 then 1 else if c = 0 then 0 else -1

def sjfKey (priority : BitVec 32) : BitVec 32 := if priority = 0 then 1 else priority

def sjfEnqueue (fuel proc : Nat) (rq : RunQueue) : Option RunQueue :=
  let priority := Function.update rq.lab6Priority proc (sjfKey (rq.lab6Priority proc))
  (skewHeapInsert (procSjfCompF priority) fuel rq.lab6RunPool proc rq.links).map fun (pool, links) =>
    { lab6RunPool := pool, links, procNum := rq.procNum + 1, inRq := Function.update rq.inRq proc true
      lab6Priority := priority, queued := insert proc rq.queued }

/- `none` is the assertion, or the lack of fuel. -/
def sjfDequeue (fuel proc : Nat) (rq : RunQueue) : Option RunQueue :=
  if rq.inRq proc = true ∧ rq.procNum > 0 then
    (skewHeapRemove (procSjfCompF rq.lab6Priority) fuel rq.lab6RunPool proc rq.links).map fun (pool, links) =>
      { rq with lab6RunPool := pool, links, procNum := rq.procNum - 1, queued := rq.queued.erase proc }
  else none

def sjfPickNext (rq : RunQueue) : Option Nat := rq.lab6RunPool

inductive Call where
  | setPriority (proc : Nat) (priority : BitVec 32)
  | enqueue (proc : Nat)
  | dequeue (proc : Nat)

/- The priority of a process is set while it runs, that is, while it is not queued. -/
inductive Step : RunQueue → Call → RunQueue → Prop
  | setPriority {rq : RunQueue} {proc : Nat} (priority : BitVec 32) (out : proc ∉ rq.queued) :
      Step rq (.setPriority proc priority) { rq with lab6Priority := Function.update rq.lab6Priority proc priority }
  | enqueue {rq rq' : RunQueue} {fuel proc : Nat} (out : proc ∉ rq.queued) (done : sjfEnqueue fuel proc rq = some rq') :
      Step rq (.enqueue proc) rq'
  | dequeue {rq rq' : RunQueue} {fuel proc : Nat} (mem : proc ∈ rq.queued) (done : sjfDequeue fuel proc rq = some rq') :
      Step rq (.dequeue proc) rq'

/-- `sjf_init`. -/
structure Init (rq : RunQueue) : Prop where
  pool : rq.lab6RunPool = none
  procNum : rq.procNum = 0
  queued : rq.queued = ∅

/-- What the pick owes: a shortest job, as unsigned numbers go. -/
structure Shortest (rq : RunQueue) : Prop where
  null_iff : sjfPickNext rq = none ↔ rq.queued = ∅
  shortest : ∀ p, sjfPickNext rq = some p → p ∈ rq.queued ∧
    ∀ q ∈ rq.queued, (sjfKey (rq.lab6Priority p)).toNat ≤ (sjfKey (rq.lab6Priority q)).toNat

/- The calls end. -/
def CallsEnd (rq : RunQueue) : Prop :=
  (∀ proc, proc ∉ rq.queued → ∃ fuel rq', sjfEnqueue fuel proc rq = some rq') ∧
    ∀ proc ∈ rq.queued, ∃ fuel rq', sjfDequeue fuel proc rq = some rq'

/-- Two priorities that a signed difference of 32 bits compares rightly. -/
def Told (a b : BitVec 32) : Prop := a.toNat < b.toNat + 2 ^ 31 ∧ b.toNat ≤ a.toNat + 2 ^ 31

/- The pairs that the call compares in the heap are compared rightly. -/
def RightlyCompared (rq : RunQueue) : Call → Prop
  | .setPriority _ _ => True
  | .enqueue proc =>
      let priority := Function.update rq.lab6Priority proc (sjfKey (rq.lab6Priority proc))
      ∀ h, Rooted rq.links rq.lab6RunPool h →
        Compared (less (procSjfCompF priority)) (fun p q => Told (priority p) (priority q)) h (.node .nil proc .nil)
  | .dequeue proc => ∀ h, Rooted rq.links rq.lab6RunPool h → RemoveCompared (less (procSjfCompF rq.lab6Priority))
      (fun p q => Told (rq.lab6Priority p) (rq.lab6Priority q)) proc h

/-- Two priorities that it compares rightly, whichever comes first. -/
def Near (a b : BitVec 32) : Prop := a.toNat < b.toNat + 2 ^ 31 ∧ b.toNat < a.toNat + 2 ^ 31

/- A process is enqueued only where its priority is near to all those queued. -/
def NearQueue (rq : RunQueue) : Call → Prop
  | .enqueue proc => ∀ q ∈ rq.queued, Near (sjfKey (rq.lab6Priority proc)) (sjfKey (rq.lab6Priority q))
  | _ => True

/-- What holds between the calls. -/
structure QueueInv (rq : RunQueue) (h : Heap Nat) : Prop where
  rooted : Rooted rq.links rq.lab6RunPool h
  contents : elems h = rq.queued.val
  ordered : OrderedBy (fun p q => (rq.lab6Priority p).toNat ≤ (rq.lab6Priority q).toNat) h
  keyed : ∀ p ∈ rq.queued, sjfKey (rq.lab6Priority p) = rq.lab6Priority p
  present : ∀ p ∈ rq.queued, rq.inRq p = true
  count : rq.procNum = rq.queued.card

def NearQueued (rq : RunQueue) : Prop := ∀ p ∈ rq.queued, ∀ q ∈ rq.queued, Near (rq.lab6Priority p) (rq.lab6Priority q)

section
variable {rq rq' : RunQueue} {h : Heap Nat} {p q proc fuel : Nat} {call : Call} {calls : List Call}
  {priority : Nat → BitVec 32}

/- The exact pairs. -/
theorem comp_right_iff : (less (procSjfCompF priority) p q = true ↔ (priority p).toNat < (priority q).toNat) ↔
    Told (priority p) (priority q) := by
  have low := (priority p).isLt
  have high := (priority q).isLt
  have wrapped : (priority p - priority q).toInt = ((priority p).toNat - (priority q).toNat : Int).bmod (2 ^ 32) := by
    rw [BitVec.toInt_sub, BitVec.toInt_eq_toNat_bmod, BitVec.toInt_eq_toNat_bmod, Int.bmod_sub_bmod, Int.sub_bmod_bmod]
  have answer : less (procSjfCompF priority) p q = true ↔ (priority p - priority q).toInt < 0 := by
    unfold less procSjfCompF
    dsimp only
    rw [decide_eq_true_iff]
    constructor
    · intro below
      split_ifs at below
      omega
    · intro below
      rw [if_neg (by omega), if_neg (by omega)]
  rw [answer, wrapped]
  unfold Told
  rw [Int.bmod_def]
  split_ifs <;> omega

theorem near_told {a b : BitVec 32} (near : Near a b) : Told a b := ⟨near.1, near.2.le⟩

/- The order of the priorities is one. -/
theorem priority_preorder (priority : Nat → BitVec 32) :
    IsPreorder Nat fun p q => (priority p).toNat ≤ (priority q).toNat where
  refl _ := Nat.le_refl _
  trans _ _ _ := Nat.le_trans

theorem told_judges (told : Told (priority p) (priority q)) : if less (procSjfCompF priority) p q then
    (priority p).toNat ≤ (priority q).toNat else (priority q).toNat ≤ (priority p).toNat := by
  have compare := comp_right_iff.mpr told
  split_ifs with below
  · exact Nat.le_of_lt (compare.mp below)
  · exact Nat.le_of_not_lt fun lower => below (compare.mpr lower)

theorem near_self (a : BitVec 32) : Near a a := ⟨by omega, by omega⟩

theorem near_symm {a b : BitVec 32} (near : Near a b) : Near b a := ⟨near.2, near.1⟩

theorem key_key (a : BitVec 32) : sjfKey (sjfKey a) = sjfKey a := by
  unfold sjfKey
  split_ifs <;> simp_all

theorem QueueInv.nodup (inv : QueueInv rq h) : (elems h).Nodup := contents_nodup inv.contents

theorem QueueInv.mem (inv : QueueInv rq h) : p ∈ elems h ↔ p ∈ rq.queued := by
  rw [inv.contents, Finset.mem_val]

/- The priority of another process has changed. -/
theorem queued_priority (out : proc ∉ rq.queued) (mem : p ∈ rq.queued) (value : BitVec 32) :
    Function.update rq.lab6Priority proc value p = rq.lab6Priority p :=
  Function.update_of_ne (show p ≠ proc from fun here => out (here ▸ mem)) ..

theorem set_priority_inv (inv : QueueInv rq h) (out : proc ∉ rq.queued) (priority : BitVec 32) :
    QueueInv { rq with lab6Priority := Function.update rq.lab6Priority proc priority } h := by
  refine ⟨inv.rooted, inv.contents, ordered_by_congr inv.ordered fun p hp q hq le => ?_, fun p hp => ?_, inv.present,
    inv.count⟩
  · dsimp only
    rw [queued_priority out (inv.mem.mp hp), queued_priority out (inv.mem.mp hq)]
    exact le
  · dsimp only
    rw [queued_priority out hp]
    exact inv.keyed p hp

theorem enqueue_inv (inv : QueueInv rq h) (out : proc ∉ rq.queued) (right : RightlyCompared rq (.enqueue proc))
    (done : sjfEnqueue fuel proc rq = some rq') : ∃ k, QueueInv rq' k := by
  have compared := right h inv.rooted
  obtain ⟨⟨pool, links⟩, ran, rfl⟩ := Option.map_eq_some_iff.mp done
  have keyed := set_priority_inv inv out (sjfKey (rq.lab6Priority proc))
  obtain ⟨priority, is_priority⟩ : ∃ priority, priority =
    Function.update rq.lab6Priority proc (sjfKey (rq.lab6Priority proc)) := ⟨_, rfl⟩
  rw [← is_priority] at keyed ran compared ⊢
  have mine : priority proc = sjfKey (rq.lab6Priority proc) := by rw [is_priority, Function.update_self]
  have preorder := priority_preorder priority
  refine ⟨_, inserted_rooted inv.rooted inv.nodup (fun mem => out (inv.mem.mp mem)) ran, insert_contents inv.contents out,
    merge_compared keyed.ordered ⟨fun x mem => absurd mem (Multiset.notMem_zero x), trivial, trivial⟩
      (compared_mono (fun _ _ told => told_judges told) compared), fun p hp => ?_, fun p hp => ?_, ?_⟩
  · rcases Finset.mem_insert.mp hp with rfl | old
    · dsimp only
      rw [mine, key_key]
    · exact keyed.keyed p old
  · change Function.update rq.inRq proc true p = true
    by_cases here : p = proc
    · rw [here, Function.update_self]
    · rw [Function.update_of_ne here]
      exact inv.present p ((Finset.mem_insert.mp hp).resolve_left here)
  · rw [Finset.card_insert_of_notMem out, ← inv.count]

theorem dequeue_inv (inv : QueueInv rq h) (mem : proc ∈ rq.queued) (right : RightlyCompared rq (.dequeue proc))
    (done : sjfDequeue fuel proc rq = some rq') : ∃ k, QueueInv rq' k := by
  unfold sjfDequeue at done
  split_ifs at done
  obtain ⟨⟨pool, links⟩, ran, rfl⟩ := Option.map_eq_some_iff.mp done
  have preorder := priority_preorder rq.lab6Priority
  have keep : ∀ p ∈ rq.queued.erase proc, p ∈ rq.queued := fun p hp => Finset.mem_of_mem_erase hp
  refine ⟨_, removed_rooted inv.rooted inv.nodup (inv.mem.mpr mem) ran, remove_contents inv.contents mem,
    remove_keeps_order inv.ordered (remove_compared_mono (fun _ _ told => told_judges told) (right h inv.rooted)),
    fun p hp => inv.keyed p (keep p hp), fun p hp => inv.present p (keep p hp), ?_⟩
  dsimp only
  rw [Finset.card_erase_of_mem mem, inv.count]

theorem step_inv (inv : QueueInv rq h) (step : Step rq call rq') (right : RightlyCompared rq call) :
    ∃ k, QueueInv rq' k := by
  cases step with
  | setPriority priority out => exact ⟨h, set_priority_inv inv out priority⟩
  | enqueue out done => exact enqueue_inv inv out right done
  | dequeue mem done => exact dequeue_inv inv mem right done

/- Where all the priorities in the queue are near, those that are compared are. -/
theorem near_compares (inv : QueueInv rq h) (all : NearQueued rq) (step : Step rq call rq') (near : NearQueue rq call) :
    RightlyCompared rq call := by
  cases step with
  | setPriority priority out => trivial
  | @enqueue _ _ proc out done =>
    intro k rooted
    obtain rfl := shape_unique inv.rooted.1 rooted.1
    refine compared_all fun p hp q hq => ?_
    obtain rfl : q = proc := by simpa [elems] using hq
    have old := inv.mem.mp hp
    rw [queued_priority out old, Function.update_self, ← inv.keyed p old]
    exact near_told (near_symm (near p old))
  | dequeue mem done =>
    intro k rooted
    obtain rfl := shape_unique inv.rooted.1 rooted.1
    exact remove_compared_all fun p hp q hq => near_told (all p (inv.mem.mp hp) q (inv.mem.mp hq))

theorem near_step (inv : QueueInv rq h) (all : NearQueued rq) (step : Step rq call rq') (near : NearQueue rq call) :
    NearQueued rq' := by
  cases step with
  | @setPriority proc priority out =>
    intro p hp q hq
    dsimp only
    rw [queued_priority out hp, queued_priority out hq]
    exact all p hp q hq
  | @enqueue _ _ proc out done =>
    obtain ⟨⟨pool, links⟩, ran, rfl⟩ := Option.map_eq_some_iff.mp done
    have mine : ∀ q ∈ rq.queued, Near (sjfKey (rq.lab6Priority proc)) (rq.lab6Priority q) := by
      intro q mem
      rw [← inv.keyed q mem]
      exact near q mem
    intro p hp q hq
    dsimp only
    rcases Finset.mem_insert.mp hp with rfl | oldP
    · rw [Function.update_self]
      rcases Finset.mem_insert.mp hq with rfl | oldQ
      · rw [Function.update_self]
        exact near_self _
      · rw [queued_priority out oldQ]
        exact mine q oldQ
    · rw [queued_priority out oldP]
      rcases Finset.mem_insert.mp hq with rfl | oldQ
      · rw [Function.update_self]
        exact near_symm (mine p oldP)
      · rw [queued_priority out oldQ]
        exact all p oldP q oldQ
  | @dequeue _ _ proc mem done =>
    unfold sjfDequeue at done
    split_ifs at done
    obtain ⟨⟨pool, links⟩, ran, rfl⟩ := Option.map_eq_some_iff.mp done
    exact fun p hp q hq => all p (Finset.mem_of_mem_erase hp) q (Finset.mem_of_mem_erase hq)

theorem inv_shortest (inv : QueueInv rq h) : Shortest rq := by
  have shape := inv.rooted.1
  cases h with
  | nil =>
    have empty : rq.queued = ∅ := Finset.val_eq_zero.mp inv.contents.symm
    refine ⟨iff_of_true shape empty, fun p here => ?_⟩
    rw [show sjfPickNext rq = none from shape] at here
    cases here
  | node l a r =>
    have first : sjfPickNext rq = some a := shape.1
    have mem : a ∈ rq.queued := inv.mem.mp (Multiset.mem_cons_self _ _)
    refine ⟨iff_of_false (by rw [first]; exact nofun) (Finset.ne_empty_of_mem mem), fun p here => ?_⟩
    obtain rfl := Option.some.inj (first.symm.trans here)
    refine ⟨mem, fun q hq => ?_⟩
    rw [inv.keyed a mem, inv.keyed q hq]
    exact @root_below Nat (fun p q => (rq.lab6Priority p).toNat ≤ (rq.lab6Priority q).toNat) l r a
      (priority_preorder _) q inv.ordered (inv.mem.mpr hq)

theorem inv_calls_end (inv : QueueInv rq h) : CallsEnd rq := by
  refine ⟨fun proc out => ?_, fun proc mem => ?_⟩
  · obtain ⟨top, m', ran, _⟩ := @insert_rooted Nat _ (procSjfCompF (Function.update rq.lab6Priority proc
      (sjfKey (rq.lab6Priority proc)))) _ _ _ _ _ inv.rooted inv.nodup (fun there => out (inv.mem.mp there)) (Nat.lt_succ_self _)
    exact ⟨_, _, Option.map_eq_some_iff.mpr ⟨_, ran, rfl⟩⟩
  · obtain ⟨top, m', ran, _⟩ := @remove_rooted Nat _ (procSjfCompF rq.lab6Priority) _ _ _ _ _ inv.rooted inv.nodup
      (inv.mem.mpr mem) (Nat.le_refl _)
    have positive : rq.procNum > 0 := by
      rw [inv.count]
      exact Finset.card_pos.mpr ⟨proc, mem⟩
    have dequeued : sjfDequeue (elems h).card proc rq = some { rq with
        lab6RunPool := top, links := m', procNum := rq.procNum - 1, queued := rq.queued.erase proc } := by
      unfold sjfDequeue
      rw [if_pos ⟨inv.present proc mem, positive⟩, ran]
      rfl
    exact ⟨_, _, dequeued⟩

theorem init_inv (init : Init rq) : QueueInv rq .nil := by
  have none_queued : ∀ p, p ∉ rq.queued := fun p mem => by
    rw [init.queued] at mem
    exact absurd mem (Finset.notMem_empty p)
  refine ⟨⟨init.pool, fun x here => ?_⟩, by rw [init.queued]; rfl, trivial, fun p mem => absurd mem (none_queued p),
    fun p mem => absurd mem (none_queued p), ?_⟩
  · rw [init.pool] at here
    cases here
  · rw [init.procNum, init.queued, Finset.card_empty]

/-- As long as the heap compares no two processes wrongly, a shortest job is picked. -/
theorem right_comparisons_pick_shortest (init : Init rq)
    (run : Run (fun rq call rq' => RightlyCompared rq call ∧ Step rq call rq') rq calls rq') :
    Shortest rq' ∧ CallsEnd rq' := by
  have keep : ∀ rq call rq', (∃ h, QueueInv rq h) → RightlyCompared rq call ∧ Step rq call rq' → ∃ h, QueueInv rq' h :=
    fun _ _ _ ⟨_, inv⟩ ⟨right, step⟩ => step_inv inv step right
  obtain ⟨h, inv⟩ := run_invariant keep run ⟨_, init_inv init⟩
  exact ⟨inv_shortest inv, inv_calls_end inv⟩

/- As long as the priorities in the queue are near to each other, a shortest job is picked. -/
theorem near_queues_pick_shortest (init : Init rq)
    (run : Run (fun rq call rq' => NearQueue rq call ∧ Step rq call rq') rq calls rq') : Shortest rq' ∧ CallsEnd rq' := by
  have keep : ∀ rq call rq', (∃ h, QueueInv rq h) ∧ NearQueued rq → NearQueue rq call ∧ Step rq call rq' →
      (∃ h, QueueInv rq' h) ∧ NearQueued rq' :=
    fun _ _ _ ⟨⟨_, inv⟩, all⟩ ⟨near, step⟩ =>
      ⟨step_inv inv step (near_compares inv all step near), near_step inv all step near⟩
  have none_queued : NearQueued rq := fun p mem => by
    rw [init.queued] at mem
    exact absurd mem (Finset.notMem_empty p)
  obtain ⟨⟨h, inv⟩, -⟩ := run_invariant keep run ⟨⟨_, init_inv init⟩, none_queued⟩
  exact ⟨inv_shortest inv, inv_calls_end inv⟩

end

def emptyQueue : RunQueue := ⟨none, ⟨fun _ => none, fun _ => none, fun _ => none⟩, 0, fun _ => false, fun _ => 0, ∅⟩

/- Three processes with near priorities, one of them 0, and the shortest leaves. -/
theorem three_near_processes : ∃ rq, rq.queued = {1, 3} ∧ sjfPickNext rq = some 3 ∧ Shortest rq ∧ CallsEnd rq := by
  have run : Run (fun rq call rq' => NearQueue rq call ∧ Step rq call rq') emptyQueue
      [.setPriority 1 9, .enqueue 1, .enqueue 2, .setPriority 3 4, .enqueue 3, .dequeue 2] _ :=
    .call ⟨trivial, .setPriority 9 (by decide)⟩ (.call ⟨by unfold NearQueue Near; decide, @Step.enqueue _ _ 5 1 (by decide) rfl⟩
      (.call ⟨by unfold NearQueue Near; decide, @Step.enqueue _ _ 5 2 (by decide) rfl⟩
      (.call ⟨trivial, .setPriority 4 (by decide)⟩
      (.call ⟨by unfold NearQueue Near; decide, @Step.enqueue _ _ 5 3 (by decide) rfl⟩
      (.call ⟨trivial, @Step.dequeue _ _ 5 2 (by decide) rfl⟩ (.stop _))))))
  exact ⟨_, by decide, rfl, near_queues_pick_shortest ⟨rfl, rfl, rfl⟩ run⟩

/- Priorities 1 and 2^31 + 2: the longer job is picked. -/
theorem longer_job_picked : ∃ rq calls rq', Init rq ∧ Run Step rq calls rq' ∧ ¬ Shortest rq' := by
  have run := Run.call (@Step.setPriority emptyQueue 1 2147483650 (by decide)) (.call (@Step.enqueue _ _ 5 1 (by decide) rfl)
    (.call (Step.setPriority 1 (show 2 ∉ _ by decide)) (.call (@Step.enqueue _ _ 5 2 (by decide) rfl) (.stop _))))
  refine ⟨_, _, _, ⟨rfl, rfl, rfl⟩, run, fun shortest => ?_⟩
  exact absurd ((shortest.shortest 1 rfl).2 2 (by decide)) (by decide)

end Ucore.Sjf
