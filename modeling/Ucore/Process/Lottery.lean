import Ucore.Lib.Wheel
import Ucore.Lib.FullPeriod

/- lab6/kern/schedule/default_sched_lottery.c and the generator it draws from, lab6/libs/rand.c. A process is a
   number, and `rq->run_list` the list of those queued. -/
namespace Ucore.Lottery
open Wheel

structure RunQueue where
  runList : List Nat
  lab6Priority : Nat → BitVec 32

def procTickets (rq : RunQueue) (proc : Nat) : Nat := if rq.lab6Priority proc = 0 then 1 else (rq.lab6Priority proc).toNat

/- `total`, a `uint64_t`. -/
def totalTickets (rq : RunQueue) : Nat := rq.runList.foldl (fun total p => (total + procTickets rq p) % 2 ^ 64) 0

/- The process at which the selection loop returns, if it does. -/
def selectionLoop (rq : RunQueue) (win : Nat) : Option Nat := spin (procTickets rq) rq.runList win

/- `rand` is the answer of `rand()`. -/
def lotteryPickNext (rand : BitVec 32) (rq : RunQueue) : Option Nat :=
  if rq.runList = [] then none
  else if totalTickets rq = 0 then rq.runList.head?
  else
    let win := (rand &&& 0x7fffffff).toNat % totalTickets rq
    match selectionLoop rq win with
    | some p => some p
    | none => rq.runList.head?

/- The random values that pick the process. -/
def draws (rq : RunQueue) (p : Nat) : Finset Nat :=
  (Finset.range (2 ^ 31)).filter fun r => lotteryPickNext (BitVec.ofNat 32 r) rq = some p

/-- Each process is drawn as its tickets say, and the loop always selects. -/
structure Weighted (rq : RunQueue) : Prop where
  share : ∀ p ∈ rq.runList, let total := weight (procTickets rq) rq.runList
    procTickets rq p * (2 ^ 31 / total) ≤ (draws rq p).card ∧
      (draws rq p).card ≤ procTickets rq p * ((2 ^ 31 + total - 1) / total)
  drawn : ∀ p ∈ rq.runList, ∃ r < 2 ^ 31, lotteryPickNext (BitVec.ofNat 32 r) rq = some p
  selected : rq.runList ≠ [] → totalTickets rq ≠ 0 → ∀ r < 2 ^ 31, selectionLoop rq (r % totalTickets rq) ≠ none

section
variable {rq : RunQueue} {p r : Nat}

theorem tickets_positive : 0 < procTickets rq p := by
  unfold procTickets
  split_ifs with zero
  · exact Nat.one_pos
  · exact Nat.pos_of_ne_zero fun same => zero (BitVec.eq_of_toNat_eq same)

theorem tickets_lt : procTickets rq p < 2 ^ 32 := by
  unfold procTickets
  split_ifs
  · decide
  · exact (rq.lab6Priority p).isLt

theorem total_mod : totalTickets rq = weight (procTickets rq) rq.runList % 2 ^ 64 := by
  have general : ∀ (xs : List Nat) t, t < 2 ^ 64 →
      xs.foldl (fun total p => (total + procTickets rq p) % 2 ^ 64) t = (t + weight (procTickets rq) xs) % 2 ^ 64 := by
    intro xs
    induction xs with
    | nil => exact fun t small => (Nat.mod_eq_of_lt small).symm
    | cons x xs ih =>
      intro t _
      rw [List.foldl_cons, ih _ (Nat.mod_lt _ (by decide)), weight_cons]
      omega
  unfold totalTickets
  rw [general _ 0 (by decide), Nat.zero_add]

theorem masked (small : r < 2 ^ 31) : (BitVec.ofNat 32 r &&& 0x7fffffff).toNat = r := by
  rw [BitVec.toNat_and, BitVec.toNat_ofNat, Nat.mod_eq_of_lt (by omega)]
  exact (Nat.and_two_pow_sub_one_eq_mod r 31).trans (Nat.mod_eq_of_lt small)

theorem pick_of_total (some_there : rq.runList ≠ []) (nonzero : totalTickets rq ≠ 0) (small : r < 2 ^ 31) :
    lotteryPickNext (BitVec.ofNat 32 r) rq = (selectionLoop rq (r % totalTickets rq)).or rq.runList.head? := by
  unfold lotteryPickNext
  rw [if_neg some_there, if_neg nonzero, masked small]
  dsimp only
  cases selectionLoop rq (r % totalTickets rq) <;> rfl

/- The weight before the last process. -/
theorem last_weight {pre : List Nat} (split : rq.runList = pre ++ [p]) :
    weight (procTickets rq) rq.runList.dropLast = weight (procTickets rq) pre := by
  rw [split, List.dropLast_concat]

theorem weighted_of_reach (distinct : rq.runList.Nodup) (reach : weight (procTickets rq) rq.runList.dropLast < 2 ^ 31) :
    Weighted rq := by
  by_cases empty : rq.runList = []
  · refine ⟨fun p mem => ?_, fun p mem => ?_, fun some_there => absurd empty some_there⟩
    · rw [empty] at mem
      exact absurd mem List.not_mem_nil
    · rw [empty] at mem
      exact absurd mem List.not_mem_nil
  obtain ⟨front, last, whole⟩ : ∃ front last, rq.runList = front ++ [last] :=
    ⟨_, _, (List.dropLast_concat_getLast empty).symm⟩
  rw [last_weight whole] at reach
  have sum : weight (procTickets rq) rq.runList = weight (procTickets rq) front + procTickets rq last := by
    rw [whole, weight_append, weight_cons]
    rfl
  have total : totalTickets rq = weight (procTickets rq) rq.runList := by
    have := @tickets_lt rq last
    rw [total_mod, Nat.mod_eq_of_lt]
    omega
  have positive := @tickets_positive rq last
  have nonzero : totalTickets rq ≠ 0 := by omega
  -- where the numbers of a process lie
  have place : ∀ p ∈ rq.runList, ∃ a, a + procTickets rq p ≤ totalTickets rq ∧ a < 2 ^ 31 ∧
      ∀ n, selectionLoop rq n = some p ↔ a ≤ n ∧ n < a + procTickets rq p := by
    intro p mem
    obtain ⟨pre, post, split⟩ := List.append_of_mem mem
    have all := total
    rw [split, weight_append, weight_cons] at all
    refine ⟨weight (procTickets rq) pre, by omega, ?_, fun n => ?_⟩
    · rcases List.eq_nil_or_concat post with none_behind | ⟨post, q, behind⟩
      · rw [none_behind] at split
        rw [← last_weight split, last_weight whole]
        exact reach
      · rw [List.concat_eq_append] at behind
        have ends : rq.runList = (pre ++ p :: post) ++ [q] := by rw [split, behind]; simp
        rw [← last_weight whole, last_weight ends, weight_append] at reach
        omega
    · unfold selectionLoop
      rw [split] at distinct ⊢
      exact spin_iff distinct
  have always : ∀ r, selectionLoop rq (r % totalTickets rq) ≠ none := by
    intro r none_found
    have := spin_none.mp none_found
    have := Nat.mod_lt r (Nat.pos_of_ne_zero nonzero)
    omega
  have picks : ∀ r < 2 ^ 31, lotteryPickNext (BitVec.ofNat 32 r) rq = selectionLoop rq (r % totalTickets rq) := by
    intro r small
    rw [pick_of_total empty nonzero small]
    cases found : selectionLoop rq (r % totalTickets rq) with
    | none => exact absurd found (always r)
    | some q => rfl
  refine ⟨fun p mem => ?_, fun p mem => ?_, fun _ _ r _ => always r⟩
  · obtain ⟨a, inside, _, selects⟩ := place p mem
    have these : draws rq p = (Finset.range (2 ^ 31)).filter fun r =>
        a ≤ r % totalTickets rq ∧ r % totalTickets rq < a + procTickets rq p := by
      apply Finset.filter_congr
      intro r below
      rw [picks r (Finset.mem_range.mp below), selects]
    rw [these, ← total]
    exact card_remainders inside
  · obtain ⟨a, inside, small, selects⟩ := place p mem
    have ticket := @tickets_positive rq p
    refine ⟨a, small, ?_⟩
    rw [picks a small, Nat.mod_eq_of_lt (by omega), selects]
    omega

/- The lottery is right exactly when the last process can still be reached. -/
theorem weighted_exactly_when (distinct : rq.runList.Nodup) :
    Weighted rq ↔ weight (procTickets rq) rq.runList.dropLast < 2 ^ 31 := by
  refine ⟨fun weighted => ?_, weighted_of_reach distinct⟩
  by_cases empty : rq.runList = []
  · rw [empty]
    exact Nat.two_pow_pos 31
  obtain ⟨front, last, whole⟩ : ∃ front last, rq.runList = front ++ [last] :=
    ⟨_, _, (List.dropLast_concat_getLast empty).symm⟩
  rw [last_weight whole]
  -- the first process is the last one only where it is alone
  have alone : rq.runList.head? = some last → weight (procTickets rq) front < 2 ^ 31 := by
    intro first
    cases front with
    | nil => exact Nat.two_pow_pos 31
    | cons x front =>
      rw [whole] at first distinct
      obtain rfl := Option.some.inj first
      exact absurd (List.mem_append_right front (List.mem_singleton_self x)) (List.nodup_cons.mp distinct).1
  obtain ⟨r, small, drawn⟩ := weighted.drawn last (by rw [whole]; exact List.mem_append_right _ (List.mem_singleton_self _))
  by_cases zero : totalTickets rq = 0
  · unfold lotteryPickNext at drawn
    rw [if_neg empty, if_pos zero] at drawn
    exact alone drawn
  · rw [pick_of_total empty zero small] at drawn
    cases found : selectionLoop rq (r % totalTickets rq) with
    | none =>
      rw [found] at drawn
      exact alone drawn
    | some q =>
      rw [found] at drawn
      obtain rfl := Option.some.inj drawn
      unfold selectionLoop at found
      rw [whole] at found distinct
      have := (spin_iff distinct).mp found
      have := Nat.mod_le r (totalTickets rq)
      omega

theorem two_processes_weighted : [1, 2].Nodup ∧ (Weighted ⟨[1, 2], fun p => if p = 1 then 2147483647 else 9⟩ ↔
    weight (procTickets ⟨[1, 2], fun p => if p = 1 then 2147483647 else 9⟩) [1] < 2 ^ 31) :=
  ⟨by decide, @weighted_exactly_when ⟨[1, 2], fun p => if p = 1 then 2147483647 else 9⟩ (by decide)⟩

/- Behind a process with 2^31 tickets nobody is drawn. -/
theorem second_never_drawn : ¬ Weighted ⟨[1, 2], fun p => if p = 1 then 2147483648 else 1⟩ := by
  intro weighted
  obtain ⟨r, small, drawn⟩ := weighted.drawn 2 (by decide)
  rw [pick_of_total (by decide) (by decide) small] at drawn
  have first : selectionLoop ⟨[1, 2], fun p => if p = 1 then 2147483648 else 1⟩ (r % 2147483649) = some 1 := by
    unfold selectionLoop spin
    have low : r % 2147483649 < procTickets ⟨[1, 2], fun p => if p = 1 then 2147483648 else 1⟩ 1 := by
      change r % 2147483649 < 2147483648
      omega
    rw [if_pos low]
  rw [show totalTickets ⟨[1, 2], fun p => if p = 1 then 2147483648 else 1⟩ = 2147483649 by decide, first] at drawn
  cases drawn

end

section Rand

def RAND_MAX : Nat := 2147483647

/- The new value of `next`, an `unsigned long long`. -/
def randNext (next : Nat) : Nat := (next * 0x5DEECE66D + 0xB) % 2 ^ 64 &&& (1 <<< 48 - 1)

/- What a call returns that leaves this in `next`. The macro `do_div` puts no brackets around its argument
`RAND_MAX + 1`, so that the 1 is added to the remainder. -/
def randResult (next : Nat) : Nat := (next >>> 12) % RAND_MAX + 1

def rand (next : Nat) : Nat × Nat := (randResult (randNext next), randNext next)

/- The results of `n` calls. -/
def randRun : Nat → Nat → List Nat
  | 0, _ => []
  | n + 1, next => (rand next).1 :: randRun n (rand next).2

variable {n next r : Nat}

theorem rand_next_step : randNext next = FullPeriod.step 0x5DEECE66D 0xB 48 next := by
  have shorter : (2 : Nat) ^ 48 ∣ 2 ^ 64 := pow_dvd_pow 2 (by decide)
  unfold randNext FullPeriod.step
  rw [Nat.one_shiftLeft, Nat.and_two_pow_sub_one_eq_mod, Nat.mod_mod_of_dvd _ shorter, Nat.mul_comm]

/- The results are those of the generator's values, one after the other. -/
theorem rand_run_values :
    randRun n next = (List.range n).map fun i => randResult ((FullPeriod.step 0x5DEECE66D 0xB 48)^[i + 1] next) := by
  induction n generalizing next with
  | zero => simp [randRun]
  | succ n ih =>
    unfold randRun rand
    rw [ih, List.range_succ_eq_map, List.map_cons, List.map_map, rand_next_step]
    simp [Function.comp_def, Function.iterate_succ_apply]

/-- How often a value is returned in one period: the 36 bits of the generator hold each remainder 32 times, and the
first 32 of them once more. -/
def randFrequency (r : Nat) : Nat :=
  if r = 0 ∨ RAND_MAX < r then 0 else if r ≤ 32 then 33 * 2 ^ 12 else 32 * 2 ^ 12

theorem result_count (r : Nat) :
    ((Finset.range (2 ^ 48)).filter fun s => randResult s = r).card = randFrequency r := by
  have digits : (2 : Nat) ^ 48 = 2 ^ 12 * 2 ^ 36 := by norm_num
  have same : ∀ s, randResult s = s / 2 ^ 12 % RAND_MAX + 1 := by
    intro s
    unfold randResult
    rw [Nat.shiftRight_eq_div_pow]
  simp only [same]
  rw [digits, FullPeriod.card_upper (by decide) fun bits => bits % RAND_MAX + 1 = r]
  unfold randFrequency
  by_cases never : r = 0 ∨ RAND_MAX < r
  · rw [if_pos never, Finset.filter_eq_empty_iff.mpr, Finset.card_empty, Nat.mul_zero]
    intro bits _ here
    have below : bits % RAND_MAX < RAND_MAX := Nat.mod_lt _ (by decide)
    omega
  · rw [if_neg never]
    have remainder : ∀ bits, bits % RAND_MAX + 1 = r ↔ bits ≡ r - 1 [MOD RAND_MAX] := by
      intro bits
      have small : (r - 1) % RAND_MAX = r - 1 := Nat.mod_eq_of_lt (by omega)
      unfold Nat.ModEq
      rw [small]
      omega
    have small : (r - 1) % RAND_MAX = r - 1 := Nat.mod_eq_of_lt (by omega)
    have bits : (2 : Nat) ^ 36 / RAND_MAX = 32 ∧ 2 ^ 36 % RAND_MAX = 32 := by
      unfold RAND_MAX
      norm_num
    simp only [remainder]
    rw [← Nat.count_eq_card_filter_range, Nat.count_modEq_card _ (by decide), small, bits.1, bits.2]
    split_ifs <;> omega

/- How often a value stands in a list of the values at `0`, ..., `n - 1`. -/
theorem count_values {f : Nat → Nat} :
    ((List.range n).map f).count r = ((Finset.range n).filter fun i => f i = r).card := by
  have filtered : ((Finset.range n).filter fun i => f i = r).card = ((List.range n).filter fun i => f i = r).length := rfl
  rw [filtered, List.count_eq_countP, List.countP_map, List.countP_eq_length_filter]
  congr 2

/-- From whatever seed, one period of the generator returns every number from 1 to `RAND_MAX`, the first 32 of them
33 times for every 32 times of the others, and never 0. -/
theorem rand_equidistributed (next r : Nat) : (randRun (2 ^ 48) next).count r = randFrequency r := by
  rw [rand_run_values, count_values, ← result_count r]
  exact FullPeriod.period_count (by decide) (by decide) next fun s => randResult s = r

end Rand

end Ucore.Lottery
