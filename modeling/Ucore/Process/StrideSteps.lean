import Ucore.Process.Stride

/- What the run queue of the stride scheduler keeps, as long as its strides are near to each other. -/
namespace Ucore.Stride
open Transitions Process SkewHeap

/-- Two strides without wrap-around that a signed difference of 32 bits compares. -/
def Close (a b : Nat) : Prop := a ≤ b + BIG_STRIDE ∧ b ≤ a + BIG_STRIDE

def Spread (s : Sched) : Prop := ∀ p ∈ elems s.pool, ∀ q ∈ elems s.pool, Close (s.total p) (s.total q)

/-- The pool is a heap of distinct processes whose strides are close. -/
structure PoolOk (s : Sched) : Prop where
  stride : ∀ p, s.lab6Stride p = BitVec.ofNat 32 (s.total p)
  ordered : Ordered s.total s.pool
  nodup : (elems s.pool).Nodup
  count : s.procNum = (elems s.pool).card
  queued : ∀ p ∈ elems s.pool, s.inRq p = true
  spread : Spread s

section
variable {s t : Sched} {p q : Nat}

theorem close_symm {a b : Nat} (close : Close a b) : Close b a := ⟨close.2, close.1⟩

theorem close_self {a : Nat} : Close a a := ⟨Nat.le_add_right _ _, Nat.le_add_right _ _⟩

theorem comp_right (stride : ∀ p, s.lab6Stride p = BitVec.ofNat 32 (s.total p))
    (close : Close (s.total p) (s.total q)) : procStrideCompF s p q = true ↔ s.total p < s.total q := by
  unfold procStrideCompF
  rw [decide_eq_true_iff, stride, stride, BitVec.toInt_sub, BitVec.toInt_ofNat', BitVec.toInt_ofNat',
    Int.bmod_sub_bmod, Int.sub_bmod_bmod]
  obtain ⟨low, high⟩ := close
  unfold BIG_STRIDE at low high
  have exactly : ((s.total p : Int) - s.total q).bmod (2 ^ 32) = s.total p - s.total q := by
    apply Int.bmod_eq_of_le
    · omega
    · omega
  rw [exactly]
  omega

theorem agrees_close {h k : Heap Nat} (stride : ∀ p, s.lab6Stride p = BitVec.ofNat 32 (s.total p))
    (close : ∀ p ∈ elems h, ∀ q ∈ elems k, Close (s.total p) (s.total q)) :
    Agrees (procStrideCompF s) s.total h k :=
  fun p hp q hq => comp_right stride (close p hp q hq)

theorem enqueue_elems : elems (strideEnqueue p s).pool = p ::ₘ elems s.pool := insert_elems s.pool p

/- A process enters the pool. -/
theorem enqueue_ok (ok : PoolOk s) (out : p ∉ elems s.pool)
    (close : ∀ q ∈ elems s.pool, Close (s.total p) (s.total q)) : PoolOk (strideEnqueue p s) := by
  refine ⟨ok.stride, ?_, ?_, ?_, ?_, ?_⟩
  · apply merge_ordered ok.ordered
    · exact ⟨fun x mem => absurd mem (Multiset.notMem_zero x), trivial, trivial⟩
    · apply agrees_close ok.stride
      intro q hq x hx
      obtain rfl : x = p := by simpa [elems] using hx
      exact close_symm (close q hq)
  · rw [enqueue_elems]
    exact Multiset.nodup_cons.mpr ⟨out, ok.nodup⟩
  · rw [enqueue_elems, Multiset.card_cons, ← ok.count]
    rfl
  · intro q mem
    rw [enqueue_elems] at mem
    change Function.update s.inRq p true q = true
    by_cases same : q = p
    · rw [same, Function.update_self]
    · rw [Function.update_of_ne same]
      exact ok.queued q ((Multiset.mem_cons.mp mem).resolve_left same)
  · intro x hx y hy
    rw [enqueue_elems] at hx hy
    change Close (s.total x) (s.total y)
    rcases Multiset.mem_cons.mp hx with rfl | oldX
    · rcases Multiset.mem_cons.mp hy with rfl | oldY
      · exact close_self
      · exact close y oldY
    · rcases Multiset.mem_cons.mp hy with rfl | oldY
      · exact close_symm (close x oldX)
      · exact ok.spread x oldX y oldY

/- Only the fields that the pool depends on matter. -/
theorem pool_ok_same (ok : PoolOk s) (pool : t.pool = s.pool) (total : t.total = s.total)
    (stride : t.lab6Stride = s.lab6Stride) (inRq : t.inRq = s.inRq) (procNum : t.procNum = s.procNum) : PoolOk t := by
  refine ⟨?_, ?_, ?_, ?_, ?_, ?_⟩
  · rw [stride, total]
    exact ok.stride
  · rw [total, pool]
    exact ok.ordered
  · rw [pool]
    exact ok.nodup
  · rw [procNum, pool]
    exact ok.count
  · rw [pool, inRq]
    exact ok.queued
  · unfold Spread
    rw [pool, total]
    exact ok.spread

theorem root_mem {h : Heap Nat} (here : root h = some p) : p ∈ elems h := by
  cases h with
  | nil => cases here
  | node l a r =>
    cases here
    exact Multiset.mem_cons_self _ _

theorem root_smallest (ok : PoolOk s) (here : root s.pool = some p) (mem : q ∈ elems s.pool) : s.total p ≤ s.total q := by
  have ordered := ok.ordered
  cases pool : s.pool with
  | nil =>
    rw [pool] at here
    cases here
  | node l a r =>
    rw [pool] at here ordered mem
    cases here
    exact root_least ordered mem

/- The step of a process. -/
def Sched.pass (s : Sched) (p : Nat) : Nat := BIG_STRIDE / (atLeastOne (s.lab6Priority p)).toNat

theorem pass_le : s.pass p ≤ BIG_STRIDE := Nat.div_le_self _ _

/-- What `schedule` does after the current process is back in the pool, when it finds a process there. -/
structure Picked (s t : Sched) (p : Nat) : Prop where
  elems : elems t.pool = (elems s.pool).erase p
  current : t.current = p
  total : t.total = Function.update s.total p (s.total p + s.pass p)
  priority : t.lab6Priority = Function.update s.lab6Priority p (atLeastOne (s.lab6Priority p))
  state : t.state = s.state
  next : t.next = s.next
  joined : t.joined = []
  inRq : t.inRq = s.inRq

theorem pick_run (ok : PoolOk s) (here : root s.pool = some p) :
    ∃ t, ((strideDequeue p (stridePickNext s).2).map fun t => { t with current := p }) = some t ∧
      (stridePickNext s).1 = some p ∧ PoolOk t ∧ Picked s t p := by
  have mem := root_mem here
  obtain ⟨l, r, pool⟩ : ∃ l r, s.pool = .node l p r := by
    cases pool : s.pool with
    | nil =>
      rw [pool] at here
      cases here
    | node l a r =>
      rw [pool] at here
      cases here
      exact ⟨l, r, rfl⟩
  have positive : s.procNum > 0 := by
    rw [ok.count]
    exact Multiset.card_pos_iff_exists_mem.mpr ⟨p, mem⟩
  let u : Sched := { s with
    lab6Priority := Function.update s.lab6Priority p (atLeastOne (s.lab6Priority p))
    lab6Stride := Function.update s.lab6Stride p (s.lab6Stride p + BitVec.ofNat 32 (s.pass p))
    total := Function.update s.total p (s.total p + s.pass p)
    joined := [] }
  have pick : stridePickNext s = (some p, u) := by
    unfold stridePickNext
    rw [here]
    rfl
  rw [pick]
  let t : Sched := { u with pool := remove (procStrideCompF u) p u.pool, procNum := u.procNum - 1, current := p }
  have dequeue : ((strideDequeue p u).map fun t => { t with current := p }) = some t := by
    unfold strideDequeue
    rw [if_pos ⟨ok.queued p mem, positive⟩]
    rfl
  have left : t.pool = merge (procStrideCompF u) l r := by
    change remove (procStrideCompF u) p s.pool = _
    rw [pool]
    exact remove_root
  have whole : elems s.pool = p ::ₘ (elems l + elems r) := by
    rw [pool]
    rfl
  have rest : elems t.pool = elems l + elems r := by
    rw [left, merge_elems]
  have nodup := ok.nodup
  rw [whole, Multiset.nodup_cons] at nodup
  have old : ∀ q ∈ elems l + elems r, u.total q = s.total q := by
    intro q hq
    apply Function.update_of_ne
    rintro rfl
    exact nodup.1 hq
  have stride : ∀ q, u.lab6Stride q = BitVec.ofNat 32 (u.total q) := by
    intro q
    change Function.update s.lab6Stride p _ q = BitVec.ofNat 32 (Function.update s.total p _ q)
    by_cases same : q = p
    · rw [same, Function.update_self, Function.update_self, ok.stride, BitVec.ofNat_add]
    · rw [Function.update_of_ne same, Function.update_of_ne same]
      exact ok.stride q
  have inside : ∀ q ∈ elems l + elems r, q ∈ elems s.pool := by
    intro q hq
    rw [whole]
    exact Multiset.mem_cons_of_mem hq
  have close : ∀ x ∈ elems l + elems r, ∀ y ∈ elems l + elems r, Close (u.total x) (u.total y) := by
    intro x hx y hy
    rw [old x hx, old y hy]
    exact ok.spread x (inside x hx) y (inside y hy)
  have ordered := ok.ordered
  rw [pool] at ordered
  refine ⟨t, dequeue, rfl, ⟨stride, ?_, ?_, ?_, ?_, ?_⟩, ⟨?_, rfl, rfl, rfl, rfl, rfl, rfl, rfl⟩⟩
  · rw [left]
    apply merge_ordered
    · exact ordered_congr ordered.2.1 fun q hq => old q (Multiset.mem_add.mpr (.inl hq))
    · exact ordered_congr ordered.2.2 fun q hq => old q (Multiset.mem_add.mpr (.inr hq))
    · exact agrees_close stride fun x hx y hy =>
        close x (Multiset.mem_add.mpr (.inl hx)) y (Multiset.mem_add.mpr (.inr hy))
  · rw [rest]
    exact nodup.2
  · rw [rest]
    change s.procNum - 1 = _
    rw [ok.count, whole, Multiset.card_cons]
    rfl
  · intro q hq
    rw [rest] at hq
    exact ok.queued q (inside q hq)
  · intro x hx y hy
    rw [rest] at hx hy
    exact close x hx y hy
  · rw [rest, whole, Multiset.erase_cons_head]

end

end Ucore.Stride
