import Ucore.Lib.Transitions
import Ucore.Libs.SkewHeap

/- The skew heap as a priority queue, over sequences of its calls. -/
namespace Ucore
open SkewHeap

/-- A comparison function that orders the nodes, equal ones allowed. -/
structure Orders {N : Type} (comp : N → N → Int) : Prop where
  values : ∀ a b, comp a b = -1 ∨ comp a b = 0 ∨ comp a b = 1
  flip : ∀ a b, comp b a = -comp a b
  trans : ∀ a b c, comp a b ≤ 0 → comp b c ≤ 0 → comp a c ≤ 0

/-- A heap with its comparison function, and the nodes that were inserted and not removed. -/
structure SkewPool (N : Type) where
  links : SkewLinks N
  top : Option N
  comp : N → N → Int
  members : Finset N

/-- `raised` is the removal of the root after its key has changed. -/
inductive SkewCall (N : Type) where
  | insert (b : N)
  | remove (b : N)
  | raised (b : N)

/-- Below the pointer, over the children. -/
inductive Reached {N : Type} (m : SkewLinks N) : Option N → N → Prop
  | here (a : N) : Reached m (some a) a
  | left {a x : N} (below : Reached m (m.left a) x) : Reached m (some a) x
  | right {a x : N} (below : Reached m (m.right a) x) : Reached m (some a) x

variable {N : Type} [DecidableEq N]

inductive SkewStep : SkewPool N → SkewCall N → SkewPool N → Prop
  | insert {s : SkewPool N} {fuel : Nat} {b : N} {top : Option N} {links : SkewLinks N} (fresh : b ∉ s.members)
      (done : skewHeapInsert s.comp fuel s.top b s.links = some (top, links)) :
      SkewStep s (.insert b) ⟨links, top, s.comp, insert b s.members⟩
  | remove {s : SkewPool N} {fuel : Nat} {b : N} {top : Option N} {links : SkewLinks N} (mem : b ∈ s.members)
      (done : skewHeapRemove s.comp fuel s.top b s.links = some (top, links)) :
      SkewStep s (.remove b) ⟨links, top, s.comp, s.members.erase b⟩
  | raised {s : SkewPool N} {fuel : Nat} {b : N} {top : Option N} {links : SkewLinks N} (comp : N → N → Int)
      (orders : Orders comp) (first : s.top = some b)
      (others : ∀ x ∈ s.members, ∀ y ∈ s.members, x ≠ b → y ≠ b → comp x y = s.comp x y)
      (done : skewHeapRemove comp fuel s.top b s.links = some (top, links)) :
      SkewStep s (.raised b) ⟨links, top, comp, s.members.erase b⟩

/-- What the queue owes its callers. -/
structure PriorityQueue (s : SkewPool N) : Prop where
  tree : ∃ h, Shape s.links s.top h ∧ elems h = s.members.val
  contents : ∀ x, Reached s.links s.top x ↔ x ∈ s.members
  empty : s.top = none ↔ s.members = ∅
  ordered : ∀ x ∈ s.members, ∀ c, s.links.left x = some c ∨ s.links.right x = some c → s.comp x c ≤ 0
  parents : ∀ x ∈ s.members, ∀ c, s.links.left x = some c ∨ s.links.right x = some c → s.links.parent c = some x
  orphan : ∀ x, s.top = some x → s.links.parent x = none
  least : ∀ x, s.top = some x → ∀ y ∈ s.members, s.comp x y ≤ 0

/- The calls end, a removal also under the comparison function of a root that has been raised. -/
def SkewCallsEnd (s : SkewPool N) : Prop :=
  (∀ b, b ∉ s.members → ∃ fuel r, skewHeapInsert s.comp fuel s.top b s.links = some r) ∧
    ∀ (comp : N → N → Int), ∀ b ∈ s.members, ∃ fuel r, skewHeapRemove comp fuel s.top b s.links = some r

def emptyPool (comp : N → N → Int) (links : SkewLinks N) : SkewPool N := ⟨links, none, comp, ∅⟩

/-- What holds between the calls. -/
structure SkewInv (s : SkewPool N) (h : Heap N) : Prop where
  orders : Orders s.comp
  rooted : Rooted s.links s.top h
  contents : elems h = s.members.val
  ordered : OrderedBy (fun a b => s.comp a b ≤ 0) h

section
omit [DecidableEq N]
variable {comp : N → N → Int} {m : SkewLinks N} {start : Option N} {h : Heap N} {le : N → N → Prop} {x c : N}

theorem Orders.preorder (orders : Orders comp) : IsPreorder N fun a b => comp a b ≤ 0 where
  refl a := by
    have := orders.flip a a
    omega
  trans := orders.trans

theorem Orders.decides (orders : Orders comp) (h k : Heap N) : Decides (less comp) (fun a b => comp a b ≤ 0) h k := by
  intro a _ b _
  have flipped := orders.flip a b
  have values := orders.values a b
  split_ifs with below
  · have below : comp a b = -1 := of_decide_eq_true below
    omega
  · have above : comp a b ≠ -1 := fun same => below (decide_eq_true same)
    omega

theorem shape_reached (shape : Shape m start h) : Reached m start x ↔ x ∈ elems h := by
  induction h generalizing start with
  | nil =>
    rw [show start = none from shape]
    exact ⟨nofun, fun mem => absurd mem (Multiset.notMem_zero x)⟩
  | node l a r ihl ihr =>
    obtain ⟨rfl, left, right, _⟩ := shape
    rw [mem_node, ← ihl left, ← ihr right]
    constructor
    · intro reached
      cases reached with
      | here => exact .inl rfl
      | left below => exact .inr (.inl below)
      | right below => exact .inr (.inr below)
    · rintro (rfl | below | below)
      · exact .here x
      · exact .left below
      · exact .right below

/- A node of the heap, its children and what is known of them. -/
theorem shape_child (shape : Shape m start h) (ordered : OrderedBy le h) (mem : x ∈ elems h)
    (child : m.left x = some c ∨ m.right x = some c) : le x c ∧ m.parent c = some x := by
  induction h generalizing start with
  | nil => exact absurd mem (Multiset.notMem_zero x)
  | node l a r ihl ihr =>
    obtain ⟨_, left, right, told⟩ := shape
    rcases mem_node.mp mem with rfl | mem | mem
    · refine ⟨ordered.1 c ?_, told c child⟩
      rcases child with child | child
      · exact Multiset.mem_add.mpr (.inl (shape_mem left child))
      · exact Multiset.mem_add.mpr (.inr (shape_mem right child))
    · exact ihl left ordered.2.1 mem
    · exact ihr right ordered.2.2 mem

end

section
variable {s t : SkewPool N} {h : Heap N} {b : N} {call : SkewCall N} {calls : List (SkewCall N)}

omit [DecidableEq N] in
theorem SkewInv.nodup (inv : SkewInv s h) : (elems h).Nodup := contents_nodup inv.contents

omit [DecidableEq N] in
theorem SkewInv.mem (inv : SkewInv s h) {x : N} : x ∈ elems h ↔ x ∈ s.members := by
  rw [inv.contents, Finset.mem_val]

theorem skew_step_inv (inv : SkewInv s h) (step : SkewStep s call t) : ∃ k, SkewInv t k := by
  have preorder := inv.orders.preorder
  cases step with
  | @insert fuel b top links fresh done =>
    have out : b ∉ elems h := fun mem => fresh (inv.mem.mp mem)
    refine ⟨_, inv.orders, inserted_rooted inv.rooted inv.nodup out done, ?_, ?_⟩
    · exact insert_contents inv.contents fresh
    · refine merge_ordered_by inv.ordered ?_ (inv.orders.decides _ _)
      exact ⟨fun x mem => absurd mem (Multiset.notMem_zero x), trivial, trivial⟩
  | @remove fuel b top links mem done =>
    exact ⟨_, inv.orders, removed_rooted inv.rooted inv.nodup (inv.mem.mpr mem) done, remove_contents inv.contents mem,
      remove_ordered inv.ordered (inv.orders.decides _ _)⟩
  | @raised fuel b top links comp orders first others done =>
    have preorder' := orders.preorder
    cases h with
    | nil => rw [show s.top = none from inv.rooted.1] at first; cases first
    | node l a r =>
      obtain rfl := Option.some.inj (inv.rooted.1.1.symm.trans first)
      have mem : a ∈ s.members := inv.mem.mp (Multiset.mem_cons_self _ _)
      have fresh := (Multiset.nodup_cons.mp inv.nodup).1
      -- the other keys are as they were, so that only the root could be out of order
      have kept : ∀ {k : Heap N}, (∀ x ∈ elems k, x ∈ elems l + elems r) → OrderedBy (fun a b => s.comp a b ≤ 0) k →
          OrderedBy (fun a b => comp a b ≤ 0) k := by
        intro k inside ordered
        have known : ∀ x ∈ elems k, x ∈ s.members ∧ x ≠ a := fun x there =>
          ⟨inv.mem.mp (Multiset.mem_cons_of_mem (inside x there)), fun same => fresh (same ▸ inside x there)⟩
        refine ordered_by_congr ordered fun x hx y hy le => ?_
        rw [others x (known x hx).1 y (known y hy).1 (known x hx).2 (known y hy).2]
        exact le
      refine ⟨_, orders, removed_rooted inv.rooted inv.nodup (inv.mem.mpr mem) done, remove_contents inv.contents mem, ?_⟩
      rw [remove_root]
      exact merge_ordered_by (kept (fun x mem => Multiset.mem_add.mpr (.inl mem)) inv.ordered.2.1)
        (kept (fun x mem => Multiset.mem_add.mpr (.inr mem)) inv.ordered.2.2) (orders.decides _ _)

omit [DecidableEq N] in
theorem skew_queue (inv : SkewInv s h) : PriorityQueue s := by
  have shape := inv.rooted.1
  refine ⟨⟨h, shape, inv.contents⟩, fun x => (shape_reached shape).trans inv.mem, ?_, fun x mem c child => ?_,
    fun x mem c child => ?_, inv.rooted.2, fun x first y mem => ?_⟩
  · rw [← Finset.val_eq_zero, ← inv.contents, shape_start shape]
    cases h with
    | nil => exact ⟨fun _ => rfl, fun _ => rfl⟩
    | node l a r => exact ⟨nofun, fun none_there => absurd none_there (Multiset.cons_ne_zero)⟩
  · exact (shape_child shape inv.ordered (inv.mem.mpr mem) child).1
  · exact (shape_child shape inv.ordered (inv.mem.mpr mem) child).2
  · have preorder := inv.orders.preorder
    cases h with
    | nil => rw [show s.top = none from shape] at first; cases first
    | node l a r =>
      obtain rfl := Option.some.inj (shape.1.symm.trans first)
      exact @root_below N (fun a b => s.comp a b ≤ 0) l r a preorder y inv.ordered (inv.mem.mpr mem)

theorem skew_calls_end (inv : SkewInv s h) : SkewCallsEnd s := by
  refine ⟨fun b fresh => ?_, fun comp b mem => ?_⟩
  · obtain ⟨top, m', ran, _⟩ := @insert_rooted N _ s.comp _ _ _ _ _ inv.rooted inv.nodup
      (fun there => fresh (inv.mem.mp there)) (Nat.lt_succ_self _)
    exact ⟨_, _, ran⟩
  · obtain ⟨top, m', ran, _⟩ := @remove_rooted N _ comp _ _ _ _ _ inv.rooted inv.nodup (inv.mem.mpr mem) (Nat.le_refl _)
    exact ⟨_, _, ran⟩

theorem skew_heap_is_priority_queue {comp : N → N → Int} {links : SkewLinks N} (orders : Orders comp)
    (run : Transitions.Run SkewStep (emptyPool comp links) calls t) : PriorityQueue t ∧ SkewCallsEnd t := by
  have start : SkewInv (emptyPool comp links) .nil := ⟨orders, ⟨rfl, nofun⟩, rfl, trivial⟩
  have keep : ∀ (s : SkewPool N) c t, (∃ h, SkewInv s h) → SkewStep s c t → ∃ h, SkewInv t h :=
    fun _ _ _ ⟨_, inv⟩ step => skew_step_inv inv step
  obtain ⟨h, inv⟩ := Transitions.run_invariant keep run ⟨_, start⟩
  exact ⟨skew_queue inv, skew_calls_end inv⟩

end

/- The comparison of numbers by a key. -/
def byKey (key : Nat → Nat) (a b : Nat) : Int := if key a < key b then -1 else if key a = key b then 0 else 1

theorem by_key_orders (key : Nat → Nat) : Orders (byKey key) := by
  refine ⟨fun a b => ?_, fun a b => ?_, fun a b c => ?_⟩ <;> unfold byKey <;> split_ifs <;> omega

/- Three nodes come in, the key of the root is raised above the others, and it is removed. -/
theorem raised_root_leaves_the_others : ∃ t : SkewPool Nat, t.members = {2, 3} ∧ t.top = some 2 ∧ PriorityQueue t ∧
    SkewCallsEnd t := by
  have run := Transitions.Run.call (@SkewStep.insert Nat _ (emptyPool (byKey id) ⟨fun _ => none, fun _ => none, fun _ => none⟩)
    5 3 _ _ (by decide) rfl) (.call (@SkewStep.insert Nat _ _ 5 1 _ _ (by decide) rfl)
    (.call (@SkewStep.insert Nat _ _ 5 2 _ _ (by decide) rfl)
    (.call (@SkewStep.raised Nat _ _ 5 1 _ _ (byKey (Function.update id 1 7)) (by_key_orders _) rfl (by decide) rfl) (.stop _))))
  exact ⟨_, by decide, rfl, skew_heap_is_priority_queue (by_key_orders id) run⟩

end Ucore
