import Mathlib

/- Skew heaps under a comparison, which need only be right for the elements of the heap. -/
namespace SkewHeap
variable {α : Type}

inductive Heap (α : Type) where
  | nil
  | node (left : Heap α) (a : α) (right : Heap α)

variable {lt : α → α → Bool} {key : α → Nat}

/- The merge of a node with a heap, when the merge of the right part of the node is known. -/
def mergeNode (lt : α → α → Bool) (rest : Heap α → Heap α) (l : Heap α) (a : α) (r : Heap α) : Heap α → Heap α
  | .nil => .node l a r
  | .node l' b r' =>
      if lt a b then .node (rest (.node l' b r')) a l
      else .node (mergeNode lt rest l a r r') b l'

def merge (lt : α → α → Bool) : Heap α → Heap α → Heap α
  | .nil => id
  | .node l a r => mergeNode lt (merge lt r) l a r

def elems : Heap α → Multiset α
  | .nil => 0
  | .node l a r => a ::ₘ (elems l + elems r)

def root : Heap α → Option α
  | .nil => none
  | .node _ a _ => some a

/-- No element is less than one above it. -/
def Ordered (key : α → Nat) : Heap α → Prop
  | .nil => True
  | .node l a r => (∀ x ∈ elems l + elems r, key a ≤ key x) ∧ Ordered key l ∧ Ordered key r

/-- The heap without one of its elements, whose place the merge of what is below it takes. -/
def remove [DecidableEq α] (lt : α → α → Bool) (b : α) : Heap α → Heap α
  | .nil => .nil
  | .node l a r => if a = b then merge lt l r else .node (remove lt b l) a (remove lt b r)

theorem merge_node_elems {rest : Heap α → Heap α} {l r h : Heap α} {a : α}
    (ih : ∀ h, elems (rest h) = elems r + elems h) : elems (mergeNode lt rest l a r h) = elems (.node l a r) + elems h := by
  induction h with
  | nil =>
    change elems (.node l a r) = elems (.node l a r) + 0
    rw [add_zero]
  | node l' b r' _ ihr =>
    unfold mergeNode
    split_ifs
    · change a ::ₘ (elems (rest (.node l' b r')) + elems l) = a ::ₘ (elems l + elems r) + elems (.node l' b r')
      rw [ih, Multiset.cons_add]
      congr 1
      ac_rfl
    · change b ::ₘ (elems (mergeNode lt rest l a r r') + elems l') = _ + (b ::ₘ (elems l' + elems r'))
      rw [ihr, Multiset.add_cons]
      congr 1
      ac_rfl

theorem merge_elems (h k : Heap α) : elems (merge lt h k) = elems h + elems k := by
  induction h generalizing k with
  | nil => exact (zero_add _).symm
  | node l a r _ ih => exact merge_node_elems ih

theorem insert_elems (h : Heap α) (b : α) : elems (merge lt h (.node .nil b .nil)) = b ::ₘ elems h := by
  rw [merge_elems]
  change elems h + b ::ₘ (0 + 0) = _
  rw [add_zero, Multiset.add_cons, add_zero]

/- The root is one of the two. -/
theorem root_merge (h k : Heap α) : root (merge lt h k) = root h ∨ root (merge lt h k) = root k := by
  cases h with
  | nil => exact .inr rfl
  | node l a r =>
    cases k with
    | nil => exact .inl rfl
    | node l' b r' =>
      change root (mergeNode lt (merge lt r) l a r (.node l' b r')) = _ ∨ root (mergeNode lt _ l a r (.node l' b r')) = _
      unfold mergeNode
      split_ifs
      · exact .inl rfl
      · exact .inr rfl

/-- Every element is `le` those below it. -/
def OrderedBy (le : α → α → Prop) : Heap α → Prop
  | .nil => True
  | .node l a r => (∀ x ∈ elems l + elems r, le a x) ∧ OrderedBy le l ∧ OrderedBy le r

/-- The comparison of the elements of two heaps decides which of them is `le` the other. -/
def Decides (lt : α → α → Bool) (le : α → α → Prop) (h k : Heap α) : Prop :=
  ∀ a ∈ elems h, ∀ b ∈ elems k, if lt a b then le a b else le b a

/-- `judged` holds of the pairs that the merge of a node with a heap compares. -/
def ComparedNode (lt : α → α → Bool) (judged : α → α → Prop) (rest : Heap α → Prop) (a : α) : Heap α → Prop
  | .nil => True
  | .node l b r => judged a b ∧ if lt a b then rest (.node l b r) else ComparedNode lt judged rest a r

/-- It holds of those that a merge compares, which are on the right spines of the heaps. -/
def Compared (lt : α → α → Bool) (judged : α → α → Prop) : Heap α → Heap α → Prop
  | .nil => fun _ => True
  | .node _ a r => ComparedNode lt judged (Compared lt judged r) a

/-- It holds of those that the removal of an element compares. -/
def RemoveCompared [DecidableEq α] (lt : α → α → Bool) (judged : α → α → Prop) (b : α) : Heap α → Prop
  | .nil => True
  | .node l a r =>
      if a = b then Compared lt judged l r else RemoveCompared lt judged b l ∧ RemoveCompared lt judged b r

section Relation
variable {le le' judged judged' : α → α → Prop} {h k l r l' r' : Heap α} {a b : α}

theorem mem_node {x : α} : x ∈ elems (.node l a r) ↔ x = a ∨ x ∈ elems l ∨ x ∈ elems r := by
  change x ∈ a ::ₘ (elems l + elems r) ↔ _
  rw [Multiset.mem_cons, Multiset.mem_add]

theorem mem_left {x : α} (mem : x ∈ elems l) : x ∈ elems (.node l a r) := mem_node.mpr (.inr (.inl mem))

theorem mem_right {x : α} (mem : x ∈ elems r) : x ∈ elems (.node l a r) := mem_node.mpr (.inr (.inr mem))

theorem compared_node_mono {rest rest' : Heap α → Prop} (weaker : ∀ a b, judged a b → judged' a b)
    (ih : ∀ h, rest h → rest' h) (compared : ComparedNode lt judged rest a h) : ComparedNode lt judged' rest' a h := by
  induction h with
  | nil => trivial
  | node l b r _ ihr =>
    obtain ⟨here, later⟩ := compared
    refine ⟨weaker a b here, ?_⟩
    split_ifs at later ⊢
    · exact ih _ later
    · exact ihr later

theorem compared_mono (weaker : ∀ a b, judged a b → judged' a b) (compared : Compared lt judged h k) :
    Compared lt judged' h k := by
  induction h generalizing k with
  | nil => trivial
  | node l a r _ ih => exact compared_node_mono weaker (fun _ later => ih later) compared

theorem compared_node_all {rest : Heap α → Prop} (all : ∀ b ∈ elems h, judged a b)
    (ih : ∀ k, (∀ b ∈ elems k, b ∈ elems h) → rest k) : ComparedNode lt judged rest a h := by
  induction h with
  | nil => trivial
  | node l b r _ ihr =>
    refine ⟨all b (Multiset.mem_cons_self _ _), ?_⟩
    split_ifs
    · exact ih _ fun _ mem => mem
    · exact ihr (fun x mem => all x (mem_right mem)) fun k part => ih k fun x mem => mem_right (part x mem)

/- What holds of all pairs holds of those. -/
theorem compared_all (all : ∀ a ∈ elems h, ∀ b ∈ elems k, judged a b) : Compared lt judged h k := by
  induction h generalizing k with
  | nil => trivial
  | node l a r _ ih =>
    refine compared_node_all (all a (Multiset.mem_cons_self _ _)) fun k' part => ih fun x hx y hy => ?_
    exact all x (mem_right hx) y (part y hy)

theorem ordered_by_congr (ordered : OrderedBy le h) (same : ∀ a ∈ elems h, ∀ b ∈ elems h, le a b → le' a b) :
    OrderedBy le' h := by
  induction h with
  | nil => trivial
  | node l a r ihl ihr =>
    refine ⟨fun x mem => ?_, ihl ordered.2.1 fun x hx y hy => same x (mem_left hx) y (mem_left hy),
      ihr ordered.2.2 fun x hx y hy => same x (mem_right hx) y (mem_right hy)⟩
    exact same a (Multiset.mem_cons_self _ _) x (Multiset.mem_cons_of_mem mem) (ordered.1 x mem)

variable [IsPreorder α le]

theorem root_below {x : α} (ordered : OrderedBy le (.node l a r)) (mem : x ∈ elems (.node l a r)) : le a x := by
  rcases Multiset.mem_cons.mp mem with rfl | below
  · exact refl_of le x
  · exact ordered.1 x below

theorem merge_node_ordered {rest : Heap α → Heap α} {asked : Heap α → Prop}
    (sum : ∀ h, elems (rest h) = elems r + elems h) (ih : ∀ h, OrderedBy le h → asked h → OrderedBy le (rest h))
    (node : OrderedBy le (.node l a r)) (ordered : OrderedBy le h)
    (compared : ComparedNode lt (fun a b => if lt a b then le a b else le b a) asked a h) :
    OrderedBy le (mergeNode lt rest l a r h) := by
  induction h with
  | nil => exact node
  | node l' b r' _ ihr =>
    obtain ⟨compare, later⟩ := compared
    unfold mergeNode
    split_ifs at compare later ⊢
    · -- `a` is below everything in its own heap and, with `b`, in the other.
      refine ⟨fun x mem => ?_, ih _ ordered later, node.2.1⟩
      rw [sum] at mem
      rcases Multiset.mem_add.mp mem with both | left
      · rcases Multiset.mem_add.mp both with right | other
        · exact node.1 x (Multiset.mem_add.mpr (.inr right))
        · exact trans_of le compare (root_below ordered other)
      · exact node.1 x (Multiset.mem_add.mpr (.inl left))
    · refine ⟨fun x mem => ?_, ihr ordered.2.2 later, ordered.2.1⟩
      rw [merge_node_elems sum] at mem
      rcases Multiset.mem_add.mp mem with both | left
      · rcases Multiset.mem_add.mp both with own | right
        · exact trans_of le compare (root_below node own)
        · exact ordered.1 x (Multiset.mem_add.mpr (.inr right))
      · exact ordered.1 x (Multiset.mem_add.mpr (.inl left))

/- The comparison need only be right where it is made. -/
theorem merge_compared (first : OrderedBy le h) (second : OrderedBy le k)
    (compared : Compared lt (fun a b => if lt a b then le a b else le b a) h k) : OrderedBy le (merge lt h k) := by
  induction h generalizing k with
  | nil => exact second
  | node l a r _ ih =>
    exact merge_node_ordered (fun h => merge_elems r h) (fun h ordered later => ih first.2.2 ordered later) first second
      compared

theorem merge_ordered_by (first : OrderedBy le h) (second : OrderedBy le k) (decides : Decides lt le h k) :
    OrderedBy le (merge lt h k) := merge_compared first second (compared_all decides)

end Relation

/-- The comparison of the elements is that of their keys. -/
def Agrees (lt : α → α → Bool) (key : α → Nat) (h k : Heap α) : Prop :=
  ∀ a ∈ elems h, ∀ b ∈ elems k, lt a b = true ↔ key a < key b

/- The order of the keys is one of those. -/
theorem ordered_iff {h : Heap α} : Ordered key h ↔ OrderedBy (fun a b => key a ≤ key b) h := by
  induction h with
  | nil => exact Iff.rfl
  | node l a r ihl ihr => exact and_congr Iff.rfl (and_congr ihl ihr)

instance keyPreorder : IsPreorder α fun a b => key a ≤ key b where
  refl a := Nat.le_refl (key a)
  trans _ _ _ := Nat.le_trans

theorem root_least {l r : Heap α} {a : α} (ordered : Ordered key (.node l a r)) {x : α}
    (mem : x ∈ elems (.node l a r)) : key a ≤ key x := by
  rcases Multiset.mem_cons.mp mem with rfl | below
  · exact Nat.le_refl _
  · exact ordered.1 x below

theorem merge_ordered {h k : Heap α} (first : Ordered key h) (second : Ordered key k) (agrees : Agrees lt key h k) :
    Ordered key (merge lt h k) := by
  refine ordered_iff.mpr (merge_ordered_by (ordered_iff.mp first) (ordered_iff.mp second) fun a ha b hb => ?_)
  have compare := agrees a ha b hb
  split_ifs with less
  · exact Nat.le_of_lt (compare.mp less)
  · exact Nat.le_of_not_lt fun lower => less (compare.mpr lower)

theorem ordered_congr {key' : α → Nat} {h : Heap α} (ordered : Ordered key h) (same : ∀ a ∈ elems h, key' a = key a) :
    Ordered key' h := by
  refine ordered_iff.mpr (ordered_by_congr (ordered_iff.mp ordered) fun a ha b hb le => ?_)
  rw [same a ha, same b hb]
  exact le

section
variable [DecidableEq α]

/- The root is removed. -/
theorem remove_root {l r : Heap α} {a : α} : remove lt a (.node l a r) = merge lt l r := if_pos rfl

theorem remove_absent {h : Heap α} {b : α} (absent : b ∉ elems h) : remove lt b h = h := by
  induction h with
  | nil => rfl
  | node l a r ihl ihr =>
    rw [mem_node, not_or, not_or] at absent
    unfold remove
    rw [if_neg (Ne.symm absent.1), ihl absent.2.1, ihr absent.2.2]

theorem remove_elems {h : Heap α} {b : α} (nodup : (elems h).Nodup) (mem : b ∈ elems h) :
    b ::ₘ elems (remove lt b h) = elems h := by
  induction h with
  | nil => exact absurd mem (Multiset.notMem_zero b)
  | node l a r ihl ihr =>
    obtain ⟨fresh, nodup⟩ := Multiset.nodup_cons.mp nodup
    obtain ⟨left, right, apart⟩ := Multiset.nodup_add.mp nodup
    unfold remove
    split_ifs with here
    · rw [merge_elems, here]
      rfl
    · change b ::ₘ a ::ₘ (elems (remove lt b l) + elems (remove lt b r)) = a ::ₘ (elems l + elems r)
      rw [Multiset.cons_swap]
      congr 1
      rcases (mem_node.mp mem).resolve_left fun same => here same.symm with mem | mem
      · rw [remove_absent fun other => Multiset.disjoint_left.mp apart mem other, ← Multiset.cons_add, ihl left mem]
      · rw [remove_absent fun other => Multiset.disjoint_left.mp apart other mem, ← Multiset.add_cons, ihr right mem]

theorem remove_subset {h : Heap α} {b x : α} (mem : x ∈ elems (remove lt b h)) : x ∈ elems h := by
  induction h with
  | nil => exact mem
  | node l a r ihl ihr =>
    unfold remove at mem
    split_ifs at mem
    · rw [merge_elems] at mem
      exact Multiset.mem_cons_of_mem mem
    · exact mem_node.mpr ((mem_node.mp mem).imp_right (Or.imp ihl ihr))

/- A heap without doubles holds a set. -/
omit [DecidableEq α] in
theorem contents_nodup {h : Heap α} {F : Finset α} (contents : elems h = F.val) : (elems h).Nodup := contents ▸ F.nodup

theorem insert_contents {h : Heap α} {F : Finset α} {b : α} (contents : elems h = F.val) (fresh : b ∉ F) :
    elems (merge lt h (.node .nil b .nil)) = (insert b F).val := by
  rw [insert_elems, contents, Finset.insert_val_of_notMem fresh]

theorem remove_contents {h : Heap α} {F : Finset α} {b : α} (contents : elems h = F.val) (mem : b ∈ F) :
    elems (remove lt b h) = (F.erase b).val := by
  have removed := @remove_elems _ lt _ h b (contents_nodup contents) (contents ▸ mem)
  rw [contents] at removed
  rw [Finset.erase_val, ← removed, Multiset.erase_cons_head]

theorem remove_compared_mono {judged judged' : α → α → Prop} {h : Heap α} {b : α}
    (weaker : ∀ a b, judged a b → judged' a b) (compared : RemoveCompared lt judged b h) : RemoveCompared lt judged' b h := by
  induction h with
  | nil => trivial
  | node l a r ihl ihr =>
    unfold RemoveCompared at compared ⊢
    split_ifs at compared ⊢
    · exact compared_mono weaker compared
    · exact ⟨ihl compared.1, ihr compared.2⟩

theorem remove_compared_all {judged : α → α → Prop} {h : Heap α} {b : α}
    (all : ∀ x ∈ elems h, ∀ y ∈ elems h, judged x y) : RemoveCompared lt judged b h := by
  induction h with
  | nil => trivial
  | node l a r ihl ihr =>
    unfold RemoveCompared
    split_ifs
    · exact compared_all fun x hx y hy => all x (mem_left hx) y (mem_right hy)
    · exact ⟨ihl fun x hx y hy => all x (mem_left hx) y (mem_left hy),
        ihr fun x hx y hy => all x (mem_right hx) y (mem_right hy)⟩

theorem remove_keeps_order {le : α → α → Prop} [IsPreorder α le] {h : Heap α} {b : α} (ordered : OrderedBy le h)
    (compared : RemoveCompared lt (fun a b => if lt a b then le a b else le b a) b h) : OrderedBy le (remove lt b h) := by
  induction h with
  | nil => trivial
  | node l a r ihl ihr =>
    unfold RemoveCompared at compared
    unfold remove
    split_ifs at compared ⊢
    · exact merge_compared ordered.2.1 ordered.2.2 compared
    · refine ⟨fun x mem => ordered.1 x ?_, ihl ordered.2.1 compared.1, ihr ordered.2.2 compared.2⟩
      rcases Multiset.mem_add.mp mem with mem | mem
      · exact Multiset.mem_add.mpr (.inl (remove_subset mem))
      · exact Multiset.mem_add.mpr (.inr (remove_subset mem))

theorem remove_ordered {le : α → α → Prop} [IsPreorder α le] {h : Heap α} {b : α} (ordered : OrderedBy le h)
    (decides : Decides lt le h h) : OrderedBy le (remove lt b h) := remove_keeps_order ordered (remove_compared_all decides)

end

end SkewHeap
