import Ucore.Lib.SkewHeap

/- lab6/libs/skew_heap.h. A node is a pointer, NULL is `none`. The recursion of `skew_heap_merge` goes `fuel` calls
   deep at most: the answer is `none` where it would go deeper. -/
namespace Ucore
open SkewHeap

/-- The fields of the `struct skew_heap_entry` at each node. -/
structure SkewLinks (N : Type) where
  parent : N → Option N
  left : N → Option N
  right : N → Option N

section
variable {N : Type} [DecidableEq N]

def skewHeapInit (a : N) (m : SkewLinks N) : SkewLinks N :=
  { parent := Function.update m.parent a none
    left := Function.update m.left a none
    right := Function.update m.right a none }

/- `a` gets its children, of which the left one is told. -/
def setChildren (a : N) (l r : Option N) (m : SkewLinks N) : SkewLinks N :=
  { left := Function.update m.left a l
    right := Function.update m.right a r
    parent := match l with
      | some l => Function.update m.parent l (some a)
      | none => m.parent }

def skewHeapMerge (comp : N → N → Int) : Nat → Option N → Option N → SkewLinks N → Option (Option N × SkewLinks N)
  | _, none, b, m => some (b, m)
  | _, some a, none, m => some (some a, m)
  | 0, some _, some _, _ => none
  | fuel + 1, some a, some b, m =>
      if comp a b = -1 then
        let r := m.left a
        (skewHeapMerge comp fuel (m.right a) (some b) m).map fun (l, m) => (some a, setChildren a l r m)
      else
        let r := m.left b
        (skewHeapMerge comp fuel (some a) (m.right b) m).map fun (l, m) => (some b, setChildren b l r m)

def skewHeapInsert (comp : N → N → Int) (fuel : Nat) (a : Option N) (b : N) (m : SkewLinks N) :
    Option (Option N × SkewLinks N) :=
  skewHeapMerge comp fuel a (some b) (skewHeapInit b m)

/- `rep` takes the place of `b` below `p`. -/
def replaceChild (p b : N) (rep : Option N) (m : SkewLinks N) : SkewLinks N :=
  if m.left p = some b then { m with left := Function.update m.left p rep }
  else { m with right := Function.update m.right p rep }

def setParent (rep p : Option N) (m : SkewLinks N) : SkewLinks N :=
  match rep with
  | some rep => { m with parent := Function.update m.parent rep p }
  | none => m

def skewHeapRemove (comp : N → N → Int) (fuel : Nat) (a : Option N) (b : N) (m : SkewLinks N) :
    Option (Option N × SkewLinks N) :=
  let p := m.parent b
  (skewHeapMerge comp fuel (m.left b) (m.right b) m).map fun (rep, m) =>
    let m := setParent rep p m
    match p with
    | some p => (a, replaceChild p b rep m)
    | none => (rep, m)

/-- Below the pointer hangs the heap, and who hangs below a node of it knows that node. -/
def Shape (m : SkewLinks N) : Option N → Heap N → Prop
  | start, .nil => start = none
  | start, .node l a r => start = some a ∧ Shape m (m.left a) l ∧ Shape m (m.right a) r ∧
      ∀ c, m.left a = some c ∨ m.right a = some c → m.parent c = some a

/-- The nodes outside the heap are as they were. -/
def SameOutside (m m' : SkewLinks N) (h : Multiset N) : Prop :=
  ∀ x, x ∉ h → m'.parent x = m.parent x ∧ m'.left x = m.left x ∧ m'.right x = m.right x

/- Whether the comparison is -1. -/
def less (comp : N → N → Int) (a b : N) : Bool := comp a b = -1

variable {comp : N → N → Int} {m m' : SkewLinks N} {start start' : Option N} {h k l r : Heap N} {a b p : N}
  {fuel fuel' : Nat}

omit [DecidableEq N] in
theorem shape_start (shape : Shape m start h) : start = root h := by
  cases h with
  | nil => exact shape
  | node l a r => exact shape.1

omit [DecidableEq N] in
theorem shape_mem (shape : Shape m start h) {c : N} (here : start = some c) : c ∈ elems h := by
  cases h with
  | nil => rw [shape] at here; cases here
  | node l a r =>
    obtain rfl := Option.some.inj (shape.1.symm.trans here)
    exact Multiset.mem_cons_self _ _

omit [DecidableEq N] in
theorem shape_unique (shape : Shape m start h) (shape' : Shape m start k) : h = k := by
  induction h generalizing start k with
  | nil =>
    cases k with
    | nil => rfl
    | node l b r =>
      rw [shape] at shape'
      cases shape'.1
  | node l a r ihl ihr =>
    obtain ⟨here, left, right, -⟩ := shape
    cases k with
    | nil =>
      rw [here] at shape'
      cases shape'
    | node l' b r' =>
      obtain ⟨there, left', right', -⟩ := shape'
      obtain rfl := Option.some.inj (here.symm.trans there)
      rw [ihl left left', ihr right right']

omit [DecidableEq N] in
/- A heap is read off the children of its nodes and the parents of those below its root. -/
theorem shape_congr (shape : Shape m start h) (nodup : (elems h).Nodup)
    (links : ∀ x ∈ elems h, m'.left x = m.left x ∧ m'.right x = m.right x)
    (parents : ∀ x ∈ elems h, start ≠ some x → m'.parent x = m.parent x) : Shape m' start h := by
  induction h generalizing start with
  | nil => exact shape
  | node l a r ihl ihr =>
    obtain ⟨here, left, right, told⟩ := shape
    obtain ⟨fresh, nodup⟩ := Multiset.nodup_cons.mp nodup
    obtain ⟨nodupL, nodupR, _⟩ := Multiset.nodup_add.mp nodup
    have atA := links a (Multiset.mem_cons_self _ _)
    have below : ∀ {x}, x ∈ elems l + elems r → m'.parent x = m.parent x := by
      intro x mem
      refine parents x (Multiset.mem_cons_of_mem mem) fun same => fresh ?_
      rw [Option.some.inj (here.symm.trans same)]
      exact mem
    refine ⟨here, ?_, ?_, ?_⟩
    · rw [atA.1]
      exact ihl left nodupL (fun x mem => links x (mem_left mem))
        fun x mem _ => below (Multiset.mem_add.mpr (.inl mem))
    · rw [atA.2]
      exact ihr right nodupR (fun x mem => links x (mem_right mem))
        fun x mem _ => below (Multiset.mem_add.mpr (.inr mem))
    · rw [atA.1, atA.2]
      intro c child
      rw [below, told c child]
      rcases child with child | child
      · exact Multiset.mem_add.mpr (.inl (shape_mem left child))
      · exact Multiset.mem_add.mpr (.inr (shape_mem right child))

omit [DecidableEq N] in
theorem shape_outside (shape : Shape m start h) (nodup : (elems h).Nodup) {k : Multiset N} (same : SameOutside m m' k)
    (apart : ∀ x ∈ elems h, x ∉ k) : Shape m' start h :=
  shape_congr shape nodup (fun x mem => (same x (apart x mem)).2) fun x mem _ => (same x (apart x mem)).1

theorem set_children_parent {l₁ r₁ : Option N} {x : N} (other : l₁ ≠ some x) :
    (setChildren a l₁ r₁ m).parent x = m.parent x := by
  unfold setChildren
  cases l₁ with
  | none => rfl
  | some c => exact Function.update_of_ne (fun same => other (congrArg some same.symm)) ..

theorem set_children_outside {l₁ r₁ : Option N} (inside : ∀ c, l₁ = some c → c ∈ elems l) :
    SameOutside m (setChildren a l₁ r₁ m) (a ::ₘ elems l) := by
  intro x out
  obtain ⟨other, out⟩ := not_or.mp fun mem => out (Multiset.mem_cons.mpr mem)
  exact ⟨set_children_parent fun same => out (inside x same), Function.update_of_ne other .., Function.update_of_ne other ..⟩

theorem set_children_shape {l₁ r₁ : Option N} (left : Shape m l₁ l) (right : Shape m r₁ r)
    (told : ∀ c, r₁ = some c → m.parent c = some a) (nodup : (elems (.node l a r)).Nodup) :
    Shape (setChildren a l₁ r₁ m) (some a) (.node l a r) := by
  obtain ⟨fresh, nodup⟩ := Multiset.nodup_cons.mp nodup
  obtain ⟨nodupL, nodupR, apart⟩ := Multiset.nodup_add.mp nodup
  have other : ∀ x ∈ elems l + elems r, x ≠ a := fun x mem same => fresh (same ▸ mem)
  have links : ∀ x ∈ elems l + elems r, (setChildren a l₁ r₁ m).left x = m.left x ∧
      (setChildren a l₁ r₁ m).right x = m.right x :=
    fun x mem => ⟨Function.update_of_ne (other x mem) .., Function.update_of_ne (other x mem) ..⟩
  have notLeft : ∀ x ∈ elems r, l₁ ≠ some x := fun x mem same =>
    Multiset.disjoint_left.mp apart (shape_mem left same) mem
  have atLeft : (setChildren a l₁ r₁ m).left a = l₁ := Function.update_self ..
  have atRight : (setChildren a l₁ r₁ m).right a = r₁ := Function.update_self ..
  refine ⟨rfl, ?_, ?_, fun c child => ?_⟩
  · rw [atLeft]
    exact shape_congr left nodupL (fun x mem => links x (Multiset.mem_add.mpr (.inl mem)))
      fun x _ below => set_children_parent below
  · rw [atRight]
    exact shape_congr right nodupR (fun x mem => links x (Multiset.mem_add.mpr (.inr mem)))
      fun x mem _ => set_children_parent (notLeft x mem)
  · rw [atLeft, atRight] at child
    rcases child with rfl | child
    · exact Function.update_self ..
    · rw [set_children_parent (notLeft c (shape_mem right child))]
      exact told c child

/- A merged heap becomes the left child of `a`, and the left child of `a` its right one. -/
theorem merge_hang {m₁ : SkewLinks N} {top : Option N} (shape : Shape m₁ top h) (same : SameOutside m m₁ (elems h))
    (left : Shape m (m.left a) l) (told : ∀ c, m.left a = some c → m.parent c = some a)
    (nodup : (elems (.node h a l)).Nodup) : Shape (setChildren a top (m.left a) m₁) (some a) (.node h a l) ∧
      SameOutside m (setChildren a top (m.left a) m₁) (elems (.node h a l)) ∧
      (setChildren a top (m.left a) m₁).parent a = m.parent a := by
  obtain ⟨fresh, nodup'⟩ := Multiset.nodup_cons.mp nodup
  obtain ⟨_, nodupL, apart⟩ := Multiset.nodup_add.mp nodup'
  have outside : ∀ x ∈ elems l, x ∉ elems h := fun x mem inside => Multiset.disjoint_left.mp apart inside mem
  have freshH : a ∉ elems h := fun mem => fresh (Multiset.mem_add.mpr (.inl mem))
  refine ⟨set_children_shape shape (shape_outside left nodupL same outside) (fun c child => ?_) nodup, fun x out => ?_, ?_⟩
  · rw [(same c (outside c (shape_mem left child))).1]
    exact told c child
  · rw [mem_node, not_or, not_or] at out
    have kept := same x out.2.1
    have set := @set_children_outside N _ m₁ h a top (m.left a) (fun c => shape_mem shape) x fun mem =>
      (Multiset.mem_cons.mp mem).elim out.1 out.2.1
    exact ⟨set.1.trans kept.1, set.2.1.trans kept.2.1, set.2.2.trans kept.2.2⟩
  · rw [set_children_parent fun here => freshH (shape_mem shape here)]
    exact (same a freshH).1

theorem merge_nil_run (fuel : Nat) (first : Shape m start .nil) :
    skewHeapMerge comp fuel start start' m = some (start', m) := by
  rw [show start = none from first]
  unfold skewHeapMerge
  rfl

omit [DecidableEq N] in
theorem same_outside_refl (m : SkewLinks N) (h : Multiset N) : SameOutside m m h := fun _ _ => ⟨rfl, rfl, rfl⟩

/- The merge of disjoint heaps. The root that is left knows the parent that it knew. -/
theorem merge_run (first : Shape m start h) (second : Shape m start' k) (nodup : (elems h + elems k).Nodup)
    (enough : (elems h + elems k).card ≤ fuel) :
    ∃ top m', skewHeapMerge comp fuel start start' m = some (top, m') ∧ Shape m' top (merge (less comp) h k) ∧
      SameOutside m m' (elems h + elems k) ∧ ∀ x, top = some x → m'.parent x = m.parent x := by
  induction fuel generalizing h k start start' m with
  | zero =>
    have empty : elems h + elems k = 0 := Multiset.card_eq_zero.mp (Nat.le_zero.mp enough)
    cases h with
    | nil => exact ⟨start', m, merge_nil_run 0 first, second, same_outside_refl m _, fun _ _ => rfl⟩
    | node l a r =>
      have mem : a ∈ elems (.node l a r) + elems k := Multiset.mem_add.mpr (.inl (Multiset.mem_cons_self _ _))
      rw [empty] at mem
      exact absurd mem (Multiset.notMem_zero a)
  | succ fuel ih =>
    cases h with
    | nil => exact ⟨start', m, merge_nil_run _ first, second, same_outside_refl m _, fun _ _ => rfl⟩
    | node l a r =>
      have whole := first
      obtain ⟨rfl, left, right, told⟩ := first
      cases k with
      | nil =>
        rw [show start' = none from second]
        exact ⟨some a, m, by unfold skewHeapMerge; rfl, whole, same_outside_refl m _, fun _ _ => rfl⟩
      | node l' b r' =>
        have whole' := second
        obtain ⟨rfl, left', right', told'⟩ := second
        by_cases below : comp a b = -1
        · have split : elems (.node l a r) + elems (.node l' b r') =
              a ::ₘ (elems (merge (less comp) r (.node l' b r')) + elems l) := by
            rw [merge_elems]
            change a ::ₘ (elems l + elems r) + _ = _
            rw [Multiset.cons_add]
            congr 1
            ac_rfl
          rw [split] at nodup enough ⊢
          rw [Multiset.card_cons, merge_elems, Multiset.card_add] at enough
          have nodup' := (Multiset.nodup_add.mp (Multiset.nodup_cons.mp nodup).2).1
          rw [merge_elems] at nodup'
          obtain ⟨top, m₁, ran, shape, same, _⟩ := ih right whole' nodup' (by omega)
          rw [← @merge_elems N (less comp)] at same
          obtain ⟨shape', same', kept⟩ := merge_hang shape same left (fun c child => told c (.inl child)) nodup
          refine ⟨some a, setChildren a top (m.left a) m₁, ?_, ?_, same', fun x here => ?_⟩
          · unfold skewHeapMerge
            rw [if_pos below, ran]
            rfl
          · have decided : less comp a b = true := decide_eq_true below
            change Shape _ _ (mergeNode _ _ l a r (.node l' b r'))
            unfold mergeNode
            rw [if_pos decided]
            exact shape'
          · rw [← Option.some.inj here]
            exact kept
        · have split : elems (.node l a r) + elems (.node l' b r') =
              b ::ₘ (elems (merge (less comp) (.node l a r) r') + elems l') := by
            rw [merge_elems]
            change _ + b ::ₘ (elems l' + elems r') = _
            rw [Multiset.add_cons]
            congr 1
            ac_rfl
          rw [split] at nodup enough ⊢
          rw [Multiset.card_cons, merge_elems, Multiset.card_add] at enough
          have nodup' := (Multiset.nodup_add.mp (Multiset.nodup_cons.mp nodup).2).1
          rw [merge_elems] at nodup'
          obtain ⟨top, m₁, ran, shape, same, _⟩ := ih whole right' nodup' (by omega)
          rw [← @merge_elems N (less comp)] at same
          obtain ⟨shape', same', kept⟩ := merge_hang shape same left' (fun c child => told' c (.inl child)) nodup
          refine ⟨some b, setChildren b top (m.left b) m₁, ?_, ?_, same', fun x here => ?_⟩
          · unfold skewHeapMerge
            rw [if_neg below, ran]
            rfl
          · have decided : ¬ less comp a b = true := fun found => below (of_decide_eq_true found)
            change Shape _ _ (mergeNode _ _ l a r (.node l' b r'))
            unfold mergeNode
            rw [if_neg decided]
            exact shape'
          · rw [← Option.some.inj here]
            exact kept

omit [DecidableEq N] in
theorem same_outside_trans {m₁ : SkewLinks N} {s u : Multiset N} (first : SameOutside m m₁ s) (second : SameOutside m₁ m' u)
    (inside : ∀ x ∈ s, x ∈ u) : SameOutside m m' u := by
  intro x out
  have here := first x fun mem => out (inside x mem)
  have there := second x out
  exact ⟨there.1.trans here.1, there.2.1.trans here.2.1, there.2.2.trans here.2.2⟩

theorem set_parent_links {rep above : Option N} (x : N) :
    (setParent rep above m).left x = m.left x ∧ (setParent rep above m).right x = m.right x := by
  cases rep <;> exact ⟨rfl, rfl⟩

theorem set_parent_self {rep above : Option N} {x : N} (here : rep = some x) : (setParent rep above m).parent x = above := by
  rw [here]
  exact Function.update_self ..

theorem set_parent_other {rep above : Option N} {x : N} (other : rep ≠ some x) :
    (setParent rep above m).parent x = m.parent x := by
  cases rep with
  | none => rfl
  | some c => exact Function.update_of_ne (fun same => other (congrArg some same.symm)) ..

theorem replace_child_other {rep : Option N} {x : N} (other : x ≠ p) : (replaceChild p b rep m).left x = m.left x ∧
    (replaceChild p b rep m).right x = m.right x := by
  unfold replaceChild
  split_ifs
  · exact ⟨Function.update_of_ne other .., rfl⟩
  · exact ⟨rfl, Function.update_of_ne other ..⟩

theorem replace_child_parent {rep : Option N} {x : N} : (replaceChild p b rep m).parent x = m.parent x := by
  unfold replaceChild
  split_ifs <;> rfl

/- What is merged, once it hangs below `p` in the place of `b`. -/
theorem replaced_shape {rep : Option N} (shape : Shape m rep h) (nodup : (elems h).Nodup) (fresh : p ∉ elems h) :
    Shape (replaceChild p b rep (setParent rep (some p) m)) rep h ∧
      SameOutside m (replaceChild p b rep (setParent rep (some p) m)) (p ::ₘ elems h) ∧
      ∀ c, rep = some c → (replaceChild p b rep (setParent rep (some p) m)).parent c = some p := by
  have links : ∀ x, x ≠ p → (replaceChild p b rep (setParent rep (some p) m)).left x = m.left x ∧
      (replaceChild p b rep (setParent rep (some p) m)).right x = m.right x := by
    intro x other
    have replaced := @replace_child_other N _ (setParent rep (some p) m) b p rep x other
    have set := @set_parent_links N _ m rep (some p) x
    exact ⟨replaced.1.trans set.1, replaced.2.trans set.2⟩
  refine ⟨shape_congr shape nodup (fun x mem => links x fun same => fresh (same ▸ mem)) fun x _ other => ?_,
    fun x out => ?_, fun c here => ?_⟩
  · rw [replace_child_parent, set_parent_other other]
  · obtain ⟨other, out⟩ := not_or.mp fun mem => out (Multiset.mem_cons.mpr mem)
    rw [replace_child_parent, set_parent_other fun here => out (shape_mem shape here)]
    exact ⟨rfl, links x other⟩
  · rw [replace_child_parent, set_parent_self here]

theorem replace_child_self (rep : Option N) :
    if m.left p = some b then (replaceChild p b rep m).left p = rep ∧ (replaceChild p b rep m).right p = m.right p
    else (replaceChild p b rep m).left p = m.left p ∧ (replaceChild p b rep m).right p = rep := by
  unfold replaceChild
  split_ifs
  · exact ⟨Function.update_self .., rfl⟩
  · exact ⟨rfl, Function.update_self ..⟩

/- What `skew_heap_remove` does below the parent of the node. -/
theorem replaced_run (below : m.parent b = some p) (left : Shape m (m.left b) l) (right : Shape m (m.right b) r)
    (nodup : (elems l + elems r).Nodup) (fresh : p ∉ elems l + elems r) (enough : (elems l + elems r).card ≤ fuel) :
    ∃ rep m', (∀ a, skewHeapRemove comp fuel a b m = some (a, m')) ∧ Shape m' rep (merge (less comp) l r) ∧
      SameOutside m m' (p ::ₘ (elems l + elems r)) ∧ (∀ c, rep = some c → m'.parent c = some p) ∧
      m'.parent p = m.parent p ∧
      if m.left p = some b then m'.left p = rep ∧ m'.right p = m.right p else m'.left p = m.left p ∧ m'.right p = rep := by
  obtain ⟨rep, m₁, ran, shape, same, _⟩ := @merge_run N _ comp _ _ _ _ _ fuel left right nodup enough
  rw [← @merge_elems N (less comp)] at nodup fresh same
  obtain ⟨shape', same', told⟩ := @replaced_shape N _ _ _ b p rep shape nodup fresh
  have atP := same p fresh
  have links := @set_parent_links N _ m₁ rep (some p) p
  have slots := @replace_child_self N _ (setParent rep (some p) m₁) b p rep
  rw [links.1, links.2, atP.2.1, atP.2.2] at slots
  refine ⟨rep, replaceChild p b rep (setParent rep (some p) m₁), fun a => ?_, shape', ?_, told, ?_, slots⟩
  · unfold skewHeapRemove
    dsimp only
    rw [below, ran]
    rfl
  · rw [← @merge_elems N (less comp)]
    exact same_outside_trans same same' fun x mem => Multiset.mem_cons_of_mem mem
  · rw [replace_child_parent, set_parent_other fun here => fresh (shape_mem shape here)]
    exact atP.1

omit [DecidableEq N] in
/- A node whose left heap is another while its right one is as it was, and the other way round. -/
theorem left_changed {s : Multiset N} (right : Shape m (m.right a) r) (nodup : (elems r).Nodup)
    (told : ∀ c, m.right a = some c → m.parent c = some a) (same : SameOutside m m' s) (apart : ∀ x ∈ elems r, x ∉ s)
    (left : Shape m' (m'.left a) l) (told' : ∀ c, m'.left a = some c → m'.parent c = some a)
    (slot : m'.right a = m.right a) : Shape m' (some a) (.node l a r) := by
  refine ⟨rfl, left, ?_, fun c child => ?_⟩
  · rw [slot]
    exact shape_outside right nodup same apart
  · rcases child with child | child
    · exact told' c child
    · rw [slot] at child
      rw [(same c (apart c (shape_mem right child))).1]
      exact told c child

omit [DecidableEq N] in
theorem right_changed {s : Multiset N} (left : Shape m (m.left a) l) (nodup : (elems l).Nodup)
    (told : ∀ c, m.left a = some c → m.parent c = some a) (same : SameOutside m m' s) (apart : ∀ x ∈ elems l, x ∉ s)
    (right : Shape m' (m'.right a) r) (told' : ∀ c, m'.right a = some c → m'.parent c = some a)
    (slot : m'.left a = m.left a) : Shape m' (some a) (.node l a r) := by
  refine ⟨rfl, ?_, right, fun c child => ?_⟩
  · rw [slot]
    exact shape_outside left nodup same apart
  · rcases child with child | child
    · rw [slot] at child
      rw [(same c (apart c (shape_mem left child))).1]
      exact told c child
    · exact told' c child

/- The removal of a node that is not the root. -/
theorem remove_below (shape : Shape m start h) (nodup : (elems h).Nodup) (mem : b ∈ elems h) (inner : start ≠ some b)
    (enough : (elems h).card ≤ fuel) :
    ∃ m', (∀ a, skewHeapRemove comp fuel a b m = some (a, m')) ∧ Shape m' start (remove (less comp) b h) ∧
      SameOutside m m' (elems h) ∧ ∀ x, start = some x → m'.parent x = m.parent x := by
  induction h generalizing start with
  | nil => exact absurd mem (Multiset.notMem_zero b)
  | node l a r ihl ihr =>
    obtain ⟨rfl, left, right, told⟩ := shape
    obtain ⟨fresh, nodup'⟩ := Multiset.nodup_cons.mp nodup
    obtain ⟨nodupL, nodupR, apart⟩ := Multiset.nodup_add.mp nodup'
    have apart' : ∀ x ∈ elems l, x ∉ elems r := fun x here there => Multiset.disjoint_left.mp apart here there
    have other : a ≠ b := fun same => inner (congrArg some same)
    have freshL : a ∉ elems l := fun mem => fresh (Multiset.mem_add.mpr (.inl mem))
    have freshR : a ∉ elems r := fun mem => fresh (Multiset.mem_add.mpr (.inr mem))
    have above : ∀ {m' : SkewLinks N}, m'.parent a = m.parent a → ∀ x, some a = some x → m'.parent x = m.parent x :=
      fun kept x here => Option.some.inj here ▸ kept
    change (a ::ₘ (elems l + elems r)).card ≤ fuel at enough
    rw [Multiset.card_cons, Multiset.card_add] at enough
    unfold remove
    rw [if_neg other]
    rcases (mem_node.mp mem).resolve_left fun same => other same.symm with mem | mem
    · have inLeft : ∀ x ∈ elems l, x ∈ elems (.node l a r) := fun _ => mem_left
      rw [remove_absent (apart' b mem)]
      by_cases top : m.left a = some b
      · cases l with
        | nil => rw [show m.left a = none from left] at top; cases top
        | node lb c rb =>
          obtain rfl := Option.some.inj (left.1.symm.trans top)
          have nodupC := (Multiset.nodup_cons.mp nodupL).2
          have inC : ∀ x ∈ elems lb + elems rb, x ∈ elems (.node lb c rb) := fun x mem => Multiset.mem_cons_of_mem mem
          change (c ::ₘ (elems lb + elems rb)).card + _ + 1 ≤ fuel at enough
          rw [Multiset.card_cons] at enough
          obtain ⟨rep, m', ran, shape', same, told', kept, slots⟩ := @replaced_run N _ comp m lb rb c a fuel
            (told c (.inl top)) left.2.1 left.2.2.1 nodupC (fun mem => freshL (inC a mem)) (by omega)
          rw [if_pos top] at slots
          rw [remove_root]
          refine ⟨m', ran, left_changed right nodupR (fun d child => told d (.inr child)) same (fun x here there => ?_)
            (by rw [slots.1]; exact shape') (by rw [slots.1]; exact told') slots.2, fun x out => same x fun mem => ?_,
            above kept⟩
          · rcases Multiset.mem_cons.mp there with rfl | there
            · exact freshR here
            · exact apart' x (inC x there) here
          · rcases Multiset.mem_cons.mp mem with rfl | mem
            · exact out (Multiset.mem_cons_self _ _)
            · exact out (inLeft x (inC x mem))
      · obtain ⟨m', ran, shape', same, kept⟩ := ihl left nodupL mem top (by omega)
        have atA := same a freshL
        refine ⟨m', ran, left_changed right nodupR (fun d child => told d (.inr child)) same
          (fun x here there => apart' x there here) (by rw [atA.2.1]; exact shape') (fun c child => ?_) atA.2.2,
          fun x out => same x fun inside => out (inLeft x inside), above atA.1⟩
        rw [atA.2.1] at child
        rw [kept c child]
        exact told c (.inl child)
    · have inRight : ∀ x ∈ elems r, x ∈ elems (.node l a r) := fun _ => mem_right
      have notLeft : m.left a ≠ some b := fun here => apart' b (shape_mem left here) mem
      rw [remove_absent fun there => apart' b there mem]
      by_cases top : m.right a = some b
      · cases r with
        | nil => rw [show m.right a = none from right] at top; cases top
        | node lb c rb =>
          obtain rfl := Option.some.inj (right.1.symm.trans top)
          have nodupC := (Multiset.nodup_cons.mp nodupR).2
          have inC : ∀ x ∈ elems lb + elems rb, x ∈ elems (.node lb c rb) := fun x mem => Multiset.mem_cons_of_mem mem
          change _ + (c ::ₘ (elems lb + elems rb)).card + 1 ≤ fuel at enough
          rw [Multiset.card_cons] at enough
          obtain ⟨rep, m', ran, shape', same, told', kept, slots⟩ := @replaced_run N _ comp m lb rb c a fuel
            (told c (.inr top)) right.2.1 right.2.2.1 nodupC (fun mem => freshR (inC a mem)) (by omega)
          rw [if_neg notLeft] at slots
          rw [remove_root]
          refine ⟨m', ran, right_changed left nodupL (fun d child => told d (.inl child)) same (fun x here there => ?_)
            (by rw [slots.2]; exact shape') (by rw [slots.2]; exact told') slots.1, fun x out => same x fun mem => ?_,
            above kept⟩
          · rcases Multiset.mem_cons.mp there with rfl | there
            · exact freshL here
            · exact apart' x here (inC x there)
          · rcases Multiset.mem_cons.mp mem with rfl | mem
            · exact out (Multiset.mem_cons_self _ _)
            · exact out (inRight x (inC x mem))
      · obtain ⟨m', ran, shape', same, kept⟩ := ihr right nodupR mem top (by omega)
        have atA := same a freshR
        refine ⟨m', ran, right_changed left nodupL (fun d child => told d (.inl child)) same apart'
          (by rw [atA.2.2]; exact shape') (fun c child => ?_) atA.2.1,
          fun x out => same x fun inside => out (inRight x inside), above atA.1⟩
        rw [atA.2.2] at child
        rw [kept c child]
        exact told c (.inr child)

/-- The heap, with nothing above its root. -/
def Rooted (m : SkewLinks N) (start : Option N) (h : Heap N) : Prop :=
  Shape m start h ∧ ∀ x, start = some x → m.parent x = none

theorem remove_rooted (rooted : Rooted m start h) (nodup : (elems h).Nodup) (mem : b ∈ elems h)
    (enough : (elems h).card ≤ fuel) :
    ∃ top m', skewHeapRemove comp fuel start b m = some (top, m') ∧ Rooted m' top (remove (less comp) b h) := by
  obtain ⟨shape, orphan⟩ := rooted
  by_cases first : start = some b
  · cases h with
    | nil => exact absurd mem (Multiset.notMem_zero b)
    | node l c r =>
      obtain ⟨here, left, right, _⟩ := shape
      obtain rfl := Option.some.inj (here.symm.trans first)
      have nodup' := (Multiset.nodup_cons.mp nodup).2
      change (c ::ₘ (elems l + elems r)).card ≤ fuel at enough
      rw [Multiset.card_cons] at enough
      obtain ⟨rep, m₁, ran, shape', _⟩ := @merge_run N _ comp _ _ _ _ _ fuel left right nodup' (by omega)
      rw [← @merge_elems N (less comp)] at nodup'
      rw [remove_root]
      refine ⟨rep, setParent rep none m₁, ?_, shape_congr shape' nodup' (fun x _ => set_parent_links x)
        fun x _ other => set_parent_other other, fun x top => set_parent_self top⟩
      unfold skewHeapRemove
      dsimp only
      rw [orphan c first, ran]
      rfl
  · obtain ⟨m', ran, shape', _, kept⟩ := @remove_below N _ comp _ _ _ _ fuel shape nodup mem first enough
    exact ⟨start, m', ran start, shape', fun x top => (kept x top).trans (orphan x top)⟩

theorem insert_rooted (rooted : Rooted m start h) (nodup : (elems h).Nodup) (fresh : b ∉ elems h)
    (enough : (elems h).card < fuel) :
    ∃ top m', skewHeapInsert comp fuel start b m = some (top, m') ∧
      Rooted m' top (merge (less comp) h (.node .nil b .nil)) := by
  obtain ⟨shape, orphan⟩ := rooted
  have other : ∀ x ∈ elems h, x ≠ b := fun x mem same => fresh (same ▸ mem)
  have shape' : Shape (skewHeapInit b m) start h :=
    shape_congr shape nodup (fun x mem => ⟨Function.update_of_ne (other x mem) .., Function.update_of_ne (other x mem) ..⟩)
      fun x mem _ => Function.update_of_ne (other x mem) ..
  have single : Shape (skewHeapInit b m) (some b) (.node .nil b .nil) := by
    have left : (skewHeapInit b m).left b = none := Function.update_self ..
    have right : (skewHeapInit b m).right b = none := Function.update_self ..
    refine ⟨rfl, left, right, fun c child => ?_⟩
    rw [left, right] at child
    rcases child with child | child <;> cases child
  have added : elems h + elems (.node .nil b .nil) = b ::ₘ elems h := by
    change elems h + b ::ₘ (0 + 0) = _
    rw [add_zero, Multiset.add_cons, add_zero]
  obtain ⟨top, m', ran, merged, _, kept⟩ := @merge_run N _ comp _ _ _ _ _ fuel shape' single
    (by rw [added]; exact Multiset.nodup_cons.mpr ⟨fresh, nodup⟩) (by rw [added, Multiset.card_cons]; omega)
  refine ⟨top, m', ran, merged, fun x here => ?_⟩
  rw [kept x here]
  rw [shape_start merged] at here
  rcases @root_merge N (less comp) h (.node .nil b .nil) with old | new
  · rw [old, ← shape_start shape] at here
    change Function.update m.parent b none x = none
    rw [Function.update_of_ne (other x (shape_mem shape here))]
    exact orphan x here
  · rw [new] at here
    obtain rfl := Option.some.inj here
    exact Function.update_self ..

/- More fuel changes nothing. -/
theorem merge_mono {done : Option N × SkewLinks N} (ran : skewHeapMerge comp fuel start start' m = some done)
    (more : fuel ≤ fuel') : skewHeapMerge comp fuel' start start' m = some done := by
  induction fuel generalizing start start' m done fuel' with
  | zero =>
    cases start with
    | none => unfold skewHeapMerge at ran ⊢; exact ran
    | some a =>
      cases start' with
      | none => unfold skewHeapMerge at ran ⊢; exact ran
      | some b => cases ran
  | succ fuel ih =>
    obtain ⟨less, rfl⟩ : ∃ less, fuel' = less + 1 := ⟨fuel' - 1, by omega⟩
    cases start with
    | none => unfold skewHeapMerge at ran ⊢; exact ran
    | some a =>
      cases start' with
      | none => unfold skewHeapMerge at ran ⊢; exact ran
      | some b =>
        unfold skewHeapMerge at ran ⊢
        split_ifs at ran ⊢
        · obtain ⟨inner, done', same⟩ := Option.map_eq_some_iff.mp ran
          exact Option.map_eq_some_iff.mpr ⟨inner, ih done' (by omega), same⟩
        · obtain ⟨inner, done', same⟩ := Option.map_eq_some_iff.mp ran
          exact Option.map_eq_some_iff.mpr ⟨inner, ih done' (by omega), same⟩

theorem remove_mono {done : Option N × SkewLinks N} (ran : skewHeapRemove comp fuel start b m = some done)
    (more : fuel ≤ fuel') : skewHeapRemove comp fuel' start b m = some done := by
  unfold skewHeapRemove at ran ⊢
  obtain ⟨inner, done', same⟩ := Option.map_eq_some_iff.mp ran
  exact Option.map_eq_some_iff.mpr ⟨inner, merge_mono done' more, same⟩

/- What a call that has ended has made of the heap. -/
theorem inserted_rooted {top : Option N} (rooted : Rooted m start h) (nodup : (elems h).Nodup) (fresh : b ∉ elems h)
    (ran : skewHeapInsert comp fuel start b m = some (top, m')) :
    Rooted m' top (merge (less comp) h (.node .nil b .nil)) := by
  obtain ⟨top', m'', ran', rooted'⟩ := @insert_rooted N _ comp _ _ _ _ _ rooted nodup fresh (Nat.lt_succ_self _)
  have one := merge_mono ran (Nat.le_max_left fuel ((elems h).card + 1))
  rw [show skewHeapMerge comp (max fuel ((elems h).card + 1)) start (some b) (skewHeapInit b m) = some (top', m'') from
    merge_mono ran' (Nat.le_max_right ..)] at one
  obtain ⟨rfl, rfl⟩ := Prod.mk.inj (Option.some.inj one)
  exact rooted'

theorem removed_rooted {top : Option N} (rooted : Rooted m start h) (nodup : (elems h).Nodup) (mem : b ∈ elems h)
    (ran : skewHeapRemove comp fuel start b m = some (top, m')) : Rooted m' top (remove (less comp) b h) := by
  obtain ⟨top', m'', ran', rooted'⟩ := @remove_rooted N _ comp _ _ _ _ _ rooted nodup mem (Nat.le_refl _)
  have one := remove_mono ran (Nat.le_max_left fuel (elems h).card)
  rw [remove_mono ran' (Nat.le_max_right ..)] at one
  obtain ⟨rfl, rfl⟩ := Prod.mk.inj (Option.some.inj one)
  exact rooted'

end

end Ucore
