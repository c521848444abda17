import Mathlib

/- Circular doubly linked lists over an arbitrary type of nodes. A ring is read off
   the forward links; the backward link of a node in `slack` may also point at the
   node itself, every other backward link names the predecessor. -/
namespace CircularList
variable {N : Type}

structure Links (N : Type) where
  next : N → N
  prev : N → N

def Links.splice [DecidableEq N] (L : Links N) (elm before after : N) : Links N :=
  { next := Function.update (Function.update L.next before elm) elm after,
    prev := Function.update (Function.update L.prev after elm) elm before }

def Links.bypass [DecidableEq N] (L : Links N) (before after : N) : Links N :=
  { next := Function.update L.next before after, prev := Function.update L.prev after before }

def Adjacent (L : Links N) (slack : N → Prop) (a b : N) : Prop :=
  L.next a = b ∧ (L.prev b = a ∨ slack b ∧ L.prev b = b)

structure IsRing (L : Links N) (slack : N → Prop) (head : N) (xs : List N) : Prop where
  nodup : (head :: xs).Nodup
  chain : ((head :: xs) ++ [head]).IsChain (Adjacent L slack)

theorem chain_congr {R S : N → N → Prop} {l : List N} (nodup : l.Nodup)
    (same : ∀ c ∈ l, ∀ d ∈ l, l.getLast? ≠ some c → l.head? ≠ some d → R c d → S c d)
    (chain : l.IsChain R) : l.IsChain S := by
  induction l with
  | nil => exact .nil
  | cons x t ih =>
    cases t with
    | nil => exact .singleton x
    | cons y t =>
      obtain ⟨fresh, tailNodup⟩ := List.nodup_cons.mp nodup
      obtain ⟨first, rest⟩ := List.isChain_cons_cons.mp chain
      refine List.isChain_cons_cons.mpr ⟨?_, ih tailNodup ?_ rest⟩
      · refine same x (by simp) y (by simp) ?_ ?_ first
        · rw [List.getLast?_cons_cons]
          exact fun last => fresh (List.mem_of_getLast? last)
        · exact fun eq => fresh (by simp [Option.some.inj eq])
      · intro c hc d hd last _ rel
        refine same c (List.mem_cons_of_mem x hc) d (List.mem_cons_of_mem x hd) ?_ ?_ rel
        · rwa [List.getLast?_cons_cons]
        · exact fun eq => fresh (Option.some.inj eq ▸ hd)

section Surgery
variable {L L' : Links N} {slack : N → Prop} {head : N} {pre post : List N} {a b : N}

theorem ring_parts (ring : IsRing L slack head (pre ++ post)) :
    (head :: pre).Nodup ∧ (post ++ [head]).Nodup ∧ (∀ c ∈ head :: pre, c ∉ post) ∧
      (head :: pre).IsChain (Adjacent L slack) ∧ (post ++ [head]).IsChain (Adjacent L slack) := by
  have nodup := ring.nodup
  have chain := ring.chain
  rw [← List.cons_append, List.append_assoc] at chain
  rw [← List.cons_append] at nodup
  have ⟨left, right, apart⟩ := List.nodup_append.mp nodup
  obtain ⟨chainL, chainR, _⟩ := List.isChain_append.mp chain
  refine ⟨left, ?_, fun c mc mp => apart c mc c mp rfl, chainL, chainR⟩
  refine List.nodup_append.mpr ⟨right, by simp, ?_⟩
  intro c mc d md eq
  exact apart head (by simp) c mc (by simp_all)

theorem ring_neighbours (ring : IsRing L slack head (pre ++ post))
    (before : (head :: pre).getLast? = some a) (after : (post ++ [head]).head? = some b) :
    Adjacent L slack a b := by
  have chain := ring.chain
  rw [← List.cons_append, List.append_assoc] at chain
  exact (List.isChain_append.mp chain).2.2 a before b after

theorem ring_next_mem (ring : IsRing L slack head pre) {c : N} (mem : c ∈ head :: pre) :
    L.next c ∈ head :: pre := by
  obtain ⟨front, back, split⟩ := List.append_of_mem mem
  have chain := ring.chain
  rw [split] at chain
  cases back with
  | nil =>
    have step : Adjacent L slack c head := by
      simp only [List.append_assoc, List.cons_append, List.nil_append] at chain
      exact (List.isChain_append_cons_cons.mp chain).2.1
    simp [step.1]
  | cons d back =>
    have step : Adjacent L slack c d := by
      simp only [List.append_assoc, List.cons_append] at chain
      exact (List.isChain_append_cons_cons.mp chain).2.1
    rw [step.1, split]
    simp

/- What holds of a node and goes forward holds of all that follow. -/
theorem chain_closed {S : N → Prop} (closed : ∀ c, S c → S (L.next c)) {l : List N} (start : S a)
    (chain : (a :: l).IsChain (Adjacent L slack)) : ∀ c ∈ l, S c := by
  induction l generalizing a with
  | nil => exact fun c mem => absurd mem List.not_mem_nil
  | cons x l ih =>
    obtain ⟨step, rest⟩ := List.isChain_cons_cons.mp chain
    have here : S x := step.1 ▸ closed a start
    intro c mem
    rcases List.mem_cons.mp mem with rfl | mem
    · exact here
    · exact ih here rest c mem

/- Two rings on the same links have the same nodes. -/
theorem ring_subset {slack' : N → Prop} {xs ys : List N} (ring : IsRing L slack head xs) (other : IsRing L slack' head ys)
    {c : N} (mem : c ∈ xs) : c ∈ ys := by
  have there : c ∈ head :: ys :=
    @chain_closed N L slack head (· ∈ head :: ys) (fun _ => ring_next_mem other) (xs ++ [head]) List.mem_cons_self ring.chain c
      (List.mem_append_left _ mem)
  rcases List.mem_cons.mp there with rfl | there
  · exact absurd mem (List.nodup_cons.mp ring.nodup).1
  · exact there

theorem ring_reach_mem (ring : IsRing L slack head pre) (k : Nat) :
    L.next^[k] head ∈ head :: pre := by
  induction k with
  | zero => simp
  | succ k ih =>
    rw [Function.iterate_succ_apply']
    exact ring_next_mem ring ih

theorem ring_glue (nodup : (head :: (pre ++ post)).Nodup)
    (left : (head :: pre).IsChain (Adjacent L slack))
    (right : (post ++ [head]).IsChain (Adjacent L slack))
    (before : (head :: pre).getLast? = some a) (after : (post ++ [head]).head? = some b)
    (adjacent : Adjacent L slack a b) : IsRing L slack head (pre ++ post) := by
  refine ⟨nodup, ?_⟩
  rw [← List.cons_append, List.append_assoc]
  refine List.isChain_append.mpr ⟨left, right, ?_⟩
  intro c hc d hd
  have hc : some a = some c := before.symm.trans hc
  have hd : some b = some d := after.symm.trans hd
  rwa [← Option.some.inj hc, ← Option.some.inj hd]

theorem left_half_kept (nodup : (head :: pre).Nodup)
    (chain : (head :: pre).IsChain (Adjacent L slack))
    (before : (head :: pre).getLast? = some a)
    (next : ∀ c ∈ head :: pre, c ≠ a → L'.next c = L.next c)
    (prev : ∀ d ∈ pre, L'.prev d = L.prev d) : (head :: pre).IsChain (Adjacent L' slack) := by
  refine chain_congr nodup ?_ chain
  rintro c hc d hd last first ⟨fwd, back⟩
  have cNe : c ≠ a := fun eq => last (eq ▸ before)
  have dPre : d ∈ pre := by
    rcases List.mem_cons.mp hd with eq | mem
    · exact absurd (congrArg some eq.symm) first
    · exact mem
  exact ⟨(next c hc cNe).trans fwd, by rwa [prev d dPre]⟩

theorem right_half_kept (nodup : (post ++ [head]).Nodup)
    (chain : (post ++ [head]).IsChain (Adjacent L slack))
    (after : (post ++ [head]).head? = some b)
    (next : ∀ c ∈ post, L'.next c = L.next c)
    (prev : ∀ d ∈ post ++ [head], d ≠ b → L'.prev d = L.prev d) :
    (post ++ [head]).IsChain (Adjacent L' slack) := by
  refine chain_congr nodup ?_ chain
  rintro c hc d hd last first ⟨fwd, back⟩
  have dNe : d ≠ b := fun eq => first (eq ▸ after)
  have cPost : c ∈ post := by
    rcases List.mem_append.mp hc with mem | eq
    · exact mem
    · exact absurd (by simp_all) last
  exact ⟨(next c cPost).trans fwd, by rwa [prev d hd dNe]⟩

theorem last_mem_front (before : (head :: pre).getLast? = some a) : a ∈ head :: (pre ++ post) := by
  rcases List.mem_cons.mp (List.mem_of_getLast? before) with eq | mem
  · simp [eq]
  · simp [mem]

theorem head_mem_back (after : (post ++ [head]).head? = some b) : b ∈ head :: (pre ++ post) := by
  rcases List.mem_append.mp (List.mem_of_head? after) with mem | eq
  · simp [mem]
  · simp_all

theorem mem_middle {elm : N} : a ∈ pre ++ elm :: post ↔ a = elm ∨ a ∈ pre ++ post :=
  List.perm_middle.mem_iff.trans List.mem_cons

theorem nodup_middle {elm : N} : (head :: (pre ++ elm :: post)).Nodup ↔
    elm ∉ head :: (pre ++ post) ∧ (head :: (pre ++ post)).Nodup := by
  have perm : (head :: (pre ++ elm :: post)).Perm (elm :: head :: (pre ++ post)) :=
    (List.perm_middle.cons head).trans (List.Perm.swap elm head _)
  rw [perm.nodup_iff, List.nodup_cons]

/- What follows a place is not in front of it. -/
theorem front_ne (nodup : (head :: pre).Nodup) (apart : ∀ c ∈ pre, c ∉ post) (after : (post ++ [head]).head? = some b) :
    ∀ c ∈ pre, c ≠ b := by
  rintro c mem rfl
  rcases List.mem_append.mp (List.mem_of_head? after) with behind | same
  · exact apart c mem behind
  · exact (List.nodup_cons.mp nodup).1 (List.mem_singleton.mp same ▸ mem)

variable [DecidableEq N] {elm : N}

theorem splice_ring (ring : IsRing L slack head (pre ++ post))
    (before : (head :: pre).getLast? = some a) (after : (post ++ [head]).head? = some b)
    (fresh : elm ∉ head :: (pre ++ post)) :
    IsRing (L.splice elm a b) slack head (pre ++ elm :: post) := by
  obtain ⟨nodupL, nodupR, apart, chainL, chainR⟩ := ring_parts ring
  have notElm : ∀ c ∈ head :: (pre ++ post), c ≠ elm := fun c mc eq => fresh (eq ▸ mc)
  have preNe := front_ne nodupL (fun c mem => apart c (List.mem_cons_of_mem head mem)) after
  have postNe : ∀ c ∈ post, c ≠ a := by
    rintro c mem rfl
    exact apart c (List.mem_of_getLast? before) mem
  have left : (head :: pre).IsChain (Adjacent (L.splice elm a b) slack) := by
    refine left_half_kept nodupL chainL before ?_ ?_
    · intro c mc ne
      have := notElm c (by simp at mc ⊢; tauto)
      simp [Links.splice, this, ne]
    · intro d md
      have := notElm d (by simp [md])
      simp [Links.splice, this, preNe d md]
  have right : (post ++ [head]).IsChain (Adjacent (L.splice elm a b) slack) := by
    refine right_half_kept nodupR chainR after ?_ ?_
    · intro c mc
      have := notElm c (by simp [mc])
      simp [Links.splice, this, postNe c mc]
    · intro d md ne
      have := notElm d (by simp at md ⊢; tauto)
      simp [Links.splice, this, ne]
  have aNe := notElm a (last_mem_front before)
  have bNe := notElm b (head_mem_back after)
  refine ring_glue (b := elm) (nodup_middle.mpr ⟨fresh, ring.nodup⟩) left ?_ before (by simp) ?_
  · refine List.IsChain.cons right ?_
    intro c hc
    have same : b = c := Option.some.inj (after.symm.trans hc)
    subst c
    exact ⟨by simp [Links.splice], Or.inl (by simp [Links.splice, bNe])⟩
  · exact ⟨by simp [Links.splice, aNe], Or.inl (by simp [Links.splice])⟩

theorem bypass_ring (ring : IsRing L slack head (pre ++ elm :: post))
    (before : (head :: pre).getLast? = some a) (after : (post ++ [head]).head? = some b) :
    IsRing (L.bypass a b) slack head (pre ++ post) := by
  -- the ring is cut once before the removed node and once after it
  have cutAfter : IsRing L slack head ((pre ++ [elm]) ++ post) := by simpa using ring
  obtain ⟨nodupL, _, _, chainL, _⟩ := ring_parts ring
  obtain ⟨_, nodupR, apart, _, chainR⟩ := ring_parts cutAfter
  have preNe := front_ne nodupL (fun c mem => apart c (List.mem_cons_of_mem head (List.mem_append_left _ mem))) after
  have postNe : ∀ c ∈ post, c ≠ a := by
    rintro c mem rfl
    have := List.mem_of_getLast? before
    exact apart c (by simp at this ⊢; tauto) mem
  have left : (head :: pre).IsChain (Adjacent (L.bypass a b) slack) := by
    refine left_half_kept nodupL chainL before ?_ ?_
    · intro c _ ne; simp [Links.bypass, ne]
    · intro d md; simp [Links.bypass, preNe d md]
  have right : (post ++ [head]).IsChain (Adjacent (L.bypass a b) slack) := by
    refine right_half_kept nodupR chainR after ?_ ?_
    · intro c mc; simp [Links.bypass, postNe c mc]
    · intro d _ ne; simp [Links.bypass, ne]
  refine ring_glue (nodup_middle.mp ring.nodup).2 left right before after ?_
  exact ⟨by simp [Links.bypass], Or.inl (by simp [Links.bypass])⟩

theorem self_link_ring (ring : IsRing L slack head pre) (loose : slack elm) :
    IsRing { L with prev := Function.update L.prev elm elm } slack head pre := by
  refine ⟨ring.nodup, ring.chain.imp ?_⟩
  intro c d ⟨fwd, back⟩
  refine ⟨fwd, ?_⟩
  by_cases same : d = elm
  · subst same
    exact Or.inr ⟨loose, by simp⟩
  · simpa [same] using back

/- A forward search for the first node that satisfies `p`. `fuel` bounds the steps:
   the answer is `none` where the walk has not come back to the head by then. -/
def search (next : N → N) (head : N) (p : N → Bool) : Nat → N → Option (Option N)
  | 0, _ => none
  | fuel + 1, le =>
      if next le = head then some none
      else if p (next le) then some (some (next le))
      else search next head p fuel (next le)

theorem search_ring (p : N → Bool) {fuel : Nat} (ring : IsRing L slack head (pre ++ post))
    (before : (head :: pre).getLast? = some a) (enough : post.length < fuel) :
    search L.next head p fuel a = some (post.find? p) := by
  induction post generalizing pre a fuel with
  | nil =>
    obtain ⟨fuel, rfl⟩ : ∃ k, fuel = k + 1 := ⟨fuel - 1, by omega⟩
    have fwd : L.next a = head := (ring_neighbours ring before (by simp)).1
    simp [search, fwd]
  | cons x post ih =>
    obtain ⟨fuel, rfl⟩ : ∃ k, fuel = k + 1 := ⟨fuel - 1, by omega⟩
    have fwd : L.next a = x := (ring_neighbours ring before (by simp)).1
    have ne : x ≠ head := by
      rintro rfl
      exact (List.nodup_cons.mp ring.nodup).1 (by simp)
    have ring' : IsRing L slack head ((pre ++ [x]) ++ post) := by simpa using ring
    have last : (head :: (pre ++ [x])).getLast? = some x := by
      rw [← List.cons_append, List.getLast?_append]; simp
    have rest := @ih (pre ++ [x]) x fuel ring' last (by simp at enough; omega)
    simp only [search, fwd, ne, ↓reduceIte, List.find?_cons]
    cases p x
    · simpa using rest
    · rfl

end Surgery

end CircularList
