import Ucore.Lib.CyclicOrder
import Ucore.Lib.Tiling
import Ucore.Mm.Kmalloc

/- The free list of the allocator: what `slob_free` and a successful `slob_alloc` make of it. -/
namespace Ucore.Slob
open CyclicOrder Tiling
variable {arena a b c n p x units cur prev fuel : Nat} {F L P : Finset Nat} {h t : Heap}

def bytes (h : Heap) (a : Nat) : Nat := h.units a * SLOB_UNIT

/-- A page apart from the arena, as `alloc_pages` gives it. -/
def Page (arena p : Nat) : Prop := PAGE_SIZE ∣ p ∧ p ≠ 0 ∧ (p + PAGE_SIZE < arena ∨ arena + SLOB_UNIT < p)

/- The arena and the pages obtained. -/
def Area (arena : Nat) (P : Finset Nat) (x : Nat) : Prop :=
  arena ≤ x ∧ x < arena + SLOB_UNIT ∨ ∃ p ∈ P, p ≤ x ∧ x < p + PAGE_SIZE

/-- The free blocks `F` and the live ones `L` divide the arena and the pages `P`. -/
structure Laid (arena : Nat) (F L P : Finset Nat) (h : Heap) : Prop where
  home : arena ∈ F ∪ L
  unit : h.units arena = 1
  circle : Circle F h.next
  disjoint : ∀ a ∈ F, a ∉ L
  tiles : Tiles (F ∪ L) (bytes h) (Area arena P)
  aligned : ∀ a ∈ F ∪ L, a ≠ arena → SLOB_UNIT ∣ a
  pages : ∀ p ∈ P, Page arena p
  big : h.bigblocks = []

/-- What holds between the calls: besides, no two free blocks meet. -/
structure Sound (arena : Nat) (F L P : Finset Nat) (h : Heap) : Prop extends Laid arena F L P h where
  start : h.slobfree ∈ F
  merged : ∀ a ∈ F, ∀ b ∈ F, a + bytes h a ≠ b

/-- The free list is one block, and `size` bytes from `b` on end where it begins. -/
def MeetsOnly (h : Heap) (b size : Nat) : Prop := h.next h.slobfree = h.slobfree ∧ b + size = h.slobfree

/-- The free list is one block, with room for `units`. -/
def FromOnly (h : Heap) (units : Nat) : Prop := h.next h.slobfree = h.slobfree ∧ units ≤ h.units h.slobfree

theorem mem_free (ma : a ∈ F) : a ∈ F ∪ L := Finset.mem_union_left L ma

theorem mem_live (ma : a ∈ L) : a ∈ F ∪ L := Finset.mem_union_right F ma

theorem Laid.positive (laid : Laid arena F L P h) (ma : a ∈ F ∪ L) : 0 < bytes h a := laid.tiles.positive a ma

theorem Laid.arena_bytes (laid : Laid arena F L P h) : bytes h arena = SLOB_UNIT := by
  unfold bytes
  rw [laid.unit, Nat.one_mul]

/- Nothing but the arena meets the arena. -/
theorem Laid.ends_apart (laid : Laid arena F L P h) (ma : a ∈ F ∪ L) : a + bytes h a ≠ arena := by
  have positive := laid.positive ma
  rcases laid.tiles.last_in ma with ⟨low, _⟩ | ⟨p, mp, low, high⟩
  · omega
  · obtain ⟨_, _, clear⟩ := laid.pages p mp
    omega

/- The arena has one unit. -/
theorem Laid.far (laid : Laid arena F L P h) (two : 2 ≤ units) (room : units ≤ h.units a) : a ≠ arena := by
  intro same
  rw [same, laid.unit] at room
  omega

theorem Laid.starts_apart (laid : Laid arena F L P h) (ma : a ∈ F ∪ L) : arena + bytes h arena ≠ a := by
  have unit := laid.arena_bytes
  unfold SLOB_UNIT at unit
  rcases laid.tiles.start_in ma with ⟨_, high⟩ | ⟨p, mp, low, high⟩
  · unfold SLOB_UNIT at high
    omega
  · obtain ⟨_, _, clear⟩ := laid.pages p mp
    unfold SLOB_UNIT at clear
    omega

/- Free blocks that meet follow each other in the list. -/
theorem Laid.adjacent_next (laid : Laid arena F L P h) (ma : a ∈ F) (mb : b ∈ F) (meet : a + bytes h a = b) :
    h.next a = b := by
  have positive := laid.positive (mem_free ma)
  have mem := laid.circle.mem a ma
  rcases laid.circle.follows a ma with ⟨less, apart⟩ | ⟨_, ends⟩
  · rcases apart b mb with low | low
    · omega
    · by_contra ne
      have := laid.tiles.apart a (mem_free ma) _ (mem_free mem) less
      omega
  · have := ends b mb
    omega

theorem Laid.congr (laid : Laid arena F L P h) (units : ∀ a ∈ F ∪ L, t.units a = h.units a)
    (next : ∀ a ∈ F, t.next a = h.next a) (big : t.bigblocks = h.bigblocks) : Laid arena F L P t := by
  refine ⟨laid.home, ?_, laid.circle.congr next, laid.disjoint, laid.tiles.congr fun a mem => ?_, laid.aligned, laid.pages,
    big.trans laid.big⟩
  · rw [units arena laid.home]
    exact laid.unit
  · unfold bytes
    rw [units a mem]

/- The block `a` takes in the one behind it if they meet. -/
def absorb (a : Nat) (h : Heap) : Heap :=
  if a + bytes h a = h.next a then { h with
    units := Function.update h.units a (h.units a + h.units (h.next a))
    next := Function.update h.next a (h.next (h.next a)) }
  else h

def setNext (a b : Nat) (h : Heap) : Heap := { h with next := Function.update h.next a b }

def link (b cur : Nat) (h : Heap) : Heap := setNext cur b (setNext b (h.next cur) h)

theorem absorb_laid (laid : Laid arena F L P h) (ma : a ∈ F) (meet : a + bytes h a = h.next a) :
    Laid arena (F.erase (h.next a)) L P (absorb a h) := by
  have positive := laid.positive (mem_free ma)
  have mn := laid.circle.mem a ma
  have ne : h.next a ≠ a := by omega
  have far : h.next a ≠ arena := by
    rw [← meet]
    exact laid.ends_apart (mem_free ma)
  have other : a ≠ arena := by
    intro same
    have := laid.starts_apart (mem_free mn)
    rw [← same] at this
    exact this meet
  have fresh := laid.disjoint _ mn
  have blocks : F.erase (h.next a) ∪ L = (F ∪ L).erase (h.next a) := by
    ext c
    simp only [Finset.mem_union, Finset.mem_erase]
    constructor
    · rintro (⟨apart, mem⟩ | mem)
      · exact ⟨apart, .inl mem⟩
      · exact ⟨fun same => fresh (same ▸ mem), .inr mem⟩
    · rintro ⟨apart, mem | mem⟩
      · exact .inl ⟨apart, mem⟩
      · exact .inr mem
  unfold absorb
  rw [if_pos meet]
  refine ⟨?_, ?_, ?_, fun c mem => laid.disjoint c (Finset.mem_of_mem_erase mem), ?_, fun c mem => ?_, laid.pages, laid.big⟩
  · rw [blocks]
    exact Finset.mem_erase.mpr ⟨far.symm, laid.home⟩
  · change Function.update h.units a _ arena = 1
    rw [Function.update_of_ne other.symm]
    exact laid.unit
  · exact circle_erase laid.circle ma ne (Function.update_self ..) fun c _ apart => Function.update_of_ne apart ..
  · rw [blocks]
    refine laid.tiles.join (mem_free ma) (mem_free mn) meet ?_ fun c _ apart _ => ?_
    · unfold bytes
      dsimp only
      rw [Function.update_self, Nat.add_mul]
    · unfold bytes
      dsimp only
      rw [Function.update_of_ne apart]
  · rw [blocks] at mem
    exact laid.aligned c (Finset.mem_of_mem_erase mem)

theorem absorb_units (apart : c ≠ a) : (absorb a h).units c = h.units c := by
  unfold absorb
  split_ifs
  · exact Function.update_of_ne apart ..
  · rfl

theorem absorb_next (apart : c ≠ a) : (absorb a h).next c = h.next c := by
  unfold absorb
  split_ifs
  · exact Function.update_of_ne apart ..
  · rfl

/- A live block is put into the free list. -/
theorem link_laid (laid : Laid arena F L P h) (mb : b ∈ L) (mc : cur ∈ F) (place : Between cur b (h.next cur)) :
    Laid arena (insert b F) (L.erase b) P (link b cur h) := by
  have new : b ∉ F := fun mem => laid.disjoint b mem mb
  have ne : b ≠ cur := fun same => new (same ▸ mc)
  have blocks : insert b F ∪ L.erase b = F ∪ L := by
    ext c
    simp only [Finset.mem_union, Finset.mem_insert, Finset.mem_erase]
    constructor
    · rintro ((rfl | mem) | ⟨_, mem⟩)
      · exact .inr mb
      · exact .inl mem
      · exact .inr mem
    · rintro (mem | mem)
      · exact .inl (.inr mem)
      · by_cases here : c = b
        · exact .inl (.inl here)
        · exact .inr ⟨here, mem⟩
  refine ⟨?_, laid.unit, ?_, fun c mem live => ?_, ?_, fun c mem => ?_, laid.pages, laid.big⟩
  · rw [blocks]
    exact laid.home
  · refine circle_insert laid.circle mc new place (Function.update_self ..) ?_ fun c mem apart => ?_
    · change Function.update (Function.update h.next b (h.next cur)) cur b b = _
      rw [Function.update_of_ne ne, Function.update_self]
    · change Function.update (Function.update h.next b (h.next cur)) cur b c = _
      rw [Function.update_of_ne apart, Function.update_of_ne (show c ≠ b from fun same => new (same ▸ mem))]
  · obtain ⟨other, old⟩ := Finset.mem_erase.mp live
    rcases Finset.mem_insert.mp mem with same | mem
    · exact other same
    · exact laid.disjoint c mem old
  · rw [blocks]
    exact laid.tiles
  · rw [blocks] at mem
    exact laid.aligned c mem

theorem merge_after_eq (ne : n ≠ b) : mergeAfter b n h = absorb b (setNext b n h) := by
  have at_b : (setNext b n h).next b = n := Function.update_self ..
  have at_n : (setNext b n h).next n = h.next n := Function.update_of_ne ne ..
  unfold mergeAfter absorb
  rw [at_b, at_n]
  change _ = if b + h.units b * SLOB_UNIT = n then _ else _
  split_ifs with meet
  · change _ = ({ h with units := _, next := Function.update (Function.update h.next b n) b (h.next n) } : Heap)
    rw [Function.update_idem]
    rfl
  · rfl

theorem merge_before_eq (ne : b ≠ cur) : mergeBefore b cur h = absorb cur (setNext cur b h) := by
  have at_cur : (setNext cur b h).next cur = b := Function.update_self ..
  have at_b : (setNext cur b h).next b = h.next b := Function.update_of_ne ne ..
  unfold mergeBefore absorb
  rw [at_cur, at_b]
  change _ = if cur + h.units cur * SLOB_UNIT = b then _ else _
  split_ifs with meet
  · change _ = ({ h with units := _, next := Function.update (Function.update h.next cur b) cur (h.next b) } : Heap)
    rw [Function.update_idem]
    rfl
  · rfl

theorem absorb_set_next (ne : b ≠ cur) (apart : b + bytes h b = h.next b → h.next b ≠ cur) :
    setNext cur x (absorb b h) = absorb b (setNext cur x h) := by
  have at_b : (setNext cur x h).next b = h.next b := Function.update_of_ne ne ..
  unfold absorb
  rw [at_b]
  change _ = if b + bytes h b = h.next b then _ else _
  split_ifs with meet
  · have at_n : (setNext cur x h).next (h.next b) = h.next (h.next b) := Function.update_of_ne (apart meet) ..
    rw [at_n]
    unfold setNext
    dsimp only
    rw [Function.update_comm ne]
  · rfl

/- The code merges in one pass what the steps do one after the other. -/
theorem merge_eq (ne : b ≠ cur) (front : h.next cur ≠ b) (apart : b + bytes h b = h.next cur → h.next cur ≠ cur) :
    slobMerge b cur h = { absorb cur (absorb b (link b cur h)) with slobfree := cur } := by
  have at_b : (setNext b (h.next cur) h).next b = h.next cur := Function.update_self ..
  unfold slobMerge link
  rw [merge_after_eq front, merge_before_eq ne, absorb_set_next ne]
  rw [at_b]
  exact apart

/- The free blocks that are not excepted do not meet what follows them. -/
def Separate (F : Finset Nat) (h : Heap) (except : Nat → Prop) : Prop :=
  ∀ c ∈ F, ¬ except c → c + bytes h c ≠ h.next c

theorem absorb_step (except : Nat → Prop) (laid : Laid arena F L P h) (ma : a ∈ F)
    (apart : Separate F h fun c => c = a ∨ except c)
    (after : a + bytes h a = h.next a → h.next a + bytes h (h.next a) ≠ h.next (h.next a)) :
    ∃ F', Laid arena F' L P (absorb a h) ∧ a ∈ F' ∧ Separate F' (absorb a h) except ∧
      (∀ c ∈ F, (a + bytes h a = h.next a → c ≠ h.next a) → c ∈ F') ∧ h.units a ≤ (absorb a h).units a ∧
      (a + bytes h a = h.next a → h.units (h.next a) ≤ (absorb a h).units a) := by
  by_cases meet : a + bytes h a = h.next a
  · have positive := laid.positive (mem_free ma)
    have at_units : (absorb a h).units a = h.units a + h.units (h.next a) := by
      unfold absorb
      rw [if_pos meet]
      exact Function.update_self ..
    have at_next : (absorb a h).next a = h.next (h.next a) := by
      unfold absorb
      rw [if_pos meet]
      exact Function.update_self ..
    refine ⟨F.erase (h.next a), absorb_laid laid ma meet, Finset.mem_erase.mpr ⟨by omega, ma⟩, fun c mem clear => ?_,
      fun c mem other => Finset.mem_erase.mpr ⟨other meet, mem⟩, by omega, fun _ => by omega⟩
    by_cases here : c = a
    · subst here
      rw [at_next]
      have beyond := after meet
      unfold bytes at meet beyond ⊢
      rw [at_units, Nat.add_mul, ← Nat.add_assoc, meet]
      exact beyond
    · rw [absorb_next here]
      unfold bytes
      rw [absorb_units here]
      exact apart c (Finset.mem_of_mem_erase mem) fun either => either.elim here clear
  · have same : absorb a h = h := if_neg meet
    rw [same]
    refine ⟨F, laid, ma, fun c mem clear => ?_, fun c mem _ => mem, Nat.le_refl _, fun no => absurd no meet⟩
    by_cases here : c = a
    · rw [here]
      exact meet
    · exact apart c mem fun either => either.elim here clear

/- A block that is followed by itself is the only one. -/
theorem Sound.alone (sound : Sound arena F L P h) (mc : cur ∈ F) (self : h.next cur = cur) : cur = h.slobfree := by
  rcases sound.circle.follows cur mc with ⟨less, _⟩ | ⟨_, ends⟩
  · omega
  · have := ends _ sound.start
    omega

/- A live block is given back behind the free block `cur`. -/
theorem merge_sound (sound : Sound arena F L P h) (mb : b ∈ L) (clear : ¬ MeetsOnly h b (bytes h b)) (mc : cur ∈ F)
    (place : Between cur b (h.next cur)) :
    ∃ F', Sound arena F' (L.erase b) P (slobMerge b cur h) ∧
      (∀ a ∈ L.erase b, (slobMerge b cur h).units a = h.units a) ∧ ∃ a ∈ F', h.units b ≤ (slobMerge b cur h).units a := by
  have new : b ∉ F := fun mem => sound.disjoint b mem mb
  have ne : b ≠ cur := fun same => new (same ▸ mc)
  have mn := sound.circle.mem cur mc
  have front : h.next cur ≠ b := fun same => new (same ▸ mn)
  have away : b + bytes h b = h.next cur → h.next cur ≠ cur := by
    intro meet same
    have only := sound.alone mc same
    exact clear ⟨only ▸ same, meet.trans (same.trans only)⟩
  have linked := link_laid sound.toLaid mb mc place
  have at_b : (link b cur h).next b = h.next cur := by
    change Function.update (Function.update h.next b (h.next cur)) cur b b = _
    rw [Function.update_of_ne ne, Function.update_self]
  have at_cur : (link b cur h).next cur = b := Function.update_self ..
  have elsewhere : ∀ c, c ≠ b → c ≠ cur → (link b cur h).next c = h.next c := by
    intro c other other'
    change Function.update (Function.update h.next b (h.next cur)) cur b c = _
    rw [Function.update_of_ne other', Function.update_of_ne other]
  have first : Separate (insert b F) (link b cur h) fun c => c = b ∨ c = cur := by
    intro c mem clear
    obtain ⟨other, other'⟩ := not_or.mp clear
    have old := Finset.mem_of_mem_insert_of_ne mem other
    rw [elsewhere c other other']
    exact sound.merged c old _ (sound.circle.mem c old)
  obtain ⟨F₁, laid₁, mb₁, apart₁, kept₁, more₁, _⟩ := absorb_step (fun c => c = cur) linked (Finset.mem_insert_self b F) first (by
    rw [at_b]
    intro meet
    rw [elsewhere _ front (away meet)]
    exact sound.merged _ mn _ (sound.circle.mem _ mn))
  have mc₁ : cur ∈ F₁ := kept₁ cur (Finset.mem_insert_of_mem mc) (by
    rw [at_b]
    exact fun meet => (away meet).symm)
  have at_cur₁ : (absorb b (link b cur h)).next cur = b := (absorb_next ne.symm).trans at_cur
  obtain ⟨F₂, laid₂, mc₂, apart₂, kept₂, _, more₂⟩ := absorb_step (fun _ => False) laid₁ mc₁
    (fun c mem clear => apart₁ c mem fun here => clear (.inl here))
    (fun _ => by
      rw [at_cur₁]
      exact apart₁ b mb₁ ne)
  rw [at_cur₁] at kept₂ more₂
  rw [merge_eq ne front away]
  refine ⟨F₂, ⟨laid₂.congr (fun _ _ => rfl) (fun _ _ => rfl) rfl, mc₂, fun a ma c mem meet => ?_⟩, fun a mem => ?_, ?_⟩
  · exact apart₂ a ma id (meet.trans (laid₂.adjacent_next ma mem meet).symm)
  · obtain ⟨other, old⟩ := Finset.mem_erase.mp mem
    have other' : a ≠ cur := fun same => sound.disjoint cur mc (same ▸ old)
    change (absorb cur (absorb b (link b cur h))).units a = h.units a
    rw [absorb_units other', absorb_units other]
    rfl
  · by_cases meet : cur + bytes (absorb b (link b cur h)) cur = b
    · exact ⟨cur, mc₂, Nat.le_trans more₁ (more₂ meet)⟩
    · refine ⟨b, kept₂ b mb₁ fun here => absurd here meet, ?_⟩
      change h.units b ≤ (absorb cur (absorb b (link b cur h))).units b
      rw [absorb_units ne]
      exact more₁

/- The search for the place of `b` ends, from wherever it starts. -/
theorem find_run (circle : Circle F h.next) (mp : p ∈ F) (place : Between p b (h.next p)) (fuel : Nat) (cur : Nat)
    (mc : cur ∈ F) (enough : distance F cur p < fuel) :
    ∃ c ∈ F, slobFind b h fuel cur = some c ∧ Between c b (h.next c) := by
  induction fuel generalizing cur with
  | zero => exact absurd enough (Nat.not_lt_zero _)
  | succ fuel ih =>
    unfold slobFind
    split_ifs with test
    · exact ⟨cur, mc, rfl, test⟩
    · have ne : cur ≠ p := fun same => test (same ▸ place)
      have less := closer circle mc mp ne
      exact ih (h.next cur) (circle.mem cur mc) (by omega)

theorem Laid.nonzero (laid : Laid arena F L P h) (placed : a = arena → arena ≠ 0) (ma : a ∈ F ∪ L) : a ≠ 0 := by
  rintro rfl
  rcases laid.tiles.start_in ma with ⟨low, _⟩ | ⟨p, mp, low, _⟩
  · obtain rfl : arena = 0 := by omega
    exact placed rfl rfl
  · have := (laid.pages p mp).2.1
    omega

/- `slob_free` of a live block. -/
theorem free_run (sound : Sound arena F L P h) (placed : arena ∈ L → arena ≠ 0) (mb : b ∈ L)
    (clear : ¬ MeetsOnly h b (bytes h b)) (enough : F.card < fuel) :
    ∃ t F', slobFree fuel b 0 h = some t ∧ Sound arena F' (L.erase b) P t ∧ (∀ a ∈ L.erase b, t.units a = h.units a) ∧
      ∃ a ∈ F', h.units b ≤ t.units a := by
  have new : b ∉ F := fun mem => sound.disjoint b mem mb
  obtain ⟨p, mp, place⟩ := place_exists sound.circle ⟨_, sound.start⟩ new
  obtain ⟨cur, mc, found, here⟩ := find_run sound.circle mp place fuel h.slobfree sound.start
    (Nat.lt_of_le_of_lt (distance_le ..) enough)
  obtain ⟨F', sound', kept, more⟩ := merge_sound sound mb clear mc here
  refine ⟨slobMerge b cur h, F', ?_, sound', kept, more⟩
  unfold slobFree
  rw [if_neg (sound.nonzero (fun same => placed (same ▸ mb)) (mem_live mb))]
  dsimp only
  rw [if_neg (by decide), found]
  rfl

theorem Laid.page_outside (laid : Laid arena F L P h) (page : Page arena p) (fresh : p ∉ P) (low : p ≤ x)
    (high : x < p + PAGE_SIZE) : ¬ Area arena P x := by
  intro inside
  obtain ⟨⟨k, at_p⟩, _, clear⟩ := page
  rcases inside with ⟨low', high'⟩ | ⟨q, mq, low', high'⟩
  · omega
  · obtain ⟨⟨m, at_q⟩, _⟩ := laid.pages q mq
    have ne : p ≠ q := fun same => fresh (same ▸ mq)
    unfold PAGE_SIZE at *
    omega

theorem Laid.page_new (laid : Laid arena F L P h) (page : Page arena p) (fresh : p ∉ P) : p ∉ F ∪ L := fun mem =>
  laid.page_outside page fresh (Nat.le_refl p) (by unfold PAGE_SIZE; omega) (laid.tiles.start_in mem)

theorem page_bytes (h : Heap) (p : Nat) :
    bytes { h with units := Function.update h.units p (slobUnits PAGE_SIZE) } p = PAGE_SIZE := by
  unfold bytes
  dsimp only
  rw [Function.update_self]
  rfl

/- A new page is like a live block that is given back. -/
theorem page_sound (sound : Sound arena F L P h) (page : Page arena p) (fresh : p ∉ P) :
    Sound arena F (insert p L) (insert p P) { h with units := Function.update h.units p (slobUnits PAGE_SIZE) } := by
  have size := page_bytes h p
  have new := sound.page_new page fresh
  have others : ∀ c ∈ F ∪ L, Function.update h.units p (slobUnits PAGE_SIZE) c = h.units c := fun c mem =>
    Function.update_of_ne (show c ≠ p from fun same => new (same ▸ mem)) ..
  have blocks : F ∪ insert p L = insert p (F ∪ L) := Finset.union_insert p F L
  refine ⟨⟨?_, ?_, sound.circle, fun c mem live => ?_, ?_, fun c mem far => ?_, fun q mem => ?_, sound.big⟩,
    sound.start, fun a ma c mc => ?_⟩
  · rw [blocks]
    exact Finset.mem_insert_of_mem sound.home
  · exact (others arena sound.home).trans sound.unit
  · rcases Finset.mem_insert.mp live with rfl | old
    · exact new (mem_free mem)
    · exact sound.disjoint c mem old
  · rw [blocks]
    refine sound.tiles.extend ?_ ?_ (fun c mem => ?_) fun x => ?_
    · rw [size]
      decide
    · rw [size]
      exact fun x => sound.page_outside page fresh
    · unfold bytes
      dsimp only
      rw [others c mem]
    · rw [size]
      unfold Area
      simp only [Finset.mem_insert, exists_eq_or_imp]
      rw [or_assoc]
      exact or_congr_right or_comm
  · rw [blocks] at mem
    rcases Finset.mem_insert.mp mem with rfl | old
    · exact Dvd.dvd.trans (by decide) page.1
    · exact sound.aligned c old far
  · rcases Finset.mem_insert.mp mem with rfl | old
    · exact page
    · exact sound.pages q old
  · unfold bytes
    dsimp only
    rw [others a (mem_free ma)]
    exact sound.merged a ma c mc

/- The block behind `prev` is taken, all of it or its front. -/
theorem take_sound (sound : Sound arena F L P h) (mp : prev ∈ F) (room : units ≤ h.units (h.next prev)) (ne : h.next prev ≠ prev)
    (some_units : 0 < units) :
    ∃ t F', takeBlock units 0 prev (h.next prev) h = (h.next prev, t) ∧ Sound arena F' (insert (h.next prev) L) P t ∧
      h.next prev ∉ L ∧ t.units (h.next prev) = units ∧ ∀ a ∈ L, t.units a = h.units a := by
  have mc := sound.circle.mem prev mp
  have mn := sound.circle.mem _ mc
  have free := sound.disjoint _ mc
  have live_other : ∀ a ∈ L, a ≠ h.next prev := fun a mem same => free (same ▸ mem)
  have positive := sound.positive (mem_free mc)
  by_cases exact_fit : h.units (h.next prev) = units
  · refine ⟨{ h with next := Function.update h.next prev (h.next (h.next prev)), slobfree := prev }, F.erase (h.next prev), ?_,
      ⟨⟨?_, sound.unit, ?_, fun c mem live => ?_, ?_, fun c mem => ?_, sound.pages, sound.big⟩,
      Finset.mem_erase.mpr ⟨ne.symm, mp⟩, fun a ma c mem => ?_⟩, free, exact_fit, fun _ _ => rfl⟩
    · unfold takeBlock
      dsimp only
      rw [if_pos rfl]
      dsimp only
      rw [if_pos exact_fit]
    · rw [Finset.union_insert, ← Finset.insert_union, Finset.insert_erase mc]
      exact sound.home
    · exact circle_erase sound.circle mp ne (Function.update_self ..) fun c _ apart => Function.update_of_ne apart ..
    · obtain ⟨other, old⟩ := Finset.mem_erase.mp mem
      rcases Finset.mem_insert.mp live with same | mem
      · exact other same
      · exact sound.disjoint c old mem
    · rw [Finset.union_insert, ← Finset.insert_union, Finset.insert_erase mc]
      exact sound.tiles
    · rw [Finset.union_insert, ← Finset.insert_union, Finset.insert_erase mc] at mem
      exact sound.aligned c mem
    · exact sound.merged a (Finset.mem_of_mem_erase ma) c (Finset.mem_of_mem_erase mem)
  · obtain ⟨cur, is⟩ : ∃ cur, cur = h.next prev := ⟨_, rfl⟩
    have far : h.next prev ≠ arena := sound.far (by omega : 2 ≤ units + 1) (by omega)
    rw [← is] at mc mn free far ne positive room exact_fit live_other ⊢
    obtain ⟨rest, at_rest⟩ : ∃ rest, rest = cur + units * SLOB_UNIT := ⟨_, rfl⟩
    have less : units * SLOB_UNIT < bytes h cur := by
      unfold bytes SLOB_UNIT
      omega
    have some_bytes : 0 < units * SLOB_UNIT := by
      unfold SLOB_UNIT
      omega
    have new : ∀ c ∈ F ∪ L, c ≠ rest := by
      intro c mem same
      have := sound.tiles.start (mem_free mc) mem (by omega) (by omega)
      omega
    have other : prev ≠ rest := new prev (mem_free mp)
    let g : Heap := { h with
      units := Function.update (Function.update h.units rest (h.units cur - units)) cur units
      next := Function.update (Function.update h.next prev rest) rest (h.next cur)
      slobfree := prev }
    have taken : takeBlock units 0 prev cur h = (cur, g) := by
      have later : Function.update h.next prev rest cur = h.next cur := Function.update_of_ne ne ..
      unfold takeBlock
      dsimp only
      rw [if_pos rfl]
      dsimp only
      rw [if_neg exact_fit, ← at_rest, later]
    have units_cur : g.units cur = units := Function.update_self ..
    have units_rest : g.units rest = h.units cur - units := by
      change Function.update (Function.update h.units rest (h.units cur - units)) cur units rest = _
      rw [Function.update_of_ne (new cur (mem_free mc)).symm, Function.update_self]
    have units_other : ∀ c ∈ F ∪ L, c ≠ cur → g.units c = h.units c := by
      intro c mem apart
      change Function.update (Function.update h.units rest (h.units cur - units)) cur units c = _
      rw [Function.update_of_ne apart, Function.update_of_ne (new c mem)]
    have blocks : insert rest (F.erase cur) ∪ insert cur L = insert rest (F ∪ L) := by
      rw [Finset.insert_union, Finset.union_insert, ← Finset.insert_union, Finset.insert_erase mc]
    have split : Tiles (insert rest (F ∪ L)) (bytes g) (Area arena P) := by
      rw [at_rest]
      refine sound.tiles.split (mem_free mc) some_bytes less ?_ ?_ fun c mem apart => ?_
      · unfold bytes
        rw [units_cur]
      · unfold bytes
        rw [← at_rest, units_rest, Nat.sub_mul]
      · unfold bytes
        rw [units_other c mem apart]
    have erased : Circle (F.erase cur) (Function.update h.next prev (h.next cur)) := by
      rw [is]
      exact circle_erase sound.circle mp (is ▸ ne) (Function.update_self ..) fun c _ apart => Function.update_of_ne apart ..
    have place : Between prev rest (Function.update h.next prev (h.next cur) prev) := by
      rw [Function.update_self]
      have after : cur < h.next cur → rest < h.next cur := by
        intro before
        have := sound.tiles.apart cur (mem_free mc) _ (mem_free mn) before
        omega
      rcases sound.circle.follows cur mc with ⟨before, _⟩ | ⟨back, ends⟩
      · have high := after before
        rcases sound.circle.follows prev mp with ⟨low, _⟩ | ⟨_, ends'⟩
        · exact .inl ⟨by omega, high⟩
        · exact .inr ⟨(ends' _ mn).2, .inr high⟩
      · have low := ends prev mp
        exact .inr ⟨low.1, .inl (by omega)⟩
    refine ⟨g, insert rest (F.erase cur), taken, ⟨⟨?_, ?_, ?_, fun c mem live => ?_, ?_, fun c mem apart => ?_, sound.pages,
      sound.big⟩, ?_, fun a ma c mem => ?_⟩, free, units_cur, fun a mem => units_other a (mem_live mem) (live_other a mem)⟩
    · rw [blocks]
      exact Finset.mem_insert_of_mem sound.home
    · rw [units_other arena sound.home far.symm]
      exact sound.unit
    · refine circle_insert erased (Finset.mem_erase.mpr ⟨ne.symm, mp⟩) (fun mem => new rest (mem_free
        (Finset.mem_of_mem_erase mem)) rfl) place ?_ ?_ fun c mem apart => ?_
      · change Function.update (Function.update h.next prev rest) rest (h.next cur) prev = rest
        rw [Function.update_of_ne other, Function.update_self]
      · rw [Function.update_self]
        exact Function.update_self ..
      · change Function.update (Function.update h.next prev rest) rest (h.next cur) c = _
        rw [Function.update_of_ne (new c (mem_free (Finset.mem_of_mem_erase mem))), Function.update_of_ne apart,
          Function.update_of_ne apart]
    · rcases Finset.mem_insert.mp mem with rfl | mem
      · rcases Finset.mem_insert.mp live with same | mem
        · exact new cur (mem_free mc) same.symm
        · exact new c (mem_live mem) rfl
      · obtain ⟨apart, old⟩ := Finset.mem_erase.mp mem
        rcases Finset.mem_insert.mp live with same | mem
        · exact apart same
        · exact sound.disjoint c old mem
    · rw [blocks]
      exact split
    · rw [blocks] at mem
      rcases Finset.mem_insert.mp mem with rfl | old
      · rw [at_rest]
        exact Dvd.dvd.add (sound.aligned cur (mem_free mc) far) (Dvd.intro_left units rfl)
      · exact sound.aligned c old apart
    · exact Finset.mem_insert_of_mem (Finset.mem_erase.mpr ⟨ne.symm, mp⟩)
    · have old_end : ∀ {d}, d ∈ F.erase cur → bytes g d = bytes h d := fun md => by
        unfold bytes
        rw [units_other _ (mem_free (Finset.mem_of_mem_erase md)) (Finset.ne_of_mem_erase md)]
      rcases Finset.mem_insert.mp ma with rfl | old
      · have same_end : a + bytes g a = cur + bytes h cur := by
          unfold bytes at less ⊢
          rw [units_rest, Nat.sub_mul]
          omega
        rw [same_end]
        rcases Finset.mem_insert.mp mem with rfl | old'
        · omega
        · exact sound.merged cur mc c (Finset.mem_of_mem_erase old')
      · rw [old_end old]
        rcases Finset.mem_insert.mp mem with rfl | old'
        · intro meet
          have ma' := mem_free (L := L) (Finset.mem_of_mem_erase old)
          have apart := Finset.ne_of_mem_erase old
          by_cases before : a < cur
          · have := sound.tiles.apart a ma' cur (mem_free mc) before
            omega
          · have := sound.tiles.apart cur (mem_free mc) a ma' (by omega)
            omega
        · exact sound.merged a (Finset.mem_of_mem_erase old) c (Finset.mem_of_mem_erase old')

end Ucore.Slob
