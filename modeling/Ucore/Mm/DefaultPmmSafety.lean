import Ucore.Mm.DefaultPmmSteps
import Ucore.Mm.PmmManager

/- Runs of the first-fit allocator. -/
namespace Ucore.DefaultPmm
open CircularList Blocks Words Transitions

def defaultPmmManager (fuel : Nat) : PmmManager State :=
  { allocPages := defaultAllocPages fuel, freePages := defaultFreePages fuel }

def boot (fuel : Nat) (s : State) (base size : Nat) : Option (World State) :=
  (defaultInitMemmap fuel (defaultInit s) base size).map fun s => ⟨s, []⟩

/- What the allocator owes its callers: the live blocks are nonempty, inside the
   region and pairwise disjoint, the counter is right, and no block that the free list
   leads to overlaps one that was handed out. -/
structure Safe (lo size : Nat) (w : World State) : Prop where
  ledger : Ledger lo (lo + size) w.live
  counted : w.state.nrFree + total w.live = size
  unlisted : ∀ k i, w.state.links.next^[k] freeList = .link i →
    ∀ b ∈ w.live, (freeBlock w.state i).Apart b

/- The list surgery starts from an entry that is not linked back to itself: the block
   that is taken, or the one before which a freed block is inserted. -/
def Straight (lo size : Nat) (s : State) : Call → Prop
  | .alloc n => ∀ i < lo + size, FirstFit lo s n i → s.links.prev (.link i) ≠ .link i
  | .free b => ∀ i < lo + size, NextFree s b.base i → s.links.prev (.link i) ≠ .link i

instance (lo : Nat) (s : State) (n i : Nat) : Decidable (FirstFit lo s n i) :=
  inferInstanceAs (Decidable (_ ∧ _ ∧ _ ∧ ∀ j < i, _ → _ → _))

instance (s : State) (base i : Nat) : Decidable (NextFree s base i) :=
  inferInstanceAs (Decidable (_ ∧ _ ∧ ∀ j < i, _ → _))

instance (lo size : Nat) (s : State) : (c : Call) → Decidable (Straight lo size s c)
  | .alloc n => inferInstanceAs (Decidable (∀ i < lo + size, FirstFit lo s n i → _))
  | .free b => inferInstanceAs (Decidable (∀ i < lo + size, NextFree s b.base i → _))

def WorldInv (lo size : Nat) (w : World State) : Prop := ∃ xs, FreeInv lo size w.state xs w.live

theorem world_inv_safe {lo size : Nat} {w : World State} (inv : WorldInv lo size w) : Safe lo size w := by
  obtain ⟨xs, inv⟩ := inv
  refine ⟨ledger_append_right inv.ledger, ?_, ?_⟩
  · have := inv.shared
    rwa [total_append, ← inv.counted] at this
  · intro k i reached b live
    have mem := ring_reach_mem inv.ring k
    rw [reached] at mem
    have mem : i ∈ xs := by simpa [freeList] using mem
    exact inv_live_apart inv mem live

/- What `default_init_memmap` leaves of an initialized manager: one free block. -/
def bootState (s : State) (base size : Nat) : State :=
  ⟨((initializedPages s.pages base size).setProperty base size).setPageProperty base,
    listAdd (defaultInit s).links freeList (.link base), size⟩

theorem boot_run {s : State} {base size fuel : Nat} (positive : 0 < size) (fits : size < wordSize)
    (reserved : ∀ i, base ≤ i → i < base + size → (s.pages i).reserved = true) :
    boot fuel s base size = some ⟨bootState s base size, []⟩ := by
  have cleared : initPages (defaultInit s).pages base size =
      some (initializedPages s.pages base size) := init_pages_run reserved
  have nonzero : size ≠ 0 := by omega
  have length : u32 (size : Int) = size := u32_of_nat fits
  have empty : listEmpty (defaultInit s).links freeList = true :=
    (list_empty_iff (list_init_ring s.links (· ≠ freeList) freeList)).mpr rfl
  simp only [boot, defaultInitMemmap, nonzero, ↓reduceIte, cleared, insertPage, setPageProperty,
    setProperty, State.withPages, Option.bind_eq_bind, Option.bind_some, empty, Option.map_some, bootState]
  simp [defaultInit, length]

theorem boot_ring (s : State) (base size : Nat) (slack : Entry → Prop) :
    IsRing (bootState s base size).links slack freeList ([base].map Entry.link) := by
  have started : IsRing (defaultInit s).links slack freeList ([] ++ []) := list_init_ring s.links slack freeList
  have fresh : Entry.link base ∉ [freeList] := by simp [freeList]
  exact list_add_ring started (a := freeList) rfl fresh

theorem boot_free_inv {s : State} {base size : Nat} (positive : 0 < size) (fits : size < wordSize) :
    FreeInv base size (bootState s base size) [base] [] := by
  have length : u32 (size : Int) = size := u32_of_nat fits
  have first : ((bootState s base size).pages base).property = size := by
    simp [bootState, Pages.setPageProperty, Pages.setProperty, Pages.edit, length]
  refine ⟨boot_ring s base size _, by simp, ?_, ?_, ?_, ?_⟩
  · simp only [freeBlock, List.map_cons, List.map_nil, List.append_nil, first]
    exact ledger_cons.mpr ⟨positive, by simp [Block.Within], by simp, ledger_nil _ _⟩
  · simp [freeBlock, first]
  · simp [freeBlock, first]
    rfl
  · intro i lower upper
    by_cases here : i = base
    · subst i
      simp [bootState, Pages.setPageProperty, Pages.setProperty, Pages.edit, initializedPages, positive]
    · simp [bootState, Pages.setPageProperty, Pages.setProperty, Pages.edit, initializedPages, here,
        lower, upper]

theorem boot_inv {s : State} {base size fuel : Nat} (positive : 0 < size) (fits : size < wordSize)
    (reserved : ∀ i, base ≤ i → i < base + size → (s.pages i).reserved = true) :
    ∃ w, boot fuel s base size = some w ∧ WorldInv base size w :=
  ⟨_, boot_run positive fits reserved, [base], boot_free_inv positive fits⟩

theorem serve_inv {lo size fuel : Nat} {w : World State} {c : Call} (inv : WorldInv lo size w)
    (permitted : Permitted w c) (straight : Straight lo size w.state c) (fits : size < wordSize)
    (enough : size + 2 < fuel) : ∃ w', (defaultPmmManager fuel).serve w c = some w' ∧ WorldInv lo size w' := by
  obtain ⟨xs, inv⟩ := inv
  cases c with
  | alloc n =>
    rcases alloc_run inv permitted straight fits enough with
      ⟨s', run, ys, inv'⟩ | ⟨page, s', run, ys, inv'⟩
    · exact ⟨⟨s', w.live⟩, by simp [PmmManager.serve, defaultPmmManager, run], ys, inv'⟩
    · exact ⟨⟨s', ⟨page, n⟩ :: w.live⟩, by simp [PmmManager.serve, defaultPmmManager, run], ys, inv'⟩
  | free b =>
    have held : w.live.Perm (b :: w.live.erase b) := List.perm_cons_erase permitted
    have inv : FreeInv lo size w.state xs (b :: w.live.erase b) :=
      { inv with
        ledger := ledger_perm (held.append_left _) inv.ledger
        shared := (total_perm (held.append_left _)).symm.trans inv.shared }
    obtain ⟨s', run, ys, inv'⟩ := free_run inv straight fits enough
    exact ⟨⟨s', w.live.erase b⟩, by simp [PmmManager.serve, defaultPmmManager, run], ys, inv'⟩

theorem straight_runs_are_safe {s : State} {base size fuel : Nat} (positive : 0 < size)
    (fits : size < wordSize) (enough : size + 2 < fuel)
    (reserved : ∀ i, base ≤ i → i < base + size → (s.pages i).reserved = true) :
    ∃ start, boot fuel s base size = some start ∧ ∀ calls w,
      Run (fun w c w' => Straight base size w.state c ∧ (defaultPmmManager fuel).request w c = some w') start calls w →
      Safe base size w ∧ ∀ c, Permitted w c → Straight base size w.state c →
        ((defaultPmmManager fuel).request w c).isSome := by
  obtain ⟨start, booted, inv⟩ := @boot_inv s base size fuel positive fits reserved
  refine ⟨start, booted, ?_⟩
  intro calls w run
  have kept := runs_keep (fun w c inv permitted straight =>
    serve_inv inv permitted straight fits enough) inv run
  exact ⟨world_inv_safe kept.1, kept.2⟩

def reservedPages : State := ⟨fun _ => ⟨0, true, 0, false⟩, ⟨id, id⟩, 0⟩

/- Six pages, blocks of two lengths, freed out of order with both merges taken. -/
theorem straight_run_on_six_pages : ∃ start w, boot 20 reservedPages 0 6 = some start ∧
    Run (fun w c w' => Straight 0 6 w.state c ∧ (defaultPmmManager 20).request w c = some w') start
      [.alloc 1, .alloc 2, .alloc 1, .free ⟨1, 2⟩, .free ⟨0, 1⟩, .free ⟨3, 1⟩, .alloc 4] w ∧
    w.live = [⟨0, 4⟩] ∧ Safe 0 6 w := by
  have answer : ((boot 20 reservedPages 0 6).bind fun start => replay
      ((defaultPmmManager 20).requestWhen fun w c => Straight 0 6 w.state c) start
      [.alloc 1, .alloc 2, .alloc 1, .free ⟨1, 2⟩, .free ⟨0, 1⟩, .free ⟨3, 1⟩, .alloc 4]).map
        World.live = some [⟨0, 4⟩] := by decide +kernel
  obtain ⟨w, ran, live⟩ := Option.map_eq_some_iff.mp answer
  obtain ⟨start, booted, ran⟩ := Option.bind_eq_some_iff.mp ran
  have run := request_when_run ran
  obtain ⟨start', booted', safe⟩ := @straight_runs_are_safe reservedPages 0 6 20
    (by decide) (by decide) (by decide) (fun i _ _ => rfl)
  obtain rfl : start = start' := by simpa [booted] using booted'
  exact ⟨start, w, booted, run, live, (safe _ w run).1⟩

/- Six pages: the last block freed is linked back to itself, and the next request that
   it fits is answered with it without taking it off the list. -/
theorem block_handed_out_twice : ∃ start w, boot 20 reservedPages 0 6 = some start ∧
    Run (fun w c w' => (defaultPmmManager 20).request w c = some w') start
      [.alloc 1, .alloc 1, .alloc 1, .alloc 1, .alloc 2, .free ⟨0, 1⟩, .free ⟨2, 1⟩, .free ⟨4, 2⟩,
        .alloc 2, .alloc 2] w ∧
    ¬ w.live.Pairwise Block.Apart := by
  have answer : ((boot 20 reservedPages 0 6).bind fun start => replay ((defaultPmmManager 20).request) start
      [.alloc 1, .alloc 1, .alloc 1, .alloc 1, .alloc 2, .free ⟨0, 1⟩, .free ⟨2, 1⟩, .free ⟨4, 2⟩,
        .alloc 2, .alloc 2]).map World.live =
      some [⟨4, 2⟩, ⟨4, 2⟩, ⟨3, 1⟩, ⟨1, 1⟩] := by decide +kernel
  obtain ⟨w, ran, live⟩ := Option.map_eq_some_iff.mp answer
  obtain ⟨start, booted, ran⟩ := Option.bind_eq_some_iff.mp ran
  refine ⟨start, w, booted, replay_run ran, ?_⟩
  rw [live]
  decide

end Ucore.DefaultPmm
