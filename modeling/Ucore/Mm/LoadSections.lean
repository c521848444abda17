import Ucore.Mm.LoadBytes

/- What `load_icode` builds: every byte of a section is that of the file or zero. -/
namespace Ucore.CowFork
open Programs Transitions

/-- The VMAs are in order, and every page that is mapped is in one of them. -/
structure Held (s : CowState) (mm : Nat) : Prop where
  sorted : (s.vmas mm).Pairwise fun low high => low.vmEnd ≤ high.vmStart
  proper : ∀ vma ∈ s.vmas mm, vma.vmStart < vma.vmEnd
  held : ∀ i, (s.pte mm i).v = true → ∃ vma ∈ s.vmas mm, vma.vmStart ≤ i ∧ i < vma.vmEnd

section
variable {s u v : CowState} {mm la page off size : Nat} {perm : Perm} {content : Nat → Option Nat} {vma : Vma}

theorem overlap_ran {α : Type} {prev next : Vma} {f : Unit → CowM α} {a : α}
    (ran : (checkVmaOverlap prev next >>= f) u = .ok (a, v)) : prev.vmEnd ≤ next.vmStart ∧ f () u = .ok (a, v) := by
  unfold checkVmaOverlap at ran
  rw [bind_assoc] at ran
  obtain ⟨_, ran⟩ := check_ran ran
  rw [bind_assoc] at ran
  obtain ⟨before, ran⟩ := check_ran ran
  obtain ⟨_, ran⟩ := check_ran ran
  exact ⟨before, ran⟩

theorem second_overlap_ran {before after : List Vma} (ran : (match after.head? with
      | some old => checkVmaOverlap vma old >>= fun _ => modify fun s : CowState =>
          { s with vmas := Function.update s.vmas mm (before ++ vma :: after) }
      | none => modify fun s : CowState =>
          { s with vmas := Function.update s.vmas mm (before ++ vma :: after) } : CowM PUnit) u = .ok ((), v)) :
    (∀ old, after.head? = some old → vma.vmEnd ≤ old.vmStart) ∧
      v = { u with vmas := Function.update u.vmas mm (before ++ vma :: after) } := by
  cases head : after.head? with
  | none =>
    rw [head] at ran
    cases ran
    exact ⟨fun _ none_there => (by cases none_there), rfl⟩
  | some next =>
    rw [head] at ran
    obtain ⟨apart, ran⟩ := overlap_ran ran
    cases ran
    refine ⟨?_, rfl⟩
    rintro _ ⟨⟩
    exact apart

theorem insert_vma_ran (ran : insertVmaStruct mm vma u = .ok ((), v)) : ∃ before after, u.vmas mm = before ++ after ∧
    v = { u with vmas := Function.update u.vmas mm (before ++ vma :: after) } ∧ vma.vmStart < vma.vmEnd ∧
    (∀ old, before.getLast? = some old → old.vmEnd ≤ vma.vmStart) ∧
    ∀ old, after.head? = some old → vma.vmEnd ≤ old.vmStart := by
  unfold insertVmaStruct at ran
  obtain ⟨proper, ran⟩ := check_ran ran
  rw [run_get_bind] at ran
  dsimp only at ran
  refine ⟨_, _, (List.takeWhile_append_dropWhile (p := fun old : Vma => old.vmStart ≤ vma.vmStart)).symm, ?_⟩
  generalize (u.vmas mm).takeWhile (fun old : Vma => old.vmStart ≤ vma.vmStart) = before at *
  generalize (u.vmas mm).dropWhile (fun old : Vma => old.vmStart ≤ vma.vmStart) = after at *
  suffices whole : (∀ old, before.getLast? = some old → old.vmEnd ≤ vma.vmStart) ∧
      (∀ old, after.head? = some old → vma.vmEnd ≤ old.vmStart) ∧
      v = { u with vmas := Function.update u.vmas mm (before ++ vma :: after) } from
    ⟨whole.2.2, proper, whole.1, whole.2.1⟩
  cases last : before.getLast? with
  | none =>
    rw [last] at ran
    exact ⟨fun _ none_there => (by cases none_there), second_overlap_ran ran⟩
  | some prev =>
    rw [last] at ran
    obtain ⟨apart, ran⟩ := overlap_ran ran
    refine ⟨?_, second_overlap_ran ran⟩
    rintro _ ⟨⟩
    exact apart

/- A VMA that has been inserted is apart from the others. -/
theorem insert_vma_apart (held : Held u mm) (ran : insertVmaStruct mm vma u = .ok ((), v)) :
    ∃ list, v = { u with vmas := Function.update u.vmas mm list } ∧ vma ∈ list ∧ (∀ x ∈ u.vmas mm, x ∈ list) ∧
      list.Pairwise (fun low high => low.vmEnd ≤ high.vmStart) ∧ (∀ x ∈ list, x.vmStart < x.vmEnd) ∧
      ∀ old ∈ u.vmas mm, old.vmEnd ≤ vma.vmStart ∨ vma.vmEnd ≤ old.vmStart := by
  obtain ⟨before, after, parts, rfl, proper, last, next⟩ := insert_vma_ran ran
  have sorted := held.sorted
  have allProper := held.proper
  rw [parts] at sorted allProper ⊢
  obtain ⟨sortedBefore, sortedAfter, across⟩ := List.pairwise_append.mp sorted
  have below : ∀ old ∈ before, old.vmEnd ≤ vma.vmStart := by
    intro old mem
    cases whole : before.getLast? with
    | none =>
      rw [List.getLast?_eq_none_iff.mp whole] at mem
      cases mem
    | some prev =>
      obtain ⟨earlier, rfl⟩ := List.getLast?_eq_some_iff.mp whole
      have touching := last prev whole
      rcases List.mem_append.mp mem with far | near
      · have apart := (List.pairwise_append.mp sortedBefore).2.2 old far prev (.head _)
        have some_pages := allProper prev (List.mem_append_left _ (List.mem_append_right _ (.head _)))
        omega
      · rwa [List.mem_singleton.mp near]
  have above : ∀ old ∈ after, vma.vmEnd ≤ old.vmStart := by
    intro old mem
    cases after with
    | nil => cases mem
    | cons first rest =>
      have touching := next first rfl
      rcases List.mem_cons.mp mem with rfl | later
      · exact touching
      · have apart := (List.pairwise_cons.mp sortedAfter).1 old later
        have some_pages := allProper first (List.mem_append_right _ (.head _))
        omega
  refine ⟨before ++ vma :: after, rfl, List.mem_append_right _ (.head _), ?_, ?_, ?_, ?_⟩
  · intro x mem
    rcases List.mem_append.mp mem with left | right
    · exact List.mem_append_left _ left
    · exact List.mem_append_right _ (.tail _ right)
  · refine List.pairwise_append.mpr ⟨sortedBefore, List.pairwise_cons.mpr ⟨above, sortedAfter⟩, ?_⟩
    intro low mem high inside
    rcases List.mem_cons.mp inside with rfl | later
    · exact below low mem
    · exact across low mem high later
  · intro x mem
    rcases List.mem_append.mp mem with left | right
    · exact allProper x (List.mem_append_left _ left)
    · rcases List.mem_cons.mp right with rfl | later
      · exact proper
      · exact allProper x (List.mem_append_right _ later)
  · intro old mem
    rcases List.mem_append.mp mem with left | right
    · exact .inl (below old left)
    · exact .inr (above old right)

theorem same_loading (loading : Loading s u mm content) (pte : v.pte = u.pte) (data : v.data = u.data)
    (free : v.free = u.free) : Loading s v mm content := by
  constructor
  · rw [pte, free]
    exact loading.origin
  · rw [pte]
    exact loading.apart
  · rw [pte, data]
    exact loading.bytes
  · rw [pte]
    exact loading.present
  · rw [data, free]
    exact loading.rest

theorem same_held (held : Held u mm) (pte : v.pte = u.pte) (vmas : v.vmas = u.vmas) : Held v mm := by
  constructor
  · rw [vmas]
    exact held.sorted
  · rw [vmas]
    exact held.proper
  · rw [pte, vmas]
    exact held.held

/-- `mm_map` has made a VMA whose pages are not mapped. -/
structure Areas (u v : CowState) (mm start stop : Nat) : Prop where
  access : UserAccess start stop
  pte : v.pte = u.pte
  data : v.data = u.data
  free : v.free = u.free
  held : Held v mm
  area : ∃ vma ∈ v.vmas mm, vma.vmStart = start / PGSIZE ∧ vma.vmEnd = stop / PGSIZE
  absent : ∀ i, start / PGSIZE ≤ i → i < stop / PGSIZE → (u.pte mm i).v = false

theorem mm_map_ran {addr len : Nat} {write : Bool} (held : Held u mm) (ran : mmMap mm addr len write u = .ok (0, v)) :
    Areas u v mm (roundDown addr) (roundUp (word (addr + len))) := by
  unfold mmMap at ran
  by_cases access : UserAccess (roundDown addr) (roundUp (word (addr + len)))
  · rw [if_neg (not_not_intro access), run_get_bind] at ran
    have mapped : ∀ {w : CowState}, (do
          let memory ← kmalloc
          if !memory then return -E_NO_MEM
          insertVmaStruct mm ⟨roundDown addr / PGSIZE, roundUp (word (addr + len)) / PGSIZE, write⟩
          return 0 : CowM Int) u = .ok (0, w) →
        Areas u w mm (roundDown addr) (roundUp (word (addr + len))) := by
      intro w ran
      have asked : kmalloc u = .ok (u.tables.head?.getD false, { u with tables := u.tables.tail }) := rfl
      rw [run_bind asked] at ran
      cases memory : u.tables.head?.getD false with
      | false =>
        rw [memory] at ran
        cases ran
      | true =>
        rw [memory] at ran
        change (insertVmaStruct mm _ >>= fun _ => pure 0 : CowM Int) { u with tables := u.tables.tail } = _ at ran
        obtain ⟨⟨⟩, x, inserted, ran⟩ := bind_ran ran
        cases ran
        have same : Held { u with tables := u.tables.tail } mm := same_held held rfl rfl
        obtain ⟨list, rfl, inside, old, sorted, proper, apart⟩ := insert_vma_apart same inserted
        have whole : Function.update u.vmas mm list mm = list := Function.update_self ..
        refine ⟨access, rfl, rfl, rfl, ⟨?_, ?_, fun i valid => ?_⟩,
          ⟨⟨roundDown addr / PGSIZE, roundUp (word (addr + len)) / PGSIZE, write⟩, ?_, rfl, rfl⟩,
          fun i after before => ?_⟩
        · change (Function.update u.vmas mm list mm).Pairwise _
          rw [whole]
          exact sorted
        · change ∀ vma ∈ Function.update u.vmas mm list mm, _
          rw [whole]
          exact proper
        · obtain ⟨vma, mem, bounds⟩ := held.held i valid
          refine ⟨vma, ?_, bounds⟩
          change vma ∈ Function.update u.vmas mm list mm
          rw [whole]
          exact old vma mem
        · change _ ∈ Function.update u.vmas mm list mm
          rw [whole]
          exact inside
        · rw [← Bool.not_eq_true]
          intro valid
          obtain ⟨vma, mem, low, high⟩ := held.held i valid
          have beside := apart vma mem
          dsimp only at beside
          omega
    dsimp only at ran
    cases found : u.findVma mm (roundDown addr / PGSIZE) with
    | none =>
      rw [found] at ran
      exact mapped ran
    | some vma =>
      rw [found] at ran
      dsimp only at ran
      by_cases covers : roundUp (word (addr + len)) > vma.vmStart * PGSIZE
      · rw [if_pos covers] at ran
        cases ran
      · rw [if_neg covers] at ran
        exact mapped ran
  · rw [if_pos access] at ran
    cases ran

theorem filled_held {start last la' start' page' : Nat} {bytes : Nat → Nat} (held : Held u mm) (inside : vma ∈ u.vmas mm)
    (low : vma.vmStart ≤ la / PGSIZE) (high : ∀ i, i * PGSIZE < last → i < vma.vmEnd)
    (filled : Filled s u v mm la start last page bytes content la' start' page') : Held v mm := by
  have same : v.vmas mm = u.vmas mm := congrFun filled.vmas mm
  refine ⟨?_, ?_, fun i valid => ?_⟩
  · rw [same]
    exact held.sorted
  · rw [same]
    exact held.proper
  · rw [same]
    rcases filled.held i valid with old | ⟨behind, below⟩
    · exact held.held i old
    · exact ⟨vma, inside, Nat.le_trans low behind, high i below⟩

/- The BSS part of the last page of the file. -/
theorem clear_ran {start last stop : Nat} (ran : clearTail page la start last u = .ok (stop, v)) (before : start ≤ last)
    (inside : start < la) (near : la < start + PGSIZE) :
    stop = min la last ∧
      setBytes page (start + PGSIZE - la) (stop - start) (fun _ => 0) u = .ok ((), v) := by
  unfold clearTail at ran
  obtain ⟨enough, ran⟩ := check_ran ran
  dsimp only at ran
  obtain ⟨size, sized⟩ : ∃ size, size = PGSIZE - (start + PGSIZE - la) - (if last < la then la - last else 0) := ⟨_, rfl⟩
  rw [← sized] at ran
  obtain ⟨w, wrote⟩ : ∃ w, setBytes page (start + PGSIZE - la) size (fun _ => 0) u = .ok ((), w) := ⟨_, rfl⟩
  rw [run_bind wrote] at ran
  obtain ⟨_, ran⟩ := check_ran ran
  cases ran
  rw [Nat.add_sub_cancel_left]
  refine ⟨?_, wrote⟩
  rw [sized]
  split <;> omega

/-- The byte that a section has at an address. -/
def Elf.sectionByte (elf : Elf) (ph : ProgHdr) (a : Nat) : Option Nat :=
  if ph.p_type = ELF_PT_LOAD ∧ ph.p_va ≤ a ∧ a < ph.memEnd then
    some (if a < ph.fileEnd then elf.fileByte ph a else 0)
  else none

/- The loop over the BSS pages, which ends a section. -/
theorem bss_loads {elf : Elf} {ph : ProgHdr} {fuel start : Nat} (load : ph.p_type = ELF_PT_LOAD) (behind : ph.p_va ≤ start)
    (filed : ph.fileEnd ≤ start) (bounded : start ≤ ph.memEnd)
    (loading : Loading s u mm fun a =>
      if ph.p_va ≤ a ∧ a < start then some (if a < ph.fileEnd then elf.fileByte ph a else 0) else content a)
    (held : Held u mm) (inside : vma ∈ u.vmas mm) (low : vma.vmStart ≤ la / PGSIZE)
    (high : ∀ i, i * PGSIZE < ph.memEnd → i < vma.vmEnd) (aligned : la % PGSIZE = 0)
    (inPage : start < ph.memEnd → la ≤ start ∧ start < la + PGSIZE)
    (absent : ∀ i, la / PGSIZE ≤ i → i * PGSIZE < ph.memEnd → (u.pte mm i).v = false)
    (ran : (do
      match ← fillPages mm ph.perm (fun _ => 0) ph.memEnd fuel la start page with
      | none => return -E_NO_MEM
      | some _ => return 0 : CowM Int) u = .ok (0, v)) :
    Loading s v mm (fun a => (elf.sectionByte ph a).or (content a)) ∧ Held v mm := by
  obtain ⟨la', start', page', fill⟩ : ∃ la' start' page',
      fillPages mm ph.perm (fun _ => 0) ph.memEnd fuel la start page u = .ok (some (la', start', page'), v) := by
    obtain ⟨answer, w, fill, ran⟩ := bind_ran ran
    cases answer with
    | none => cases ran
    | some place =>
      cases ran
      exact ⟨_, _, _, fill⟩
  have filled := fill_filled loading rfl aligned inPage absent fill
  refine ⟨?_, filled_held held inside low high filled⟩
  have same : (fun a => if start ≤ a ∧ a < ph.memEnd then some 0 else
      if ph.p_va ≤ a ∧ a < start then some (if a < ph.fileEnd then elf.fileByte ph a else 0) else content a) =
      fun a => (elf.sectionByte ph a).or (content a) := by
    funext a
    unfold Elf.sectionByte
    by_cases late : start ≤ a ∧ a < ph.memEnd
    · rw [if_pos late, if_pos ⟨load, by omega, late.2⟩, if_neg (by omega), Option.some_or]
    · rw [if_neg late]
      by_cases early : ph.p_va ≤ a ∧ a < start
      · have whole : ph.p_type = ELF_PT_LOAD ∧ ph.p_va ≤ a ∧ a < ph.memEnd := ⟨load, early.1, by omega⟩
        rw [if_pos early, if_pos whole, Option.some_or]
      · rw [if_neg early, if_neg (by omega), Option.none_or]
  rw [← same]
  exact filled.loading

/- A section in the address space ends where it should, inside its VMA. -/
theorem section_ends {ph : ProgHdr} (space : ph.p_va + ph.p_memsz < 2 ^ 64) (small : ph.p_filesz ≤ ph.p_memsz)
    (access : UserAccess (roundDown ph.p_va) (roundUp (word (ph.p_va + ph.p_memsz)))) :
    ph.fileEnd = ph.p_va + ph.p_filesz ∧ ph.memEnd = ph.p_va + ph.p_memsz ∧
      ∀ i, i * PGSIZE < ph.memEnd → i < roundUp (word (ph.p_va + ph.p_memsz)) / PGSIZE := by
  have memEnd : ph.memEnd = ph.p_va + ph.p_memsz := Nat.mod_eq_of_lt space
  refine ⟨Nat.mod_eq_of_lt (by omega), memEnd, ?_⟩
  unfold UserAccess roundUp roundDown word USERBASE USERTOP PGSIZE at *
  rw [memEnd]
  intro i low
  omega

theorem file_content {elf : Elf} {ph : ProgHdr} : (fun a => if ph.p_va ≤ a ∧ a < ph.fileEnd then
      some (elf.fileByte ph a) else content a) = fun a => if ph.p_va ≤ a ∧ a < ph.fileEnd then
      some (if a < ph.fileEnd then elf.fileByte ph a else 0) else content a := by
  funext a
  by_cases here : ph.p_va ≤ a ∧ a < ph.fileEnd
  · rw [if_pos here, if_pos here, if_pos here.2]
  · rw [if_neg here, if_neg here]

/- The part of `load_icode` after `mm_map`. -/
theorem mapped_section_loads {elf : Elf} {ph : ProgHdr} {old : CowState} (load : ph.p_type = ELF_PT_LOAD)
    (space : ph.p_va + ph.p_memsz < 2 ^ 64) (small : ph.p_filesz ≤ ph.p_memsz) (loading : Loading s u mm content)
    (areas : Areas old u mm (roundDown ph.p_va) (roundUp (word (ph.p_va + ph.p_memsz))))
    (ran : (do
      let la := roundDown ph.p_va
      match ← fillPages mm ph.perm (elf.fileByte ph) ph.fileEnd ((ph.fileEnd - la) / PGSIZE + 2) la ph.p_va 0 with
      | none => return -E_NO_MEM
      | some (la, start, page) =>
          if start < la ∧ start = ph.memEnd then return 0
          let start ← if start < la then clearTail page la start ph.memEnd else pure start
          match ← fillPages mm ph.perm (fun _ => 0) ph.memEnd ((ph.memEnd - la) / PGSIZE + 2) la start page with
          | none => return -E_NO_MEM
          | some _ => return 0 : CowM Int) u = .ok (0, v)) :
    Loading s v mm (fun a => (elf.sectionByte ph a).or (content a)) ∧ Held v mm := by
  obtain ⟨fileEnd, memEnd, high⟩ := section_ends space small areas.access
  obtain ⟨vma, inside, low, top⟩ := areas.area
  have page : roundDown ph.p_va / PGSIZE = ph.p_va / PGSIZE := Nat.mul_div_cancel _ (by decide)
  have aligned : roundDown ph.p_va % PGSIZE = 0 := Nat.mul_mod_left ..
  have near : roundDown ph.p_va ≤ ph.p_va ∧ ph.p_va < roundDown ph.p_va + PGSIZE := by
    unfold roundDown PGSIZE
    omega
  have absent : ∀ i, roundDown ph.p_va / PGSIZE ≤ i → i * PGSIZE < ph.memEnd → (u.pte mm i).v = false := by
    intro i behind before
    rw [areas.pte]
    exact areas.absent i behind (high i before)
  rw [← top] at high
  dsimp only at ran
  obtain ⟨answer, w, fill, ran⟩ := bind_ran ran
  cases answer with
  | none => cases ran
  | some place =>
    obtain ⟨la, start, last⟩ := place
    have filled := fill_filled loading rfl aligned (fun _ => near)
      (fun i behind before => absent i behind (by omega)) fill
    have heldW : Held w mm := filled_held areas.held inside (Nat.le_of_eq low)
      (fun i before => high i (by omega)) filled
    dsimp only at ran
    by_cases more : ph.p_va < ph.fileEnd
    · obtain ⟨rfl, alignedW, ahead, beyond, close, valid, here⟩ := filled.moved more
      have absentW : ∀ i, la / PGSIZE ≤ i → i * PGSIZE < ph.memEnd → (w.pte mm i).v = false := by
        intro i behind before
        rw [← Bool.not_eq_true]
        intro there
        rcases filled.held i there with old | ⟨_, below⟩
        · rw [absent i (Nat.le_trans (Nat.div_le_div_right (by omega)) behind) before] at old
          cases old
        · unfold PGSIZE at *
          omega
      have lowW : vma.vmStart ≤ la / PGSIZE := by
        rw [low]
        exact Nat.div_le_div_right (by omega)
      have filed : Loading s w mm fun a => if ph.p_va ≤ a ∧ a < ph.fileEnd then
          some (if a < ph.fileEnd then elf.fileByte ph a else 0) else content a := by
        rw [← file_content]
        exact filled.loading
      by_cases rest : ph.fileEnd < la
      · by_cases whole : ph.fileEnd = ph.memEnd
        · rw [if_pos ⟨rest, whole⟩] at ran
          cases ran
          refine ⟨?_, heldW⟩
          have same : (fun a => (elf.sectionByte ph a).or (content a)) = fun a =>
              if ph.p_va ≤ a ∧ a < ph.fileEnd then some (if a < ph.fileEnd then elf.fileByte ph a else 0)
              else content a := by
            funext a
            unfold Elf.sectionByte
            by_cases here : ph.p_va ≤ a ∧ a < ph.fileEnd
            · have all : ph.p_type = ELF_PT_LOAD ∧ ph.p_va ≤ a ∧ a < ph.memEnd := ⟨load, here.1, by omega⟩
              rw [if_pos all, if_pos here, Option.some_or]
            · rw [if_neg here, if_neg (by omega), Option.none_or]
          rw [same]
          exact filed
        · rw [if_neg fun both => whole both.2, if_pos rest] at ran
          obtain ⟨stop, x, tail, ran⟩ := bind_ran ran
          obtain ⟨stops, wrote⟩ := clear_ran tail (by omega) rest close
          rw [← here] at wrote
          obtain ⟨⟨pteX, vmasX, _⟩, loadingX⟩ := written_loading filed valid (by omega) wrote
          have base : (la / PGSIZE - 1) * PGSIZE + (ph.fileEnd + PGSIZE - la) = ph.fileEnd := by
            unfold PGSIZE at *
            omega
          rw [base] at loadingX
          have cleared : (fun a => if ph.fileEnd ≤ a ∧ a < ph.fileEnd + (stop - ph.fileEnd) then some 0 else
              if ph.p_va ≤ a ∧ a < ph.fileEnd then some (if a < ph.fileEnd then elf.fileByte ph a else 0)
              else content a) = fun a => if ph.p_va ≤ a ∧ a < stop then
                some (if a < ph.fileEnd then elf.fileByte ph a else 0) else content a := by
            funext a
            by_cases late : ph.fileEnd ≤ a ∧ a < ph.fileEnd + (stop - ph.fileEnd)
            · rw [if_pos late, if_pos ⟨by omega, by omega⟩, if_neg (by omega)]
            · rw [if_neg late]
              by_cases early : ph.p_va ≤ a ∧ a < ph.fileEnd
              · rw [if_pos early, if_pos (⟨early.1, by omega⟩ : ph.p_va ≤ a ∧ a < stop)]
              · rw [if_neg early, if_neg (by omega)]
          rw [cleared] at loadingX
          refine bss_loads load (by omega) (by omega) (by omega) loadingX (same_held heldW pteX vmasX) ?_ lowW high
            alignedW (by omega) ?_ ran
          · rw [vmasX, filled.vmas]
            exact inside
          · rw [pteX]
            exact absentW
      · rw [if_neg fun both => rest both.1, if_neg rest] at ran
        refine bss_loads load (by omega) (le_refl _) (by omega) filed heldW ?_ lowW high alignedW (by omega) absentW ran
        rw [filled.vmas]
        exact inside
    · obtain ⟨rfl, rfl, rfl, rfl⟩ := filled.still more
      rw [if_neg (by omega), if_neg (by omega)] at ran
      refine bss_loads load (le_refl _) (by omega) (by omega) ?_ areas.held inside (Nat.le_of_eq low) high aligned
        (fun _ => near) absent ran
      have same : (fun a => if ph.p_va ≤ a ∧ a < ph.p_va then
          some (if a < ph.fileEnd then elf.fileByte ph a else 0) else content a) = content := by
        funext a
        exact if_neg (by omega)
      rw [same]
      exact loading

theorem section_loads {elf : Elf} {ph : ProgHdr} (space : ph.p_type = ELF_PT_LOAD → ph.p_va + ph.p_memsz < 2 ^ 64)
    (loading : Loading s u mm content) (held : Held u mm) (ran : loadSection mm elf ph u = .ok (0, v)) :
    Loading s v mm (fun a => (elf.sectionByte ph a).or (content a)) ∧ Held v mm := by
  unfold loadSection at ran
  by_cases load : ph.p_type = ELF_PT_LOAD
  · rw [if_neg (not_not_intro load)] at ran
    by_cases small : ph.p_filesz > ph.p_memsz
    · rw [if_pos small] at ran
      cases ran
    · rw [if_neg small] at ran
      obtain ⟨ret, w, area, ran⟩ := bind_ran ran
      by_cases failed : ret ≠ 0
      · rw [if_pos failed] at ran
        cases ran
        exact absurd rfl failed
      · rw [if_neg failed] at ran
        rw [not_not.mp failed] at area
        have areas := mm_map_ran held area
        exact mapped_section_loads load (space load) (Nat.le_of_not_lt small) (same_loading loading areas.pte areas.data areas.free)
          areas ran
  · rw [if_pos load] at ran
    cases ran
    have same : (fun a => (elf.sectionByte ph a).or (content a)) = content := by
      funext a
      unfold Elf.sectionByte
      rw [if_neg fun all => load all.1, Option.none_or]
    rw [same]
    exact ⟨loading, held⟩

end

end Ucore.CowFork
