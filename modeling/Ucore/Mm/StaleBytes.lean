import Ucore.Mm.LoadSections

/- What a process reads: the bytes of its sections, and elsewhere what the frames held before. -/
namespace Ucore.CowFork
open Programs Transitions

/-- The bytes of the sections; a later one hides an earlier one. -/
def Elf.bytes (elf : Elf) : List ProgHdr → (Nat → Option Nat) → Nat → Option Nat
  | [], content => content
  | ph :: rest, content => elf.bytes rest fun a => (elf.sectionByte ph a).or (content a)

def Elf.InSection (elf : Elf) (a : Nat) : Prop :=
  ∃ ph ∈ elf.ph, ph.p_type = ELF_PT_LOAD ∧ ph.p_va ≤ a ∧ a < ph.p_va + ph.p_memsz

/-- The sections are inside the address space. -/
def Elf.InSpace (elf : Elf) : Prop := ∀ ph ∈ elf.ph, ph.p_type = ELF_PT_LOAD → ph.p_va + ph.p_memsz < 2 ^ 64

/-- The states differ in the bytes of free frames only. -/
def OnlyFree (s s' : CowState) : Prop := ∃ data, s' = { s with data := data } ∧ ∀ f, f ∉ s.free → data f = s.data f

/-- A program is loaded, and then its faults are handled. -/
def ProcessRun (mm : Nat) (elf : Elf) (faults : List FaultCall) (s u : CowState) : Prop :=
  ∃ t, loadIcode mm elf s = .ok (0, t) ∧ Run (FaultStep mm) t faults u

section
variable {s u v : CowState} {mm la page : Nat} {content : Nat → Option Nat} {elf : Elf}

theorem section_byte_some {ph : ProgHdr} (space : ph.p_type = ELF_PT_LOAD → ph.p_va + ph.p_memsz < 2 ^ 64) (a : Nat) :
    elf.sectionByte ph a ≠ none ↔ ph.p_type = ELF_PT_LOAD ∧ ph.p_va ≤ a ∧ a < ph.p_va + ph.p_memsz := by
  unfold Elf.sectionByte
  by_cases load : ph.p_type = ELF_PT_LOAD
  · have memEnd : ph.memEnd = ph.p_va + ph.p_memsz := Nat.mod_eq_of_lt (space load)
    rw [memEnd]
    by_cases here : ph.p_type = ELF_PT_LOAD ∧ ph.p_va ≤ a ∧ a < ph.p_va + ph.p_memsz
    · rw [if_pos here]
      exact ⟨fun _ => here, fun _ => Option.some_ne_none _⟩
    · rw [if_neg here]
      exact ⟨fun absurdity => absurd rfl absurdity, fun there => absurd there here⟩
  · rw [if_neg fun all => load all.1]
    exact ⟨fun absurdity => absurd rfl absurdity, fun there => absurd there.1 load⟩

theorem bytes_some {phs : List ProgHdr} (space : ∀ ph ∈ phs, ph.p_type = ELF_PT_LOAD → ph.p_va + ph.p_memsz < 2 ^ 64)
    (a : Nat) : elf.bytes phs content a ≠ none ↔
      content a ≠ none ∨ ∃ ph ∈ phs, ph.p_type = ELF_PT_LOAD ∧ ph.p_va ≤ a ∧ a < ph.p_va + ph.p_memsz := by
  induction phs generalizing content with
  | nil =>
    unfold Elf.bytes
    simp
  | cons ph rest ih =>
    unfold Elf.bytes
    rw [ih fun one mem => space one (.tail _ mem)]
    have both : (elf.sectionByte ph a).or (content a) ≠ none ↔ elf.sectionByte ph a ≠ none ∨ content a ≠ none := by
      cases elf.sectionByte ph a with
      | none => simp
      | some b => simp
    rw [both, section_byte_some (space ph (.head _))]
    constructor
    · rintro ((here | before) | ⟨one, mem, here⟩)
      · exact .inr ⟨ph, .head _, here⟩
      · exact .inl before
      · exact .inr ⟨one, .tail _ mem, here⟩
    · rintro (before | ⟨one, mem, here⟩)
      · exact .inl (.inr before)
      · rcases List.mem_cons.mp mem with rfl | later
        · exact .inl (.inl here)
        · exact .inr ⟨one, later, here⟩

theorem sections_load {phs : List ProgHdr} (space : ∀ ph ∈ phs, ph.p_type = ELF_PT_LOAD → ph.p_va + ph.p_memsz < 2 ^ 64)
    (loading : Loading s u mm content) (held : Held u mm) (ran : loadSections mm elf phs u = .ok (0, v)) :
    Loading s v mm (elf.bytes phs content) ∧ Held v mm := by
  induction phs generalizing u content with
  | nil =>
    cases ran
    exact ⟨loading, held⟩
  | cons ph rest ih =>
    unfold loadSections at ran
    obtain ⟨ret, w, first, ran⟩ := bind_ran ran
    by_cases failed : ret ≠ 0
    · rw [if_pos failed] at ran
      cases ran
      exact absurd rfl failed
    · rw [if_neg failed] at ran
      rw [not_not.mp failed] at first
      obtain ⟨loadingW, heldW⟩ := section_loads (space ph (.head _)) loading held first
      exact ih (fun one mem => space one (.tail _ mem)) loadingW heldW ran

theorem stack_page_maps {i : Nat} (absent : (u.pte mm ((USTACKTOP - i * PGSIZE) / PGSIZE)).v = false)
    (ran : stackPage mm i u = .ok ((), v)) : ∃ page, PageMapped u v mm ((USTACKTOP - i * PGSIZE) / PGSIZE) page pteUser := by
  unfold stackPage at ran
  obtain ⟨answer, w, alloc, ran⟩ := bind_ran ran
  cases answer with
  | none => cases ran
  | some page =>
    cases ran
    exact ⟨page, pgdir_alloc_maps absent alloc⟩

/-- The first `count` stack pages are mapped. -/
structure Stacked (s u : CowState) (mm : Nat) (content : Nat → Option Nat) (count : Nat) : Prop where
  loading : Loading s u mm content
  absent : ∀ i, count < i → i ≤ 4 → (u.pte mm (0x80000 - i)).v = false
  top : 0 < count → (u.pte mm 0x7FFFF).v = true ∧ (u.pte mm 0x7FFFF).perm = pteUser

theorem next_stack_page {α : Type} {f : Unit → CowM α} {a : α} {count : Nat} (stacked : Stacked s u mm content count)
    (below : count < 4) (ran : (stackPage mm (count + 1) >>= f) u = .ok (a, v)) :
    ∃ w, Stacked s w mm content (count + 1) ∧ f () w = .ok (a, v) := by
  have here : (USTACKTOP - (count + 1) * PGSIZE) / PGSIZE = 0x80000 - (count + 1) := by
    unfold USTACKTOP USERTOP PGSIZE
    omega
  have new : (u.pte mm ((USTACKTOP - (count + 1) * PGSIZE) / PGSIZE)).v = false := by
    rw [here]
    exact stacked.absent _ (by omega) (by omega)
  obtain ⟨⟨⟩, w, one, ran⟩ := bind_ran ran
  obtain ⟨page, mapped⟩ := stack_page_maps new one
  have loadingW := mapped_loading stacked.loading new rfl mapped
  rw [here] at mapped
  refine ⟨w, ⟨loadingW, fun i later low => ?_, fun _ => ?_⟩, ran⟩
  · rw [mapped_other mapped (by omega)]
    exact stacked.absent i (by omega) low
  · by_cases first : count = 0
    · subst first
      rw [show (0x7FFFF : Nat) = 0x80000 - (0 + 1) from rfl, mapped_here mapped]
      exact ⟨rfl, rfl⟩
    · rw [mapped_other mapped (by omega)]
      exact stacked.top (by omega)

/- The stack pages are mapped, and have what their frames had. -/
theorem stack_loading (loading : Loading s u mm content) (held : Held u mm) (ran : buildStack mm u = .ok (0, v)) :
    Loading s v mm content ∧ (u.pte mm 0x7FFFF).v = false ∧
      (v.pte mm 0x7FFFF).v = true ∧ (v.pte mm 0x7FFFF).perm = pteUser := by
  unfold buildStack at ran
  obtain ⟨ret, w, area, ran⟩ := bind_ran ran
  by_cases failed : ret ≠ 0
  · rw [if_pos failed] at ran
    cases ran
    exact absurd rfl failed
  · rw [if_neg failed] at ran
    rw [not_not.mp failed] at area
    have areas := mm_map_ran held area
    have low : roundDown (USTACKTOP - USTACKSIZE) / PGSIZE = 0x7FF00 := by decide
    have high : roundUp (word (USTACKTOP - USTACKSIZE + USTACKSIZE)) / PGSIZE = 0x80000 := by decide
    have absent : ∀ i, 0x7FF00 ≤ i → i < 0x80000 → (u.pte mm i).v = false := by
      intro i after before
      exact areas.absent i (by omega) (by omega)
    have begun : Stacked s w mm content 0 := by
      refine ⟨same_loading loading areas.pte areas.data areas.free, fun i _ _ => ?_, fun never => absurd never (lt_irrefl 0)⟩
      rw [areas.pte]
      exact absent _ (by omega) (by omega)
    obtain ⟨_, one, ran⟩ := next_stack_page begun (by decide) ran
    obtain ⟨_, two, ran⟩ := next_stack_page one (by decide) ran
    obtain ⟨_, three, ran⟩ := next_stack_page two (by decide) ran
    obtain ⟨_, four, ran⟩ := next_stack_page three (by decide) ran
    cases ran
    exact ⟨four.loading, absent _ (by decide) (by decide), four.top (by decide)⟩

/-- What a loaded program has: the sections, and a stack page with the bytes of its frame. -/
structure LoadedProgram (s u : CowState) (mm : Nat) (elf : Elf) : Prop where
  loading : Loading s u mm (elf.bytes elf.ph fun _ => none)
  stack : (u.pte mm 0x7FFFF).v = true ∧ (u.pte mm 0x7FFFF).perm = pteUser
  bare : ∀ a, a / PGSIZE = 0x7FFFF → elf.bytes elf.ph (fun _ => none) a = none

theorem load_icode_loads (space : elf.InSpace) (ran : loadIcode mm elf s = .ok (0, u)) : LoadedProgram s u mm elf := by
  unfold loadIcode at ran
  have asked : kmalloc s = .ok (s.tables.head?.getD false, { s with tables := s.tables.tail }) := rfl
  rw [run_bind asked] at ran
  cases memory : s.tables.head?.getD false with
  | false =>
    rw [memory] at ran
    cases ran
  | true =>
    rw [memory] at ran
    change (allocPage >>= _ : CowM Int) { s with tables := s.tables.tail } = _ at ran
    cases offered : CowState.offered { s with tables := s.tables.tail } with
    | none =>
      rw [run_bind (alloc_none offered)] at ran
      cases ran
    | some pgdir =>
      rw [run_bind (alloc_some offered)] at ran
      dsimp only at ran
      rw [run_modify_bind] at ran
      by_cases magic : elf.e_magic ≠ ELF_MAGIC
      · rw [if_pos magic] at ran
        cases ran
      · rw [if_neg magic] at ran
        have noEntry : ∀ la, ((CowState.take { s with tables := s.tables.tail } pgdir).newMm mm).pte mm la = noPte := by
          intro la
          change Function.update s.pte mm (fun _ => noPte) mm la = noPte
          rw [Function.update_self]
        have noArea : ((CowState.take { s with tables := s.tables.tail } pgdir).newMm mm).vmas mm = [] :=
          Function.update_self ..
        generalize begun : (CowState.take { s with tables := s.tables.tail } pgdir).newMm mm = w at *
        have invalid : ∀ la, (w.pte mm la).v = true → False := by
          intro la valid
          rw [noEntry la] at valid
          cases valid
        have blank : Loading s w mm fun _ => none := by
          refine ⟨fun la valid => (invalid la valid).elim, fun la _ valid => (invalid la valid).elim,
            fun la _ valid => (invalid la valid).elim, fun a absurdity => absurd rfl absurdity, fun f free => ?_⟩
          subst begun
          exact ⟨Finset.mem_of_mem_erase free, rfl⟩
        have empty : Held w mm := by
          refine ⟨?_, ?_, fun i valid => (invalid i valid).elim⟩
          · rw [noArea]
            exact List.Pairwise.nil
          · rw [noArea]
            exact fun _ mem => absurd mem List.not_mem_nil
        obtain ⟨ret, x, sections, ran⟩ := bind_ran ran
        have ends : ∀ {ret : Int} {y : CowState}, (do
            if ret ≠ 0 then
              exitMmap mm
              freePage pgdir
            return ret : CowM Int) y = .ok (0, u) → ret = 0 ∧ y = u := by
          intro ret y ran
          by_cases failed : ret ≠ 0
          · rw [if_pos failed] at ran
            obtain ⟨_, _, _, ran⟩ := bind_ran ran
            cases ran
            exact absurd rfl failed
          · rw [if_neg failed] at ran
            cases ran
            exact ⟨rfl, rfl⟩
        by_cases failed : ret ≠ 0
        · rw [if_pos failed] at ran
          exact absurd (ends ran).1 failed
        · rw [if_neg failed] at ran
          rw [not_not.mp failed] at sections
          obtain ⟨loadingX, heldX⟩ := sections_load space blank empty sections
          obtain ⟨ret, y, stack, ran⟩ := bind_ran ran
          obtain ⟨rfl, rfl⟩ := ends ran
          obtain ⟨loadingU, unmapped, mapped⟩ := stack_loading loadingX heldX stack
          refine ⟨loadingU, mapped, fun a page => ?_⟩
          by_contra some_byte
          have there := loadingX.present a some_byte
          rw [page, unmapped] at there
          cases there

/- A fault maps a page that was not mapped, or nothing. -/
theorem fault_loading {code : Fault} {ret : Int} (loading : Loading s u mm content)
    (ran : doPgfault mm code la u = .ok (ret, v)) :
    Loading s v mm content ∧ ∀ i, (u.pte mm i).v = true → v.pte mm i = u.pte mm i := by
  unfold doPgfault at ran
  rw [run_get_bind] at ran
  cases found : u.findVma mm la with
  | none =>
    rw [found] at ran
    cases ran
    exact ⟨loading, fun _ _ => rfl⟩
  | some vma =>
    rw [found] at ran
    have entry : load mm la u = .ok (u.pte mm la, u) := rfl
    change (load mm la >>= _ : CowM Int) u = _ at ran
    rw [run_bind entry] at ran
    by_cases valid : (u.pte mm la).v = true
    · have present : ¬ (!(u.pte mm la).v) = true := by
        rw [valid]
        decide
      rw [if_neg present, if_neg (by rw [(loading.origin la valid).2.2]; exact Bool.false_ne_true)] at ran
      by_cases refused : code = .store ∧ (!(u.pte mm la).perm.w) = true
      · rw [if_pos refused] at ran
        cases ran
        exact ⟨loading, fun _ _ => rfl⟩
      · rw [if_neg refused] at ran
        cases ran
        exact ⟨loading, fun _ _ => rfl⟩
    · have absent : (u.pte mm la).v = false := Bool.not_eq_true _ ▸ valid
      have missing : (!(u.pte mm la).v) = true := by
        rw [absent]
        rfl
      rw [if_pos missing] at ran
      have asked : kmalloc u = .ok (u.tables.head?.getD false, { u with tables := u.tables.tail }) := rfl
      rw [run_bind asked] at ran
      cases table : u.tables.head?.getD false with
      | false =>
        rw [table] at ran
        cases ran
        exact ⟨same_loading loading rfl rfl rfl, fun _ _ => rfl⟩
      | true =>
        rw [table] at ran
        change (allocPage >>= _ : CowM Int) { u with tables := u.tables.tail } = _ at ran
        cases offered : CowState.offered { u with tables := u.tables.tail } with
        | none =>
          rw [run_bind (alloc_none offered)] at ran
          cases ran
          exact ⟨same_loading loading rfl rfl rfl, fun _ _ => rfl⟩
        | some page =>
          rw [run_bind (alloc_some offered)] at ran
          dsimp only at ran
          rw [run_bind (insert_new (u := CowState.take { u with tables := u.tables.tail } page) absent)] at ran
          have mapped : PageMapped u v mm la page { noPerm with u := true, r := true, w := true } := by
            cases ran
            exact ⟨offered_free offered, rfl, rfl, rfl, rfl⟩
          refine ⟨mapped_loading loading absent rfl mapped, fun i valid' => mapped_other mapped ?_⟩
          rintro rfl
          exact valid valid'

theorem faults_loading {faults : List FaultCall} (loading : Loading s u mm content)
    (run : Run (FaultStep mm) u faults v) :
    Loading s v mm content ∧ ∀ i, (u.pte mm i).v = true → v.pte mm i = u.pte mm i := by
  induction run with
  | stop u => exact ⟨loading, fun _ _ => rfl⟩
  | @call u w _ c _ first _ ih =>
    obtain ⟨ret, ran⟩ := first
    have fresh : Loading s { u with pages := c.pages, tables := c.tables } mm content := same_loading loading rfl rfl rfl
    obtain ⟨loadingW, stays⟩ := fault_loading fresh ran
    obtain ⟨loadingV, later⟩ := ih loadingW
    refine ⟨loadingV, fun i valid => ?_⟩
    have kept : w.pte mm i = u.pte mm i := stays i valid
    rw [later i (by rw [kept]; exact valid), kept]

theorem read_byte (loading : Loading s u mm content) {a byte : Nat} (read : u.readByte mm a = some byte) :
    (u.pte mm (a / PGSIZE)).page ∈ s.free ∧
      byte = (content a).getD (s.data (u.pte mm (a / PGSIZE)).page (a % PGSIZE)) := by
  unfold CowState.readByte CowState.read at read
  split_ifs at read with valid
  cases read
  have low : a % PGSIZE < PGSIZE := Nat.mod_lt _ (by decide)
  have whole : a / PGSIZE * PGSIZE + a % PGSIZE = a := Nat.div_add_mod' a PGSIZE
  refine ⟨(loading.origin _ valid.1).1, ?_⟩
  rw [loading.bytes _ _ valid.1 low, whole]

/- What a process has that was loaded. -/
theorem process_loading {faults : List FaultCall} (space : elf.InSpace) (run : ProcessRun mm elf faults s u) :
    Loading s u mm (elf.bytes elf.ph fun _ => none) ∧ ((u.pte mm 0x7FFFF).v = true ∧ (u.pte mm 0x7FFFF).perm = pteUser) ∧
      ∀ a, a / PGSIZE = 0x7FFFF → elf.bytes elf.ph (fun _ => none) a = none := by
  obtain ⟨t, loaded, faulted⟩ := run
  obtain ⟨loading, stack, bare⟩ := load_icode_loads space loaded
  obtain ⟨loadingU, stays⟩ := faults_loading loading faulted
  rw [stays _ stack.1]
  exact ⟨loadingU, stack, bare⟩

/- A process in a state with other bytes in the free frames. -/
theorem process_alike {faults : List FaultCall} {s' : CowState} (run : ProcessRun mm elf faults s u) (alike : Alike s s') :
    ∃ u', ProcessRun mm elf faults s' u' ∧ Alike u u' := by
  obtain ⟨t, loaded, faulted⟩ := run
  obtain ⟨t', loaded', alikeT⟩ := load_icode_blind s s' alike 0 t loaded
  obtain ⟨u', faulted', alikeU⟩ := faults_alike faulted alikeT
  exact ⟨u', ⟨t', loaded', faulted'⟩, alikeU⟩

theorem in_section (space : elf.InSpace) (a : Nat) : elf.bytes elf.ph (fun _ => none) a ≠ none ↔ elf.InSection a := by
  rw [bytes_some space]
  exact ⟨fun either => either.resolve_left fun absurdity => absurdity rfl, Or.inr⟩

theorem process_run_unique {faults : List FaultCall} (first : ProcessRun mm elf faults s u)
    (second : ProcessRun mm elf faults s v) : u = v := by
  obtain ⟨t, loaded, faulted⟩ := first
  obtain ⟨t', loaded', faulted'⟩ := second
  cases loaded.symm.trans loaded'
  have one : ∀ s c t t', FaultStep mm s c t → FaultStep mm s c t' → t = t' := by
    rintro s c t t' ⟨ret, ran⟩ ⟨ret', ran'⟩
    cases ran.symm.trans ran'
    rfl
  exact run_unique one faulted faulted'

/-- A byte that is not `byte`. -/
def otherByte (byte : Nat) : Nat := if byte = 0 then 1 else 0

theorem other_byte_ne (byte : Nat) : otherByte byte ≠ byte := by
  unfold otherByte
  split <;> omega

/- All bytes of the free frames are changed. -/
def CowState.refilled (s : CowState) : CowState :=
  { s with data := fun f i => if f ∈ s.free then otherByte (s.data f i) else s.data f i }

theorem refilled_only_free : OnlyFree s s.refilled := by
  refine ⟨_, rfl, fun f used => ?_⟩
  funext i
  exact if_neg used

/- A byte outside of the sections is another one where the free frames have other bytes. -/
theorem outside_differs {faults : List FaultCall} {a byte : Nat} (space : elf.InSpace)
    (run : ProcessRun mm elf faults s u) (read : u.readByte mm a = some byte) (outside : ¬ elf.InSection a) :
    ∃ u', ProcessRun mm elf faults s.refilled u' ∧ u'.readByte mm a = some (otherByte byte) := by
  obtain ⟨u', run', data, rfl⟩ := process_alike run ⟨_, rfl⟩
  refine ⟨_, run', ?_⟩
  obtain ⟨loading, _⟩ := process_loading space run
  obtain ⟨loading', _⟩ := process_loading space run'
  have bare : elf.bytes elf.ph (fun _ => none) a = none := by
    by_contra some_byte
    exact outside ((in_section space a).mp some_byte)
  obtain ⟨free, old⟩ := read_byte loading read
  have there : ∃ byte', ({ u with data := data } : CowState).readByte mm a = some byte' := by
    unfold CowState.readByte CowState.read at read ⊢
    split_ifs at read with valid
    exact ⟨_, if_pos valid⟩
  obtain ⟨byte', read'⟩ := there
  obtain ⟨_, new⟩ := read_byte loading' read'
  rw [bare, Option.getD_none] at old new
  rw [read', new, old]
  exact congrArg some (if_pos free)

/- A byte of a section is the same where the free frames have other bytes. -/
theorem inside_agrees {faults : List FaultCall} {s' u' : CowState} {a byte : Nat} (space : elf.InSpace)
    (run : ProcessRun mm elf faults s u) (read : u.readByte mm a = some byte) (inside : elf.InSection a)
    (alike : OnlyFree s s') (run' : ProcessRun mm elf faults s' u') : u'.readByte mm a = some byte := by
  obtain ⟨data, rfl, _⟩ := alike
  obtain ⟨w, runW, bytes, rfl⟩ := process_alike run ⟨data, rfl⟩
  obtain rfl := process_run_unique run' runW
  obtain ⟨content, there⟩ := Option.ne_none_iff_exists'.mp ((in_section space a).mpr inside)
  obtain ⟨_, old⟩ := read_byte (process_loading space run).1 read
  have readable : ∃ byte', ({ u with data := bytes } : CowState).readByte mm a = some byte' := by
    unfold CowState.readByte CowState.read at read ⊢
    split_ifs at read with valid
    exact ⟨_, if_pos valid⟩
  obtain ⟨byte', read'⟩ := readable
  obtain ⟨_, new⟩ := read_byte (process_loading space run').1 read'
  rw [there, Option.getD_some] at old new
  rw [read', new, old]

end

/-- A process that was loaded always reads what free frames held: among the bytes that it can read those
outside of its sections, and only those, depend on it, and some stack page has such bytes. -/
theorem stale_bytes_are_read {mm : Nat} {elf : Elf} {faults : List FaultCall} {s u : CowState} (space : elf.InSpace)
    (run : ProcessRun mm elf faults s u) :
    (∀ a byte, u.readByte mm a = some byte →
      ((∀ s' u', OnlyFree s s' → ProcessRun mm elf faults s' u' → u'.readByte mm a = some byte) ↔ elf.InSection a)) ∧
    ∃ s' u' a, OnlyFree s s' ∧ ProcessRun mm elf faults s' u' ∧ u'.readByte mm a ≠ u.readByte mm a := by
  constructor
  · intro a byte read
    constructor
    · intro same
      by_contra outside
      obtain ⟨u', run', other⟩ := outside_differs space run read outside
      rw [same _ u' refilled_only_free run'] at other
      exact other_byte_ne byte (Option.some.inj other).symm
    · exact fun inside s' u' alike run' => inside_agrees space run read inside alike run'
  · obtain ⟨_, ⟨valid, perm⟩, bare⟩ := process_loading space run
    have page : (USTACKTOP - 1) / PGSIZE = 0x7FFFF := by decide
    have readable : ∃ byte, u.readByte mm (USTACKTOP - 1) = some byte := by
      unfold CowState.readByte CowState.read
      rw [page, perm]
      exact ⟨_, if_pos ⟨valid, rfl⟩⟩
    obtain ⟨byte, read⟩ := readable
    have outside : ¬ elf.InSection (USTACKTOP - 1) := fun inside => (in_section space _).mpr inside (bare _ page)
    obtain ⟨u', run', other⟩ := outside_differs space run read outside
    refine ⟨s.refilled, u', USTACKTOP - 1, refilled_only_free, run', ?_⟩
    rw [other, read]
    exact fun same => other_byte_ne byte (Option.some.inj same)

/- The run of a process, computed. -/
def processReplay (mm : Nat) (elf : Elf) (faults : List FaultCall) (s : CowState) : Option CowState :=
  match loadIcode mm elf s with
  | .ok (ret, t) =>
      if ret = 0 then
        replay (fun s c => match doPgfault mm c.errorCode (c.addr / PGSIZE) { s with pages := c.pages, tables := c.tables } with
          | .ok (_, t) => some t
          | .error _ => none) t faults
      else none
  | .error _ => none

theorem process_replayed {mm : Nat} {elf : Elf} {faults : List FaultCall} {s u : CowState}
    (done : processReplay mm elf faults s = some u) : ProcessRun mm elf faults s u := by
  unfold processReplay at done
  cases loaded : loadIcode mm elf s with
  | error e =>
    rw [loaded] at done
    cases done
  | ok r =>
    obtain ⟨ret, t⟩ := r
    rw [loaded] at done
    dsimp only at done
    split_ifs at done with whole
    rw [whole] at loaded
    refine ⟨t, loaded, run_mono (fun s c t step => ?_) (replay_run done)⟩
    cases ran : doPgfault mm c.errorCode (c.addr / PGSIZE) { s with pages := c.pages, tables := c.tables } with
    | error e =>
      rw [ran] at step
      cases step
    | ok r =>
      rw [ran] at step
      cases step
      exact ⟨_, ran⟩

/- Free frames with old bytes, and a program of eight bytes with some BSS. -/
def usedFrames : CowState where
  pte _ _ := noPte
  vmas _ := []
  ref _ := 0
  data _ _ := 99
  free := {1, 2, 3, 4, 5, 6, 7}
  pages := [some 1, some 2, some 3, some 4, some 5, some 6]
  tables := List.replicate 8 true

def smallProgram : Elf where
  e_magic := ELF_MAGIC
  ph := [⟨ELF_PT_LOAD, 6, 0, 0x200010, 8, 32⟩]
  binary i := i + 1

def stackFault : List FaultCall := [⟨.load, 0x7FF00000, [some 7], [true]⟩]

theorem small_program_reads_old_bytes : ∃ u, ProcessRun 0 smallProgram stackFault usedFrames u ∧
    u.readByte 0 0x200017 = some 8 ∧ u.readByte 0 0x200018 = some 0 ∧ u.readByte 0 0x200030 = some 99 ∧
    u.readByte 0 0x7FF00000 = some 99 ∧ ∃ s' u' a, OnlyFree usedFrames s' ∧
      ProcessRun 0 smallProgram stackFault s' u' ∧ u'.readByte 0 a ≠ u.readByte 0 a := by
  have seen : (processReplay 0 smallProgram stackFault usedFrames).any (fun u =>
      decide (u.readByte 0 0x200017 = some 8 ∧ u.readByte 0 0x200018 = some 0 ∧ u.readByte 0 0x200030 = some 99 ∧
        u.readByte 0 0x7FF00000 = some 99)) = true := by
    decide +kernel
  obtain ⟨u, done, facts⟩ := (Option.any_eq_true _ _).mp seen
  obtain ⟨file, zero, old, fault⟩ := of_decide_eq_true facts
  have run := process_replayed done
  have space : smallProgram.InSpace := by
    intro ph mem _
    rw [List.mem_singleton.mp mem]
    decide
  exact ⟨u, run, file, zero, old, fault, (stale_bytes_are_read space run).2⟩

/- A byte of the stack is what its frame held. -/
theorem stack_is_not_cleared : ¬ ∀ (mm : Nat) (elf : Elf) (faults : List FaultCall) (s s' u u' : CowState),
    OnlyFree s s' → ProcessRun mm elf faults s u → ProcessRun mm elf faults s' u' →
    ∀ a, u'.readByte mm a = u.readByte mm a := by
  intro claim
  have seen : (processReplay 0 smallProgram [] usedFrames).any (fun u =>
      (processReplay 0 smallProgram [] usedFrames.refilled).any fun u' =>
        decide (u.readByte 0 0x7FFFFFFF = some 99 ∧ u'.readByte 0 0x7FFFFFFF = some 0)) = true := by
    decide +kernel
  obtain ⟨u, done, rest⟩ := (Option.any_eq_true _ _).mp seen
  obtain ⟨u', done', facts⟩ := (Option.any_eq_true _ _).mp rest
  obtain ⟨old, new⟩ := of_decide_eq_true facts
  have same := claim 0 smallProgram [] usedFrames usedFrames.refilled u u' refilled_only_free (process_replayed done)
    (process_replayed done') 0x7FFFFFFF
  rw [old, new] at same
  cases same

end Ucore.CowFork
