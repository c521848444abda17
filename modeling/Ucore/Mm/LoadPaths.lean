import Ucore.Mm.LoadIcode

/- The path that `load_icode` and `do_pgfault` take does not depend on the bytes of the frames. -/
namespace Ucore.CowFork
open Programs Transitions

/-- The states differ in the bytes of frames only. -/
def Alike (s s' : CowState) : Prop := ∃ data, s' = { s with data := data }

section
variable {s s' : CowState} {mm la page : Nat} {perm : Perm}

theorem alike_modify {g : CowState → CowState}
    (kept : ∀ s data, ∃ data', g { s with data := data } = { g s with data := data' }) :
    Blind Alike (modify g : CowM PUnit) := by
  apply blind_modify
  rintro s _ ⟨data, rfl⟩
  exact kept s data

theorem alike_get {α : Type} {f : CowState → CowM α} (same : ∀ s data, f { s with data := data } = f s)
    (rest : ∀ s, Blind Alike (f s)) : Blind Alike (get >>= f : CowM α) := by
  apply blind_get _ rest
  rintro s _ ⟨data, rfl⟩
  exact same s data

theorem alloc_blind : Blind Alike allocPage := by
  rintro s _ ⟨data, rfl⟩ a t ran
  unfold allocPage at ran ⊢
  rw [run_get_bind, run_set_bind] at ran ⊢
  dsimp only at ran ⊢
  cases head : s.pages.head? with
  | none =>
    rw [head] at ran
    cases ran
    exact ⟨_, rfl, data, rfl⟩
  | some answer =>
    rw [head] at ran
    cases answer with
    | none =>
      cases ran
      exact ⟨_, rfl, data, rfl⟩
    | some page =>
      dsimp only at ran ⊢
      by_cases free : page ∈ s.free
      · rw [if_pos free] at ran ⊢
        cases ran
        exact ⟨_, rfl, data, rfl⟩
      · rw [if_neg free] at ran ⊢
        cases ran
        exact ⟨_, rfl, data, rfl⟩

theorem free_blind : Blind Alike (freePage page) := alike_modify fun _ data => ⟨data, rfl⟩

theorem kmalloc_blind : Blind Alike kmalloc := by
  rintro s _ ⟨data, rfl⟩ a t ran
  cases ran
  exact ⟨_, rfl, data, rfl⟩

theorem load_blind : Blind Alike (load mm la) := alike_get (fun _ _ => rfl) fun _ => blind_pure

theorem store_blind {pte : Pte} : Blind Alike (store mm la pte) := alike_modify fun _ data => ⟨data, rfl⟩

theorem inc_blind : Blind Alike (pageRefInc page) := alike_modify fun _ data => ⟨data, rfl⟩

theorem dec_blind : Blind Alike (pageRefDec page) := alike_modify fun _ data => ⟨data, rfl⟩

theorem ref_blind : Blind Alike (pageRef page) := alike_get (fun _ _ => rfl) fun _ => blind_pure

theorem copy_blind {dst src : Nat} : Blind Alike (copyPage dst src) := alike_modify fun _ _ => ⟨_, rfl⟩

theorem set_bytes_blind {off size : Nat} {bytes : Nat → Nat} : Blind Alike (setBytes page off size bytes) :=
  alike_modify fun _ _ => ⟨_, rfl⟩

theorem remove_blind : Blind Alike (pageRemovePte mm la) := by
  refine blind_bind load_blind fun pte => blind_ite (fun _ => ?_) fun _ => blind_pure
  refine blind_bind dec_blind fun _ => blind_bind ref_blind fun ref => blind_ite (fun _ => ?_) fun _ => store_blind
  exact blind_bind free_blind fun _ => store_blind

theorem insert_blind {table : Bool} : Blind Alike (pageInsert mm page la perm table) := by
  unfold pageInsert
  refine blind_ite (fun _ => blind_pure) fun _ => ?_
  refine blind_bind inc_blind fun _ => blind_bind load_blind fun pte => ?_
  have last : Blind Alike (do store mm la (pteCreate page perm); return 0 : CowM Int) :=
    blind_bind store_blind fun _ => blind_pure
  refine blind_ite (fun _ => blind_ite (fun _ => ?_) fun _ => ?_) fun _ => last
  · exact blind_bind dec_blind fun _ => last
  · exact blind_bind remove_blind fun _ => last

theorem pgdir_alloc_blind : Blind Alike (pgdirAllocPage mm la perm) := by
  refine blind_bind alloc_blind fun answer => ?_
  cases answer with
  | none => exact blind_pure
  | some page =>
    refine blind_bind kmalloc_blind fun table => blind_bind insert_blind fun ret => ?_
    refine blind_ite (fun _ => ?_) fun _ => ?_
    · exact blind_bind free_blind fun _ => blind_pure
    · exact blind_bind ref_blind fun ref => blind_bind blind_check fun _ => blind_pure

theorem fault_blind {code : Fault} : Blind Alike (doPgfault mm code la) := by
  refine alike_get (fun _ _ => rfl) fun s => ?_
  split
  · exact blind_pure
  · refine blind_bind load_blind fun pte => blind_ite (fun _ => ?_) fun _ => blind_ite (fun _ => ?_) fun _ => ?_
    · refine blind_bind kmalloc_blind fun table => blind_ite (fun _ => blind_pure) fun _ => ?_
      refine blind_bind alloc_blind fun answer => ?_
      cases answer with
      | none => exact blind_pure
      | some page =>
        refine blind_bind insert_blind fun ret => blind_ite (fun _ => ?_) fun _ => blind_pure
        exact blind_bind free_blind fun _ => blind_pure
    · refine blind_bind ref_blind fun ref => blind_ite (fun _ => ?_) fun _ => ?_
      · refine blind_bind alloc_blind fun answer => ?_
        cases answer with
        | none => exact blind_pure
        | some npage =>
          refine blind_bind copy_blind fun _ => blind_bind remove_blind fun _ => blind_bind insert_blind fun ret => ?_
          refine blind_ite (fun _ => ?_) fun _ => blind_pure
          exact blind_bind free_blind fun _ => blind_pure
      · exact blind_bind store_blind fun _ => blind_pure
    · exact blind_ite (fun _ => blind_pure) fun _ => blind_pure

theorem check_overlap_blind {prev next : Vma} : Blind Alike (checkVmaOverlap prev next) :=
  blind_bind blind_check fun _ => blind_bind blind_check fun _ => blind_check

theorem insert_vma_blind {vma : Vma} : Blind Alike (insertVmaStruct mm vma) := by
  unfold insertVmaStruct
  refine blind_bind blind_check fun _ => alike_get (fun _ _ => rfl) fun s => ?_
  have last : ∀ list, Blind Alike (modify fun s => { s with vmas := Function.update s.vmas mm list } : CowM PUnit) :=
    fun list => alike_modify fun _ data => ⟨data, rfl⟩
  dsimp only
  split
  · refine blind_bind check_overlap_blind fun _ => ?_
    split
    · exact blind_bind check_overlap_blind fun _ => last _
    · exact last _
  · split
    · exact blind_bind check_overlap_blind fun _ => last _
    · exact last _

theorem mm_map_blind {addr len : Nat} {write : Bool} : Blind Alike (mmMap mm addr len write) := by
  unfold mmMap
  refine blind_ite (fun _ => blind_pure) fun _ => alike_get (fun _ _ => rfl) fun s => ?_
  have last : ∀ vma : Vma, Blind Alike (do
      let memory ← kmalloc
      if !memory then return -E_NO_MEM
      insertVmaStruct mm vma
      return 0 : CowM Int) := by
    intro vma
    refine blind_bind kmalloc_blind fun memory => blind_ite (fun _ => blind_pure) fun _ => ?_
    exact blind_bind insert_vma_blind fun _ => blind_pure
  split
  · exact blind_ite (fun _ => blind_pure) fun _ => last _
  · exact last _

theorem fill_pages_blind {bytes : Nat → Nat} {last fuel start : Nat} :
    Blind Alike (fillPages mm perm bytes last fuel la start page) := by
  induction fuel generalizing la start page with
  | zero => exact blind_stop
  | succ fuel ih =>
    refine blind_ite (fun _ => blind_bind pgdir_alloc_blind fun answer => ?_) fun _ => blind_pure
    cases answer with
    | none => exact blind_pure
    | some page => exact blind_bind set_bytes_blind fun _ => ih

theorem clear_tail_blind {start last : Nat} : Blind Alike (clearTail page la start last) := by
  refine blind_bind blind_check fun _ => blind_bind set_bytes_blind fun _ => ?_
  exact blind_bind blind_check fun _ => blind_pure

theorem last_fill_blind {ph : ProgHdr} {la start fuel page : Nat} : Blind Alike (do
    match ← fillPages mm ph.perm (fun _ => 0) ph.memEnd fuel la start page with
    | none => return -E_NO_MEM
    | some _ => return 0 : CowM Int) := by
  refine blind_bind fill_pages_blind fun filled => ?_
  cases filled with
  | none | some _ => exact blind_pure

theorem load_section_blind {elf : Elf} {ph : ProgHdr} : Blind Alike (loadSection mm elf ph) := by
  unfold loadSection
  refine blind_ite (fun _ => blind_pure) fun _ => blind_ite (fun _ => blind_pure) fun _ => ?_
  refine blind_bind mm_map_blind fun ret => blind_ite (fun _ => blind_pure) fun _ => ?_
  refine blind_bind fill_pages_blind fun filled => ?_
  cases filled with
  | none => exact blind_pure
  | some place =>
    obtain ⟨la, start, page⟩ := place
    refine blind_ite (fun _ => blind_pure) fun _ => ?_
    exact blind_ite (fun _ => blind_bind clear_tail_blind fun start => last_fill_blind) fun _ => last_fill_blind

theorem load_sections_blind {elf : Elf} {phs : List ProgHdr} : Blind Alike (loadSections mm elf phs) := by
  induction phs with
  | nil => exact blind_pure
  | cons ph rest ih => exact blind_bind load_section_blind fun ret => blind_ite (fun _ => blind_pure) fun _ => ih

theorem stack_page_blind {i : Nat} : Blind Alike (stackPage mm i) :=
  blind_bind pgdir_alloc_blind fun _ => blind_check

theorem build_stack_blind : Blind Alike (buildStack mm) := by
  refine blind_bind mm_map_blind fun ret => blind_ite (fun _ => blind_pure) fun _ => ?_
  refine blind_bind stack_page_blind fun _ => blind_bind stack_page_blind fun _ => ?_
  exact blind_bind stack_page_blind fun _ => blind_bind stack_page_blind fun _ => blind_pure

theorem unmap_range_blind {count : Nat} : Blind Alike (unmapRange mm la count) := by
  induction count generalizing la with
  | zero => exact blind_pure
  | succ count ih => exact blind_bind remove_blind fun _ => ih

theorem unmap_all_blind {list : List Vma} : Blind Alike (unmapAll mm list) := by
  induction list with
  | nil => exact blind_pure
  | cons vma list ih => exact blind_bind unmap_range_blind fun _ => ih

theorem exit_mmap_blind : Blind Alike (exitMmap mm) := by
  refine alike_get (fun _ _ => rfl) fun s => blind_bind unmap_all_blind fun _ => ?_
  exact alike_modify fun _ data => ⟨data, rfl⟩

theorem load_icode_blind {elf : Elf} : Blind Alike (loadIcode mm elf) := by
  refine blind_bind kmalloc_blind fun memory => blind_ite (fun _ => blind_pure) fun _ => ?_
  refine blind_bind alloc_blind fun answer => ?_
  cases answer with
  | none => exact blind_pure
  | some pgdir =>
    refine blind_bind (alike_modify fun _ data => ⟨data, rfl⟩) fun _ => blind_ite (fun _ => ?_) fun _ => ?_
    · exact blind_bind free_blind fun _ => blind_pure
    · refine blind_bind load_sections_blind fun ret => ?_
      have last : ∀ ret : Int, Blind Alike (do
          if ret ≠ 0 then
            exitMmap mm
            freePage pgdir
          return ret : CowM Int) := by
        intro ret
        refine blind_ite (fun _ => ?_) fun _ => blind_pure
        exact blind_bind exit_mmap_blind fun _ => blind_bind free_blind fun _ => blind_pure
      refine blind_ite (fun _ => last ret) fun _ => blind_bind build_stack_blind fun ret => last ret

/- The faults of a process in two states that are alike. -/
theorem faults_alike {t u : CowState} {faults : List FaultCall} (run : Run (FaultStep mm) s faults u)
    (alike : Alike s t) : ∃ u', Run (FaultStep mm) t faults u' ∧ Alike u u' := by
  induction run generalizing t with
  | stop s => exact ⟨t, .stop t, alike⟩
  | @call s _ _ c _ first _ ih =>
    obtain ⟨ret, ran⟩ := first
    obtain ⟨data, rfl⟩ := alike
    obtain ⟨t', ran', alike'⟩ := fault_blind { s with pages := c.pages, tables := c.tables }
      { s with pages := c.pages, tables := c.tables, data := data } ⟨data, rfl⟩ ret _ ran
    obtain ⟨u', run', last⟩ := ih alike'
    exact ⟨u', .call ⟨ret, ran'⟩ run', last⟩

end

end Ucore.CowFork
