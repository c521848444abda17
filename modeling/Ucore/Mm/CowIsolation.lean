import Ucore.Lib.Transitions
import Ucore.Mm.CowSteps

/- Whole calls and runs: a frame that a process can write is nobody else's. -/
namespace Ucore.CowFork
open Programs Transitions

section
variable {α : Type} {m : CowM α} {pool : Finset Nat} {excess : Nat → Nat} {s t u : CowState}
  {mm la f page dst src start count off byte : Nat} {perm : Perm} {pte : Pte}

/- What is shown for each account is shown for all of them. -/
theorem meets_each {R : Finset Nat → (Nat → Nat) → CowState → Prop}
    (each : ∀ pool excess, Accounted pool excess s → Meets m s (fun _ t => R pool excess t) fun _ => True) :
    Meets m s (fun _ t => ∀ pool excess, Accounted pool excess s → R pool excess t) fun _ => True := by
  unfold Meets at each ⊢
  cases run : m s with
  | ok r =>
    intro pool excess accounted
    have after := each pool excess accounted
    rw [run] at after
    exact after
  | error e => trivial

theorem grows_meets (each : ∀ pool excess, Accounted pool excess s →
    Meets m s (fun _ t => ∃ larger, excess ≤ larger ∧ Accounted pool larger t) fun _ => True) :
    Meets m s (fun _ t => Grows s t) fun _ => True := meets_each each

theorem exact_meets (each : ∀ pool excess, Accounted pool excess s →
    Meets m s (fun _ t => Accounted pool excess t) fun _ => True) :
    Meets m s (fun _ t => Exact s t) fun _ => True := meets_each each

theorem meets_kmalloc {Q : Bool → CowState → Prop} {E : CowStop → Prop} :
    Meets kmalloc s Q E ↔ Q (s.tables.head?.getD false) { s with tables := s.tables.tail } := Iff.rfl

theorem kmalloc_exact : Keeps Exact kmalloc := fun _ => meets_kmalloc.mpr (same_exact ⟨rfl, rfl, rfl⟩)

/- The frame is the caller's, and nothing else changes. -/
def CowState.take (s : CowState) (page : Nat) : CowState :=
  { s with pages := s.pages.tail, free := s.free.erase page }

/- The frame that the allocator has for the next call. -/
def CowState.offered (s : CowState) : Option Nat := s.pages.head?.join.filter fun page => page ∈ s.free

theorem offered_free (offered : s.offered = some page) : page ∈ s.free := by
  obtain ⟨_, free⟩ := Option.filter_eq_some_iff.mp offered
  exact of_decide_eq_true free

theorem alloc_run : allocPage s = .ok (s.offered, match s.offered with
    | some page => s.take page
    | none => { s with pages := s.pages.tail }) := by
  unfold allocPage CowState.offered
  rw [run_get_bind, run_set_bind]
  rcases s.pages.head? with _ | _ | page
  · rfl
  · rfl
  · change (ite (page ∈ s.free) _ _ : CowM (Option Nat)) _ = _
    by_cases free : page ∈ s.free
    · have kept : (some (some page)).join.filter (fun page => page ∈ s.free) = some page := by
        simp [free]
      rw [if_pos free, kept]
      rfl
    · have dropped : (some (some page)).join.filter (fun page => page ∈ s.free) = none := by
        simp [free]
      rw [if_neg free, dropped]
      rfl

theorem alloc_some (offered : s.offered = some page) : allocPage s = .ok (some page, s.take page) := by
  rw [alloc_run, offered]

theorem alloc_none (offered : s.offered = none) :
    allocPage s = .ok (none, { s with pages := s.pages.tail }) := by
  rw [alloc_run, offered]

theorem take_accounted (page : Nat) (accounted : Accounted pool excess s) :
    Accounted (pool.erase page) excess (s.take page) := by
  refine ⟨accounted.sole, accounted.counted, ?_, ?_⟩
  · intro f mem
    exact accounted.free f (Finset.mem_of_mem_erase mem)
  · intro f mem zero
    obtain ⟨other, before⟩ := Finset.mem_erase.mp mem
    exact Finset.mem_erase.mpr ⟨other, accounted.back f before zero⟩

theorem take_unmapped (accounted : Accounted pool excess s) (free : page ∈ s.free) :
    (s.take page).Unmapped page :=
  fun x maps => unmapped_of_zero accounted (accounted.free page free) x maps

/- A frame of the allocator that is mapped, or given back. -/
theorem restore (accounted : Accounted (pool.erase page) excess s) (used : s.ref page ≠ 0) :
    Accounted pool excess s := by
  refine ⟨accounted.sole, accounted.counted, accounted.free, ?_⟩
  intro f mem zero
  have other : f ≠ page := by
    rintro rfl
    exact used zero
  exact accounted.back f (Finset.mem_erase.mpr ⟨other, mem⟩) zero

theorem give_back (accounted : Accounted (pool.erase page) excess s) (zero : s.ref page = 0) :
    Accounted pool excess { s with free := insert page s.free } := by
  refine ⟨accounted.sole, accounted.counted, ?_, ?_⟩
  · intro f mem
    rcases Finset.mem_insert.mp mem with rfl | old
    · exact zero
    · exact accounted.free f old
  · intro f mem none
    by_cases same : f = page
    · exact Finset.mem_insert.mpr (.inl same)
    · exact Finset.mem_insert_of_mem (accounted.back f (Finset.mem_erase.mpr ⟨same, mem⟩) none)

/- A fresh frame is mapped. -/
theorem insert_fresh (mm la : Nat) (perm : Perm) (accounted : Accounted (pool.erase page) excess s) (unmapped : s.Unmapped page)
    (taken : page ∉ s.free) :
    ∃ u, pageInsert mm page la perm true s = .ok (0, u) ∧ Accounted pool excess u ∧
      Entered s u mm la (pteCreate page perm) := by
  obtain ⟨u, run, after, entered⟩ := insert_run mm la perm accounted taken
    fun x maps => absurd maps (unmapped x)
  exact ⟨u, run, restore after (ref_pos after (entered_maps entered)), entered⟩

theorem remove_exact : Keeps Exact (pageRemovePte mm la) := by
  intro s
  by_cases valid : (s.pte mm la).v = true
  · exact meets_of_run (remove_run valid) fun pool excess accounted => drop_accounted accounted valid
  · exact meets_of_run (remove_none_run (Bool.eq_false_of_not_eq_true valid)) (refl_of Exact s)

theorem unmap_range_exact : Keeps Exact (unmapRange mm start count) := by
  induction count generalizing start with
  | zero => exact keeps_pure
  | succ count ih => exact keeps_bind remove_exact fun _ => ih

theorem unmap_all_exact {list : List Vma} : Keeps Exact (unmapAll mm list) := by
  induction list with
  | nil => exact keeps_pure
  | cons vma list ih => exact keeps_bind unmap_range_exact fun _ => ih

theorem exit_mmap_exact : Keeps Exact (exitMmap mm) := by
  apply keeps_bind keeps_get
  intro s
  exact keeps_bind unmap_all_exact fun _ => keeps_modify fun s => same_exact ⟨rfl, rfl, rfl⟩

/- Only the VMAs change. -/
theorem insert_vma_keeps {R : CowState → CowState → Prop} [IsPreorder CowState R] {vma : Vma}
    (quiet : ∀ s vmas, R s { s with vmas }) : Keeps R (insertVmaStruct mm vma) := by
  have overlap : ∀ prev next, Keeps R (checkVmaOverlap prev next) := fun prev next =>
    keeps_bind keeps_check fun _ => keeps_bind keeps_check fun _ => keeps_check
  apply keeps_bind keeps_check
  intro _
  apply keeps_bind keeps_get
  intro s
  have last : ∀ list, Keeps R (modify fun t : CowState =>
      { t with vmas := Function.update t.vmas mm list } : CowM Unit) :=
    fun list => keeps_modify fun s => quiet s _
  dsimp only
  cases ((s.vmas mm).takeWhile fun old => old.vmStart ≤ vma.vmStart).getLast? with
  | none =>
    cases ((s.vmas mm).dropWhile fun old => old.vmStart ≤ vma.vmStart).head? with
    | none => exact last _
    | some next => exact keeps_bind (overlap _ _) fun _ => last _
  | some prev =>
    apply keeps_bind (overlap _ _)
    intro _
    cases ((s.vmas mm).dropWhile fun old => old.vmStart ≤ vma.vmStart).head? with
    | none => exact last _
    | some next => exact keeps_bind (overlap _ _) fun _ => last _

theorem insert_vma_exact {vma : Vma} : Keeps Exact (insertVmaStruct mm vma) :=
  insert_vma_keeps fun _ _ => same_exact ⟨rfl, rfl, rfl⟩

theorem le_more : excess ≤ more excess f := by
  intro g
  unfold more
  by_cases same : g = f
  · rw [same, Function.update_self]
    exact Nat.le_succ _
  · rw [Function.update_of_ne same]

theorem share_grows : Keeps Grows (sharePage dst src la) := by
  intro s
  by_cases valid : (s.pte src la).v = true
  · cases table : s.tables.head?.getD false with
    | true =>
      apply grows_meets
      intro pool excess accounted
      obtain ⟨u, run, after, _⟩ := share_run dst accounted valid table
      apply meets_of_run run
      exact ⟨_, le_more, after⟩
    | false => exact meets_of_run (share_fail_run valid table) (exact_grows (same_exact ⟨rfl, rfl, rfl⟩))
  · exact meets_of_run (share_none_run (Bool.eq_false_of_not_eq_true valid)) (refl_of Grows s)

theorem copy_range_grows : Keeps Grows (copyRange dst src start count) := by
  induction count generalizing start with
  | zero => exact keeps_pure
  | succ count ih =>
    apply keeps_bind share_grows
    intro ret
    split_ifs
    · exact keeps_pure
    · exact ih

theorem dup_mmap_grows {list : List Vma} : Keeps Grows (dupMmap dst src list) := by
  induction list with
  | nil => exact keeps_pure
  | cons vma list ih =>
    apply keeps_bind (keeps_grows kmalloc_exact)
    intro enough
    split_ifs
    · exact keeps_pure
    · apply keeps_bind (keeps_grows insert_vma_exact)
      intro _
      apply keeps_bind copy_range_grows
      intro ret
      split_ifs
      · exact keeps_pure
      · exact ih

theorem copy_mm_grows : Keeps Grows (copyMm dst src) := by
  apply keeps_bind keeps_get
  intro s
  apply keeps_bind dup_mmap_grows
  intro ret
  split_ifs
  · exact keeps_bind (keeps_grows exit_mmap_exact) fun _ => keeps_pure
  · exact keeps_pure

def userReadWrite : Perm := { noPerm with u := true, r := true, w := true }

/-- What `do_pgfault` does in each case, with what it answers. -/
inductive Faulted (s : CowState) (mm : Nat) (code : Fault) (la : Nat) : Int → CowState → Prop where
  | outside (vma : s.findVma mm la = none) : Faulted s mm code la (-E_INVAL) s
  | noTable (vma : s.findVma mm la ≠ none) (absent : (s.pte mm la).v = false)
      (table : s.tables.head?.getD false = false) :
      Faulted s mm code la (-E_INVAL) { s with tables := s.tables.tail }
  | noPage (vma : s.findVma mm la ≠ none) (absent : (s.pte mm la).v = false)
      (table : s.tables.head?.getD false = true) (offered : s.offered = none) :
      Faulted s mm code la (-E_INVAL) { s with tables := s.tables.tail, pages := s.pages.tail }
  | fresh (vma : s.findVma mm la ≠ none) (absent : (s.pte mm la).v = false)
      (table : s.tables.head?.getD false = true) {page : Nat} (offered : s.offered = some page)
      {t : CowState} (entered : Entered s t mm la (pteCreate page userReadWrite)) :
      Faulted s mm code la 0 t
  | full (vma : s.findVma mm la ≠ none) (valid : (s.pte mm la).v = true)
      (cow : (s.pte mm la).perm.cow = true) (shared : s.ref (s.pte mm la).page > 1)
      (offered : s.offered = none) :
      Faulted s mm code la (-E_NO_MEM) { s with pages := s.pages.tail }
  | copied (vma : s.findVma mm la ≠ none) (valid : (s.pte mm la).v = true)
      (cow : (s.pte mm la).perm.cow = true) (shared : s.ref (s.pte mm la).page > 1) {page : Nat}
      (offered : s.offered = some page) {t : CowState}
      (pte : t.pte = (s.setPte mm la (pteCreate page { (s.pte mm la).perm.user with w := true })).pte)
      (data : t.data = Function.update s.data page (s.data (s.pte mm la).page)) (vmas : t.vmas = s.vmas) :
      Faulted s mm code la 0 t
  | upgraded (vma : s.findVma mm la ≠ none) (valid : (s.pte mm la).v = true)
      (cow : (s.pte mm la).perm.cow = true) (alone : s.ref (s.pte mm la).page ≤ 1) :
      Faulted s mm code la 0
        (s.setPte mm la { s.pte mm la with perm := { (s.pte mm la).perm with cow := false, w := true } })
  | refused (vma : s.findVma mm la ≠ none) (valid : (s.pte mm la).v = true)
      (cow : (s.pte mm la).perm.cow = false) (store : code = .store) (reader : (s.pte mm la).perm.w = false) :
      Faulted s mm code la (-E_NO_MEM) s
  | nothing (vma : s.findVma mm la ≠ none) (valid : (s.pte mm la).v = true)
      (cow : (s.pte mm la).perm.cow = false) (allowed : ¬ (code = .store ∧ (s.pte mm la).perm.w = false)) :
      Faulted s mm code la 0 s

theorem answers_accounted (accounted : Accounted pool excess s) {pages : List (Option Nat)}
    {tables : List Bool} : Accounted pool excess { s with pages, tables } :=
  same_accounted (s := s) ⟨rfl, rfl, rfl⟩ accounted

theorem pgfault_cases (mm la : Nat) (accounted : Accounted pool excess s) (code : Fault) :
    ∃ ret t, doPgfault mm code la s = .ok (ret, t) ∧ Accounted pool excess t ∧
      Faulted s mm code la ret t := by
  unfold doPgfault
  rw [run_get_bind]
  cases vma : s.findVma mm la with
  | none => exact ⟨_, _, rfl, accounted, .outside vma⟩
  | some v =>
    have inside : s.findVma mm la ≠ none := by
      rw [vma]
      exact Option.some_ne_none v
    change ∃ ret t, (ite ((!(s.pte mm la).v) = true) _ _ : CowM Int) s = _ ∧ _
    by_cases valid : (s.pte mm la).v = true
    · have present : ¬ (!(s.pte mm la).v) = true := by
        rw [valid]
        decide
      rw [if_neg present]
      change ∃ ret t, (ite ((s.pte mm la).perm.cow = true) _ _ : CowM Int) s = _ ∧ _
      cases cow : (s.pte mm la).perm.cow with
      | false =>
        have plain : ¬ false = true := by decide
        rw [if_neg plain]
        by_cases refused : code = .store ∧ (!(s.pte mm la).perm.w) = true
        · rw [if_pos refused]
          have reader : (s.pte mm la).perm.w = false := by simpa using refused.2
          exact ⟨_, _, rfl, accounted, .refused inside valid cow refused.1 reader⟩
        · rw [if_neg refused]
          have allowed : ¬ (code = .store ∧ (s.pte mm la).perm.w = false) := by simpa using refused
          exact ⟨_, _, rfl, accounted, .nothing inside valid cow allowed⟩
      | true =>
        rw [if_pos rfl]
        change ∃ ret t, (ite (s.ref (s.pte mm la).page > 1) _ _ : CowM Int) s = _ ∧ _
        by_cases shared : s.ref (s.pte mm la).page > 1
        · rw [if_pos shared]
          cases offered : s.offered with
          | none =>
            refine ⟨_, _, run_bind (alloc_none offered), answers_accounted accounted, ?_⟩
            exact .full inside valid cow shared offered
          | some page =>
            have free := offered_free offered
            have mapped : s.Maps (mm, la) (s.pte mm la).page := ⟨valid, rfl⟩
            have other : page ≠ (s.pte mm la).page := by
              rintro rfl
              exact mapped_not_free accounted mapped free
            let v : CowState := { s.take page with
              data := Function.update s.data page (s.data (s.pte mm la).page) }
            have kept : Accounted (pool.erase page) excess v :=
              same_accounted (s := s.take page) ⟨rfl, rfl, rfl⟩ (take_accounted page accounted)
            have dropped : Accounted (pool.erase page) excess (v.drop mm la) := drop_accounted kept valid
            have unmapped : (v.drop mm la).Unmapped page := by
              intro x maps
              exact take_unmapped accounted free x (drop_maps.mp maps).2
            have taken : page ∉ (v.drop mm la).free := by
              intro mem
              rcases drop_free.mp mem with old | ⟨same, _⟩
              · exact Finset.notMem_erase _ _ old
              · exact other same
            obtain ⟨u, inserted, after, entered⟩ := insert_fresh mm la
              { (s.pte mm la).perm.user with w := true } dropped unmapped taken
            refine ⟨0, u, ?_, after, ?_⟩
            · have copied : copyPage page (s.pte mm la).page (s.take page) = .ok ((), v) := rfl
              have removed : pageRemovePte mm la v = .ok ((), v.drop mm la) := remove_run valid
              refine (run_bind (alloc_some offered)).trans ((run_bind copied).trans ?_)
              exact (run_bind removed).trans (run_bind inserted)
            · exact .copied inside valid cow shared offered (entered.pte.trans set_set) entered.data entered.vmas
        · rw [if_neg shared]
          refine ⟨_, _, rfl, set_perm_accounted mm la _ accounted ?_, .upgraded inside valid cow (by omega)⟩
          intro _ y maps
          have here : s.Maps (mm, la) (s.pte mm la).page := ⟨valid, rfl⟩
          exact sole_of_one accounted (by omega) here maps
    · have absent : (s.pte mm la).v = false := Bool.eq_false_of_not_eq_true valid
      have missing : (!(s.pte mm la).v) = true := by
        rw [absent]
        rfl
      rw [if_pos missing]
      change ∃ ret t, (ite ((!(s.tables.head?.getD false)) = true) _ _ : CowM Int)
        { s with tables := s.tables.tail } = _ ∧ _
      cases table : s.tables.head?.getD false with
      | false => exact ⟨_, _, rfl, answers_accounted accounted, .noTable inside absent table⟩
      | true =>
        have enough : ¬ (!true) = true := by decide
        rw [if_neg enough]
        have quiet : Accounted pool excess { s with tables := s.tables.tail } :=
          answers_accounted accounted
        cases offered : s.offered with
        | none =>
          have answer : allocPage { s with tables := s.tables.tail } = .ok (none, _) := alloc_none offered
          refine ⟨_, _, run_bind answer, answers_accounted accounted, ?_⟩
          exact .noPage inside absent table offered
        | some page =>
          have answer : allocPage { s with tables := s.tables.tail } = .ok (some page, _) := alloc_some offered
          have free := offered_free offered
          obtain ⟨u, inserted, after, entered⟩ := insert_fresh mm la
            userReadWrite (take_accounted page quiet) (take_unmapped quiet free)
            (Finset.notMem_erase _ _)
          refine ⟨0, u, ?_, after, .fresh inside absent table offered ⟨entered.pte, entered.data, entered.vmas⟩⟩
          rw [run_bind answer]
          exact run_bind inserted

theorem pgfault_exact {code : Fault} : Keeps Exact (doPgfault mm code la) := by
  intro s
  apply exact_meets
  intro pool excess accounted
  obtain ⟨ret, t, run, after, _⟩ := pgfault_cases mm la accounted code
  exact meets_of_run run after

/-- A loaded page, or none. -/
inductive Loaded (s : CowState) (mm la : Nat) (perm : Perm) (bytes : Nat → Nat) : Int → CowState → Prop where
  | none {t : CowState} (pte : t.pte = s.pte) (data : t.data = s.data) (vmas : t.vmas = s.vmas) :
      Loaded s mm la perm bytes (-E_NO_MEM) t
  | page {page : Nat} (offered : s.offered = some page) {t : CowState}
      (pte : t.pte = (s.setPte mm la (pteCreate page perm)).pte)
      (data : t.data = Function.update s.data page bytes) (vmas : t.vmas = s.vmas) :
      Loaded s mm la perm bytes 0 t

theorem load_page_cases (accounted : Accounted pool excess s) (bytes : Nat → Nat) :
    Meets (loadPage mm la perm bytes) s (fun ret t => Accounted pool excess t ∧ Loaded s mm la perm bytes ret t)
      fun _ => True := by
  cases offered : s.offered with
  | none =>
    have run : pgdirAllocPage mm la perm s = .ok (none, { s with pages := s.pages.tail }) :=
      run_bind (alloc_none offered)
    exact meets_of_run (run_bind run) ⟨answers_accounted accounted, .none rfl rfl rfl⟩
  | some page =>
    have free := offered_free offered
    let v : CowState := { s.take page with tables := s.tables.tail }
    have taken : Accounted (pool.erase page) excess v :=
      answers_accounted (s := s.take page) (take_accounted page accounted)
    cases table : s.tables.head?.getD false with
    | false =>
      have answer : kmalloc (s.take page) = .ok (false, v) := by
        rw [← table]
        rfl
      have run : pgdirAllocPage mm la perm s = .ok (none, { v with free := insert page v.free }) :=
        (run_bind (alloc_some offered)).trans (run_bind answer)
      apply meets_of_run (run_bind run)
      exact ⟨give_back taken (accounted.free page free), .none rfl rfl rfl⟩
    | true =>
      have answer : kmalloc (s.take page) = .ok (true, v) := by
        rw [← table]
        rfl
      have unmapped : (s.take page).Unmapped page := take_unmapped accounted free
      obtain ⟨u, inserted, after, entered⟩ := insert_fresh mm la perm taken
        unmapped (Finset.notMem_erase _ _)
      have first : pgdirAllocPage mm la perm s =
          (do check .assertion ((← pageRef page) = 1); return some page : CowM (Option Nat)) u :=
        (run_bind (alloc_some offered)).trans ((run_bind answer).trans (run_bind inserted))
      have count : pageRef page u = .ok (u.ref page, u) := rfl
      rw [run_bind count] at first
      by_cases one : u.ref page = 1
      · have run : pgdirAllocPage mm la perm s = .ok (some page, u) := by
          rw [first]
          exact run_check_bind one
        apply meets_of_run (run_bind run)
        refine ⟨same_accounted (s := u) ⟨rfl, rfl, rfl⟩ after, ?_⟩
        refine .page offered entered.pte ?_ entered.vmas
        change Function.update u.data page bytes = _
        rw [entered.data]
        rfl
      · have run : pgdirAllocPage mm la perm s = .error .assertion := by
          rw [first]
          exact run_check_stop one
        unfold Meets loadPage
        rw [run_bind_stop run]
        trivial

theorem load_page_exact {bytes : Nat → Nat} : Keeps Exact (loadPage mm la perm bytes) := by
  intro s
  apply exact_meets
  intro pool excess accounted
  exact meets_mono (load_page_cases accounted bytes) (fun _ _ post => post.1) fun _ _ => trivial

/- Only a fork changes the excess of a frame. -/
theorem op_exact {op : CowOp} (other : ∀ dst src, op ≠ .fork dst src) : Keeps Exact op.run := by
  cases op with
  | addVma mm vma => exact insert_vma_exact
  | map mm la perm bytes => exact keeps_bind load_page_exact fun _ => keeps_pure
  | fork dst src => exact absurd rfl (other dst src)
  | fault mm code la => exact keeps_bind pgfault_exact fun _ => keeps_pure
  | write mm la off byte => exact keeps_modify fun s => same_exact ⟨rfl, rfl, rfl⟩
  | unmap mm start count => exact unmap_range_exact
  | exit mm => exact exit_mmap_exact

theorem op_grows (op : CowOp) : Keeps Grows op.run := by
  by_cases fork : ∃ dst src, op = .fork dst src
  · obtain ⟨dst, src, rfl⟩ := fork
    exact keeps_bind copy_mm_grows fun _ => keeps_pure
  · exact keeps_grows (op_exact fun dst src same => fork ⟨dst, src, same⟩)

theorem fresh_accounted (fresh : Fresh s) : Accounted s.free 0 s := by
  have unmapped : ∀ f, s.Unmapped f := by
    rintro f x ⟨valid, _⟩
    rw [fresh.empty] at valid
    cases valid
  refine ⟨fun x _ f first => absurd first (unmapped f x), ?_, fun f _ => fresh.free f, fun f mem _ => mem⟩
  intro f
  refine ⟨∅, fun x => ?_, fresh.free f⟩
  exact iff_of_false (Finset.notMem_empty x) (unmapped f x)

theorem step_grows {c : CowCall} (step : CowStep s c t) : Grows s t := by
  intro pool excess accounted
  have after := op_grows c.op { s with pages := c.pages, tables := c.tables }
  unfold Meets at after
  rw [step.2] at after
  exact after pool excess (answers_accounted accounted)

theorem run_accounted {s₀ : CowState} {cs : List CowCall} (fresh : Fresh s₀) (run : Run CowStep s₀ cs s) :
    ∃ excess, Accounted s₀.free excess s := by
  have keep : ∀ s c t, (∃ excess, Accounted s₀.free excess s) → CowStep s c t →
      ∃ excess, Accounted s₀.free excess t := by
    rintro s c t ⟨excess, accounted⟩ step
    obtain ⟨larger, _, after⟩ := step_grows step s₀.free excess accounted
    exact ⟨larger, after⟩
  exact run_invariant keep run ⟨0, fresh_accounted fresh⟩

end

def freshCow : CowState where
  pte := fun _ _ => noPte
  vmas := fun _ => []
  ref := fun _ => 0
  data := fun _ _ => 0
  free := {5, 6}
  pages := []
  tables := []

/- A child writes a page that it shares with its parent. -/
def childWrites : List CowCall :=
  [⟨.addVma 1 ⟨8, 9, true⟩, [], []⟩,
    ⟨.map 1 8 { noPerm with r := true, w := true, u := true } (fun _ => 7), [some 5], [true]⟩,
    ⟨.fork 2 1, [], [true, true]⟩, ⟨.fault 2 .store 8, [some 6], []⟩, ⟨.write 2 8 0 9, [], []⟩]

/- The state after a call that does not stop. -/
def CowState.after (s : CowState) (c : CowCall) : CowState :=
  match c.op.run { s with pages := c.pages, tables := c.tables } with
  | .ok (_, t) => t
  | .error _ => s

theorem step_after {s : CowState} {c : CowCall} (possible : c.op.Possible s)
    (ends : (c.op.run { s with pages := c.pages, tables := c.tables }).isOk = true) :
    CowStep s c (s.after c) := by
  refine ⟨possible, ?_⟩
  unfold CowState.after
  cases run : c.op.run { s with pages := c.pages, tables := c.tables } with
  | ok r => rfl
  | error e =>
    rw [run] at ends
    cases ends

end Ucore.CowFork
