import Ucore.Mm.ExecImageRuns

/- The files whose segments `load_icode` has in memory in the end. -/
namespace Ucore.Exec.Image
open Stopping Intervals
open CowFork (Perm pteUser PGSIZE USERBASE USERTOP USTACKTOP USTACKSIZE ELF_MAGIC ELF_PT_LOAD ProgHdr word
  roundDown roundUp UserAccess)

/-- The headers of a file from `pos` on. -/
def headers (file : Binary) : Nat → Nat → List ProgHdr
  | 0, _ => []
  | n + 1, pos => progHdr file pos :: headers file n (pos + sizeofProghdr)

def segmentsFrom (file : Binary) (n pos : Nat) : List ProgHdr :=
  (headers file n pos).filter fun ph => ph.p_type = ELF_PT_LOAD

def segments (file : Binary) : List ProgHdr := segmentsFrom file (ePhnum file) (ePhoff file)

/-- A file with its headers where the kernel can read them, whose segments are apart from each other. -/
structure Loadable (file : Binary) : Prop where
  header : sizeofElfhdr ≤ file.readable
  magic : eMagic file = ELF_MAGIC
  table : 0 < ePhnum file → ePhoff file + ePhnum file * sizeofProghdr ≤ file.readable
  each : ∀ ph ∈ segments file, Segment file ph
  apart : (segments file).Pairwise fun low high => RangesApart (pageRange low) (pageRange high)

def HasPages (ph : ProgHdr) : Prop := (pageRange ph).1 < (pageRange ph).2

/- A frame for the VMA of a segment, and five for each of its pages: the page, two tables for it, and two for the
buffer of the read. -/
def framesFor (hs : List ProgHdr) : Nat := (hs.map fun ph => 1 + 5 * pagesBetween (pageRange ph).1 (pageRange ph).2).sum

/-- With frames for the segments, two for the read of every header, and 17 for the address space, the ELF header and the
stack, and whatever was in them, the load ends with the image of every segment in the address space that the process
gets, unless the arguments are too long for the pages of the stack. -/
def BuildsImage (file : Binary) : Prop :=
  ∀ (args : ArgList) (memory : List Frame), framesFor (segments file) + 2 * ePhnum file + 17 ≤ memory.length →
    Holds (loadIcode file args) ⟨execState memory [], fun _ => none⟩
      (fun r t => r.1 = 0 ∧ r.2.isSome ∧ ∀ ph ∈ segments file, InMemory file ph t)
      fun stopped _ => stopped = .pageFault ∧ 4 * PGSIZE < args.pushed

/-- Nothing below `top` has changed. -/
def SameBelow (top : Nat) (s t : ImageState) : Prop :=
  ∀ a < top, t.load.view a = s.load.view a ∧ t.perms (entry a) = s.perms (entry a)

section
variable {s t u : ImageState} {mm : MmStruct} {file : Binary} {ph : ProgHdr} {addr len : Nat}

theorem same_pages_view {v w : LoadState} (same : w.pages = v.pages) : w.view = v.view := by
  unfold LoadState.view
  rw [same]

theorem SameBelow.trans {top : Nat} (one : SameBelow top s t) (two : SameBelow top t u) : SameBelow top s u :=
  fun a below => ⟨(two a below).1.trans (one a below).1, (two a below).2.trans (one a below).2⟩

/- A range that meets no VMA is registered. -/
theorem maps_free (vmFlags : VmFlags) (access : UserAccess (roundDown addr) (roundUp (word (addr + len))))
    (free : ∀ vma ∈ mm.mmapList, RangesApart (vma.vmStart, vma.vmEnd) (roundDown addr, roundUp (word (addr + len)))) :
    ∃ mm', mm.mapped addr len vmFlags = some mm' ∧ ∀ vma ∈ mm'.mmapList, vma ∈ mm.mmapList ∨
      (vma.vmStart, vma.vmEnd) = (roundDown addr, roundUp (word (addr + len))) := by
  have inserts : mm.Inserts ⟨roundDown addr, roundUp (word (addr + len)), vmFlags⟩ :=
    inserts_iff.mpr ⟨access.2.1, fun old mem => (free old mem).symm⟩
  refine ⟨mm.insert _ inserts, ?_, fun vma mem => ?_⟩
  · unfold MmStruct.mapped
    rw [if_neg (not_not.mpr access), found_overlaps inserts, if_neg (by nofun), dif_pos inserts]
  · rcases List.mem_append.mp mem with before | after
    · exact .inl (List.takeWhile_subset _ before)
    · rcases List.mem_cons.mp after with rfl | later
      · exact .inr rfl
      · exact .inl (List.dropWhile_subset _ later)

theorem map_run (vmFlags : VmFlags) (access : UserAccess (roundDown addr) (roundUp (word (addr + len))))
    (free : ∀ vma ∈ s.load.mm.mmapList, RangesApart (vma.vmStart, vma.vmEnd) (roundDown addr, roundUp (word (addr + len))))
    (io : s.load.io = []) (enough : 0 < s.load.memory.length) :
    ∃ t, keepPerms (mmMap addr len vmFlags) s = .ok 0 t ∧ t.load.view = s.load.view ∧ t.perms = s.perms ∧ Spent 1 s t ∧
      ∀ vma ∈ t.load.mm.mmapList, vma ∈ s.load.mm.mmapList ∨
        (vma.vmStart, vma.vmEnd) = (roundDown addr, roundUp (word (addr + len))) := by
  obtain ⟨mm', mapped, vmas⟩ := maps_free vmFlags access free
  obtain ⟨v, ran, gone⟩ := mm_map_runs mapped io enough
  have left := @mm_map_holds s.load addr len vmFlags
  unfold Holds at left
  rw [ran] at left
  exact ⟨⟨v, s.perms⟩, keep_run ran, same_pages_view left.pages, rfl, ⟨gone.io, gone.memory⟩, by rw [gone.mm]; exact vmas⟩

theorem load_segment_run (segment : Segment file ph) (loads : ph.p_type = ELF_PT_LOAD) (some_pages : HasPages ph)
    (free : ∀ vma ∈ s.load.mm.mmapList, RangesApart (vma.vmStart, vma.vmEnd) (pageRange ph)) (io : s.load.io = [])
    (enough : 1 + 5 * pagesBetween (pageRange ph).1 (pageRange ph).2 ≤ s.load.memory.length) :
    ∃ t, loadSegment file ph s = .ok (.ok ()) t ∧ SegmentAdded file ph s t ∧
      Spent (1 + 5 * pagesBetween (pageRange ph).1 (pageRange ph).2) s t := by
  have ⟨user, top⟩ := segment.user
  have exact_end : word (ph.p_va + ph.p_memsz) = ph.p_va + ph.p_memsz := (ends_exact segment).2
  obtain ⟨-, -, -, below⟩ := round_up_bounds top
  have access : UserAccess (roundDown ph.p_va) (roundUp (word (ph.p_va + ph.p_memsz))) := by
    rw [exact_end]
    refine ⟨?_, some_pages, below⟩
    unfold USERBASE roundDown PGSIZE at *
    omega
  obtain ⟨mapped, map_ran, view, perms, one, vmas⟩ := map_run (segmentFlags ph) access
    (by rw [exact_end]; exact free) io (by omega)
  rw [exact_end] at vmas
  have left := one.memory
  obtain ⟨t, ran, more, high, near, above, filled⟩ := fill_segment_run segment one.io (by omega)
  refine ⟨t, ?_, ⟨fun a from_va to_end => ?_, fun a below_top outside => ?_, ?_⟩, one.trans more⟩
  · unfold loadSegment
    rw [if_neg (not_not.mpr loads), if_neg (by have := segment.sizes; omega), run_bind map_ran, if_neg (by decide)]
    exact ran
  · refine ⟨filled.bytes a from_va to_end, filled.perms a ((round_down_le _).trans from_va) ?_⟩
    have := above (by omega)
    omega
  · obtain ⟨same_view, same_perms⟩ := filled.frame a below_top (by unfold pageRange at outside; dsimp only at outside; omega)
    rw [same_view, same_perms, view, perms]
    exact ⟨rfl, rfl⟩
  · rw [filled.mm]
    exact vmas

theorem held_frame (held : InMemory file ph s) (top : ph.p_va + ph.p_memsz ≤ USERTOP)
    (same : ∀ a, ph.p_va ≤ a → a < ph.p_va + ph.p_memsz → a < 2 ^ 39 →
      t.load.view a = s.load.view a ∧ t.perms (entry a) = s.perms (entry a)) : InMemory file ph t := by
  intro a from_va to_end
  obtain ⟨view, perms⟩ := same a from_va to_end (by unfold USERTOP at top; omega)
  rw [view, perms]
  exact held a from_va to_end

/- The bytes of a segment are in its pages. -/
theorem in_page_range (segment : Segment file ph) {a : Nat} (from_va : ph.p_va ≤ a) (to_end : a < ph.p_va + ph.p_memsz) :
    (pageRange ph).1 ≤ a ∧ a < (pageRange ph).2 :=
  ⟨(round_down_le _).trans from_va, to_end.trans_le (round_up_bounds segment.user.2).1⟩

/-- What the headers from one on leave. -/
structure SegmentsAdded (file : Binary) (hs : List ProgHdr) (s t : ImageState) : Prop where
  held : ∀ ph ∈ hs, InMemory file ph t
  frame : ∀ a < 2 ^ 39, (∀ ph ∈ hs, a < (pageRange ph).1 ∨ (pageRange ph).2 ≤ a) →
    t.load.view a = s.load.view a ∧ t.perms (entry a) = s.perms (entry a)
  vmas : ∀ vma ∈ t.load.mm.mmapList, vma ∈ s.load.mm.mmapList ∨ ∃ ph ∈ hs, (vma.vmStart, vma.vmEnd) = pageRange ph

theorem segments_nothing : SegmentsAdded file [] s s := ⟨nofun, fun _ _ _ => ⟨rfl, rfl⟩, fun _ mem => .inl mem⟩

theorem segments_cons {rest : List ProgHdr} (segment : Segment file ph) (apart : ∀ other ∈ rest, RangesApart (pageRange ph) (pageRange other))
    (one : SegmentAdded file ph s t) (more : SegmentsAdded file rest t u) : SegmentsAdded file (ph :: rest) s u where
  held := by
    refine List.forall_mem_cons.mpr ⟨held_frame one.held segment.user.2 fun a from_va to_end user => ?_, more.held⟩
    refine more.frame a user fun other mem => ?_
    have inside := in_page_range segment from_va to_end
    have := apart other mem
    unfold RangesApart Apart at this
    omega
  frame := by
    intro a user outside
    obtain ⟨here, later⟩ := List.forall_mem_cons.mp outside
    obtain ⟨view, perms⟩ := more.frame a user later
    obtain ⟨first_view, first_perms⟩ := one.frame a user here
    exact ⟨view.trans first_view, perms.trans first_perms⟩
  vmas := by
    intro vma mem
    rcases more.vmas vma mem with before | ⟨other, later, range⟩
    · exact (one.vmas vma before).imp_right fun range => ⟨ph, .head _, range⟩
    · exact .inr ⟨other, .tail _ later, range⟩

/- The read of a header. -/
theorem header_run {pos size : Nat} (io : s.load.io = []) (some_bytes : 0 < size) (inside : pos + size ≤ file.readable)
    (enough : 2 ≤ s.load.memory.length) : ∃ t, keepPerms (loadIcodeRead file pos size) s = .ok 0 t ∧
      t.load.mm = s.load.mm ∧ t.load.view = s.load.view ∧ t.perms = s.perms ∧ Spent 2 s t := by
  obtain ⟨v, read, mm, pages, clean, -, spent⟩ := load_icode_read_runs io some_bytes inside enough
  exact ⟨⟨v, s.perms⟩, keep_run read, mm, same_pages_view pages, rfl, clean, spent⟩

theorem segments_after {hs : List ProgHdr} (mm : t.load.mm = s.load.mm) (view : t.load.view = s.load.view)
    (perms : t.perms = s.perms) (added : SegmentsAdded file hs t u) : SegmentsAdded file hs s u where
  held := added.held
  frame := by
    rw [← view, ← perms]
    exact added.frame
  vmas := by
    rw [← mm]
    exact added.vmas

theorem load_segments_run (n : Nat) : ∀ {pos : Nat} {s : ImageState},
    (0 < n → pos + n * sizeofProghdr ≤ file.readable) →
    (∀ ph ∈ segmentsFrom file n pos, Segment file ph ∧ HasPages ph) →
    (segmentsFrom file n pos).Pairwise (fun low high => RangesApart (pageRange low) (pageRange high)) →
    (∀ ph ∈ segmentsFrom file n pos, ∀ vma ∈ s.load.mm.mmapList, RangesApart (vma.vmStart, vma.vmEnd) (pageRange ph)) →
    s.load.io = [] → framesFor (segmentsFrom file n pos) + 2 * n ≤ s.load.memory.length →
    ∃ t, loadSegments file n pos s = .ok (.ok ()) t ∧ SegmentsAdded file (segmentsFrom file n pos) s t ∧
      Spent (framesFor (segmentsFrom file n pos) + 2 * n) s t := by
  induction n with
  | zero =>
    intro pos s _ _ _ _ io _
    exact ⟨s, rfl, segments_nothing, (spent_nothing io).mono (Nat.zero_le _)⟩
  | succ n ih =>
    intro pos s table each apart free io enough
    have fits := readable_le file
    have inside := table n.succ_pos
    rw [Nat.succ_mul] at inside
    have next : word (pos + sizeofProghdr) = pos + sizeofProghdr := by
      unfold word
      unfold SFS_MAX_FILE_SIZE at fits
      omega
    obtain ⟨r, read, mm, view, perms, buffer⟩ := @header_run s file pos sizeofProghdr io (by decide) (by omega) (by omega)
    have frames := buffer.memory
    rw [← mm] at free
    unfold loadSegments
    rw [run_bind read, if_neg (by decide), next]
    by_cases loads : (progHdr file pos).p_type = ELF_PT_LOAD
    · have whole : segmentsFrom file (n + 1) pos = progHdr file pos :: segmentsFrom file n (pos + sizeofProghdr) :=
        List.filter_cons_of_pos (by simpa using loads)
      rw [whole] at each apart free enough ⊢
      obtain ⟨⟨segment, some_pages⟩, others⟩ := List.forall_mem_cons.mp each
      obtain ⟨here, later⟩ := List.forall_mem_cons.mp free
      obtain ⟨across, apart⟩ := List.pairwise_cons.mp apart
      have sum : framesFor (progHdr file pos :: segmentsFrom file n (pos + sizeofProghdr))
          = 1 + 5 * pagesBetween (pageRange (progHdr file pos)).1 (pageRange (progHdr file pos)).2 +
            framesFor (segmentsFrom file n (pos + sizeofProghdr)) := List.sum_cons
      rw [sum] at enough ⊢
      obtain ⟨t, ran, added, spent⟩ := load_segment_run segment loads some_pages here buffer.io (by omega)
      have left := spent.memory
      have still_free : ∀ ph ∈ segmentsFrom file n (pos + sizeofProghdr), ∀ vma ∈ t.load.mm.mmapList,
          RangesApart (vma.vmStart, vma.vmEnd) (pageRange ph) := by
        intro ph mem vma old
        rcases added.vmas vma old with before | range
        · exact later ph mem vma before
        · rw [range]
          exact across ph mem
      obtain ⟨u, rest_ran, more, rest_spent⟩ := @ih (pos + sizeofProghdr) t (fun _ => by omega) others apart still_free
        spent.io (by omega)
      rw [run_bind ran]
      exact ⟨u, rest_ran, segments_after mm view perms (segments_cons segment across added more),
        ((buffer.trans spent).trans rest_spent).mono (by omega)⟩
    · have whole : segmentsFrom file (n + 1) pos = segmentsFrom file n (pos + sizeofProghdr) :=
        List.filter_cons_of_neg (by simpa using loads)
      rw [whole] at each apart free enough ⊢
      have skipped : loadSegment file (progHdr file pos) r = .ok (.ok ()) r := by
        unfold loadSegment
        rw [if_pos loads]
        rfl
      rw [run_bind skipped]
      obtain ⟨u, rest_ran, more, rest_spent⟩ := ih (fun _ => by omega) each apart free buffer.io (by omega)
      exact ⟨u, rest_ran, segments_after mm view perms more, (buffer.trans rest_spent).mono (by omega)⟩

theorem stack_page_run {i : Nat} (some_page : 1 ≤ i) (few : i ≤ 4) (io : s.load.io = []) (enough : 3 ≤ s.load.memory.length) :
    ∃ t, stackPage i s = .ok ⟨⟩ t ∧ SameBelow (USTACKTOP - 4 * PGSIZE) s t ∧ Spent 3 s t ∧ t.load.mm = s.load.mm := by
  have low : USTACKTOP - 4 * PGSIZE ≤ USTACKTOP - i * PGSIZE := Nat.sub_le_sub_left (Nat.mul_le_mul_right _ few) _
  have user : USTACKTOP - 4 * PGSIZE ≤ 2 ^ 39 := by decide
  have aligned : PGSIZE ∣ USTACKTOP - i * PGSIZE := Nat.dvd_sub (by decide) (Dvd.intro_left _ rfl)
  obtain ⟨t, ran, filled, spent⟩ := alloc_fills (fun _ => 0) pteUser 0 aligned
    (by unfold USTACKTOP USERTOP PGSIZE; omega) io enough
  refine ⟨t, ?_, fun a below => filled.frame a (below.trans_le user) (.inl (below.trans_le low)), spent, filled.mm⟩
  unfold stackPage
  rw [run_bind ran]
  rfl

theorem build_stack_run (free : ∀ vma ∈ s.load.mm.mmapList, RangesApart (vma.vmStart, vma.vmEnd) (USTACKTOP - USTACKSIZE, USTACKTOP))
    (io : s.load.io = []) (enough : 13 ≤ s.load.memory.length) :
    ∃ t, buildStack s = .ok 0 t ∧ SameBelow (USTACKTOP - 4 * PGSIZE) s t := by
  have ⟨bottom, top⟩ : roundDown (USTACKTOP - USTACKSIZE) = USTACKTOP - USTACKSIZE ∧
      roundUp (word (USTACKTOP - USTACKSIZE + USTACKSIZE)) = USTACKTOP := by
    unfold roundUp roundDown word USTACKSIZE USTACKTOP USERTOP PGSIZE
    omega
  have access : UserAccess (USTACKTOP - USTACKSIZE) USTACKTOP := by
    unfold UserAccess USTACKSIZE USTACKTOP USERBASE USERTOP PGSIZE
    omega
  obtain ⟨mapped, map_ran, view, perms, one, -⟩ := @map_run s (USTACKTOP - USTACKSIZE) USTACKSIZE ⟨true, true, false, true⟩
    (by rw [bottom, top]; exact access) (by rw [bottom, top]; exact free) io (by omega)
  have left := one.memory
  obtain ⟨t₁, ran₁, same₁, spent₁, -⟩ := stack_page_run (le_refl 1) (by decide) one.io (by omega)
  have left₁ := spent₁.memory
  obtain ⟨t₂, ran₂, same₂, spent₂, -⟩ := stack_page_run (show 1 ≤ 2 by decide) (by decide) spent₁.io (by omega)
  have left₂ := spent₂.memory
  obtain ⟨t₃, ran₃, same₃, spent₃, -⟩ := stack_page_run (show 1 ≤ 3 by decide) (by decide) spent₂.io (by omega)
  have left₃ := spent₃.memory
  obtain ⟨t₄, ran₄, same₄, -, -⟩ := stack_page_run (show 1 ≤ 4 by decide) (by decide) spent₃.io (by omega)
  refine ⟨t₄, ?_, SameBelow.trans ?_ (((same₁.trans same₂).trans same₃).trans same₄)⟩
  · unfold buildStack
    rw [run_bind map_ran, if_neg (by decide), run_bind ran₁, run_bind ran₂, run_bind ran₃, run_bind ran₄]
    rfl
  · exact fun a _ => ⟨congrFun view a, congrFun perms _⟩

/- The arguments take addresses of the stack, and no others. -/
theorem arguments_hold {args : ArgList} (mem : stackVma ∈ s.load.mm.mmapList) (backed : Backed s.load stackLow USTACKTOP)
    (none_below : s.load.view (USTACKTOP - 4 * PGSIZE - 1) = none) (entry : Nat) :
    Holds (keepPerms (setupArgs args entry)) s (fun _ t => SameBelow (USTACKTOP - 4 * PGSIZE) s t) fun stopped _ =>
      stopped = .pageFault ∧ 4 * PGSIZE < args.pushed := by
  by_cases fits : args.pushed ≤ 4 * PGSIZE
  · obtain ⟨t, ran, stored⟩ := @setup_args_run s.load 0 args.kargv entry mem backed fits
    have layout : StackLayout args.kargv s.load t ⟨_, _, _, entry⟩ :=
      stored_layout args.few (fun arg mem => (args.short arg mem).2) fits stored
    refine holds_of_run (keep_run (show setupArgs args entry s.load = _ from ran)) fun a below => ⟨?_, rfl⟩
    refine layout.frame a fun item mem => .inl ?_
    have := layout.inside item mem
    omega
  · have missing : ¬ Backed s.load (USTACKTOP - args.pushed) USTACKTOP := by
      intro whole
      have here := whole (USTACKTOP - 4 * PGSIZE - 1) (by omega) (by decide)
      rw [← view_some (by decide), none_below] at here
      cases here
    obtain ⟨t, fault⟩ := stores_fault (setup_args_stores mem entry) missing
    unfold Holds
    rw [keep_stop fault]
    exact ⟨rfl, by omega⟩

theorem below_stack (segment : Segment file ph) (some_pages : HasPages ph) : (pageRange ph).2 < USTACKTOP - 4 * PGSIZE := by
  have apart := segment.stack
  have bound : (pageRange ph).2 ≤ USTACKTOP := (round_up_bounds segment.user.2).2.2.2
  have pages : USTACKTOP - USTACKSIZE < USTACKTOP - 4 * PGSIZE := by decide
  unfold RangesApart Apart at apart
  unfold HasPages at some_pages
  dsimp only at apart
  omega

/- Up to the segments, and what the load is where they end. -/
theorem load_image_begins (header : sizeofElfhdr ≤ file.readable) (magic : eMagic file = ELF_MAGIC) {memory : List Frame}
    (enough : 4 ≤ memory.length) : ∃ r : ImageState, r.load.mm.mmapList = [] ∧ (∀ a, r.load.view a = none) ∧
      r.load.io = [] ∧ memory.length ≤ r.load.memory.length + 4 ∧
      (∀ ret t u, loadSegments file (ePhnum file) (ePhoff file) r = .ok (.error ret) t → exitMmap t = .ok ⟨⟩ u →
        loadImage file ⟨execState memory [], fun _ => none⟩ = .ok (.error ret) u) ∧
      (∀ t u, loadSegments file (ePhnum file) (ePhoff file) r = .ok (.ok ()) t → buildStack t = .ok 0 u →
        loadImage file ⟨execState memory [], fun _ => none⟩ = .ok (.ok ()) u) := by
  obtain ⟨first, second, memory, rfl⟩ : ∃ first second rest, memory = first :: second :: rest := by
    match memory, enough with
    | first :: second :: rest, _ => exact ⟨first, second, rest, rfl⟩
  rw [List.length_cons, List.length_cons] at enough ⊢
  obtain ⟨s, s_is⟩ : ∃ s : ImageState, s = ⟨execState memory [], fun _ => none⟩ := ⟨_, rfl⟩
  have frames : s.load.memory = memory := by rw [s_is]; rfl
  obtain ⟨r, read, mm, view, -, buffer⟩ := @header_run s file 0 sizeofElfhdr (by rw [s_is]; rfl) (by decide) (by omega)
    (by rw [frames]; omega)
  have left := buffer.memory
  rw [frames] at left
  have mm_made := keep_run (s := ⟨execState (first :: second :: memory) [], fun _ => none⟩)
    (show kmalloc (execState (first :: second :: memory) []) = .ok true (execState (second :: memory) []) from rfl)
  have pgdir_made := keep_run (s := ⟨execState (second :: memory) [], fun _ => none⟩)
    (show setupPgdir (execState (second :: memory) []) = .ok true (execState memory []) from rfl)
  refine ⟨r, ?_, fun a => ?_, buffer.io, by omega, fun ret t u ran exits => ?_, fun t u ran stack_ran => ?_⟩
  · rw [mm, s_is]
    rfl
  · rw [view, s_is]
    exact ite_self none
  · unfold loadImage
    rw [run_bind mm_made, if_neg (by decide), run_bind pgdir_made, if_neg (by decide), ← s_is, run_bind read,
      if_neg (by decide), if_neg (not_not.mpr magic), run_bind ran]
    dsimp only
    rw [run_bind exits]
    rfl
  · unfold loadImage
    rw [run_bind mm_made, if_neg (by decide), run_bind pgdir_made, if_neg (by decide), ← s_is, run_bind read,
      if_neg (by decide), if_neg (not_not.mpr magic), run_bind ran]
    dsimp only
    rw [run_bind stack_ran, if_neg (by decide)]
    rfl

/- Up to the arguments. -/
theorem load_image_runs (loadable : Loadable file) (some_pages : ∀ ph ∈ segments file, HasPages ph) {memory : List Frame}
    (enough : framesFor (segments file) + 2 * ePhnum file + 17 ≤ memory.length) :
    ∃ t, loadImage file ⟨execState memory [], fun _ => none⟩ = .ok (.ok ()) t ∧ (∀ ph ∈ segments file, InMemory file ph t) ∧
      stackVma ∈ t.load.mm.mmapList ∧ Backed t.load stackLow USTACKTOP ∧ t.load.view (USTACKTOP - 4 * PGSIZE - 1) = none := by
  obtain ⟨r, no_vmas, empty, io, after_read, -, whole⟩ := load_image_begins loadable.header loadable.magic
    (by omega : 4 ≤ memory.length)
  obtain ⟨t, ran, added, spent⟩ := @load_segments_run file (ePhnum file) (ePhoff file) r loadable.table
    (fun ph mem => ⟨loadable.each ph mem, some_pages ph mem⟩) loadable.apart
    (fun ph _ vma mem => by rw [no_vmas] at mem; cases mem) io (by unfold segments at enough; omega)
  have left := spent.memory
  have off_stack : ∀ vma ∈ t.load.mm.mmapList, RangesApart (vma.vmStart, vma.vmEnd) (USTACKTOP - USTACKSIZE, USTACKTOP) := by
    intro vma mem
    rcases added.vmas vma mem with old | ⟨ph, here, range⟩
    · rw [no_vmas] at old
      cases old
    · rw [range]
      exact (loadable.each ph here).stack
  obtain ⟨u, stack_ran, same⟩ := build_stack_run off_stack spent.io (by unfold segments at enough; omega)
  have built := @build_stack_holds t.load
  unfold Holds at built
  rw [erased_run build_stack_erases stack_ran] at built
  refine ⟨u, whole t u ran stack_ran, fun ph mem => ?_, (built rfl).1, (built rfl).2, ?_⟩
  · have segment := loadable.each ph mem
    refine held_frame (added.held ph mem) segment.user.2 fun a from_va to_end _ => same a ?_
    exact (in_page_range segment from_va to_end).2.trans (below_stack segment (some_pages ph mem))
  · obtain ⟨view, -⟩ := same (USTACKTOP - 4 * PGSIZE - 1) (by decide)
    rw [view, (added.frame _ (by decide) fun ph mem => .inr ?_).1]
    · exact empty _
    · have := below_stack (loadable.each ph mem) (some_pages ph mem)
      omega

/-- A file whose segments have pages is loaded. -/
theorem load_icode_builds_image (loadable : Loadable file) (some_pages : ∀ ph ∈ segments file, HasPages ph) :
    BuildsImage file := by
  intro args memory enough
  obtain ⟨t, ran, held, mem, backed, none_below⟩ := load_image_runs loadable some_pages enough
  refine holds_bind.mpr (holds_of_run ran (holds_step (arguments_hold mem backed none_below _) fun tf u same =>
    ⟨rfl, rfl, fun ph there => ?_⟩))
  have segment := loadable.each ph there
  refine held_frame (held ph there) segment.user.2 fun a from_va to_end _ => same a ?_
  exact (in_page_range segment from_va to_end).2.trans (below_stack segment (some_pages ph there))

theorem segments_two_pages : segments twoPageElf = [⟨1, 4, 0, 0x800FF8, 16, 16⟩] := rfl

theorem readable_small (small : file.bytes.length ≤ maxBlocks * SFS_BLKSIZE) : file.readable = file.bytes.length :=
  min_eq_left small

theorem readable_two_pages : twoPageElf.readable = 120 := by
  have length : twoPageElf.bytes.length = 120 := by
    unfold twoPageElf
    simp only [List.length_append, List.length_cons, List.length_nil, List.length_replicate]
  rw [readable_small (by rw [length]; decide), length]

theorem two_pages_built : BuildsImage twoPageElf := by
  refine load_icode_builds_image ⟨?_, rfl, fun _ => ?_, ?_, ?_⟩ ?_
  · rw [readable_two_pages]
    decide
  · rw [readable_two_pages]
    exact show 64 + 1 * 56 ≤ 120 by decide
  · rw [segments_two_pages]
    refine List.forall_mem_singleton.mpr ⟨by decide, by decide, fun _ => ?_, .inl (by decide)⟩
    rw [readable_two_pages]
    exact show 0 + 16 ≤ 120 by decide
  · rw [segments_two_pages]
    exact List.pairwise_singleton _ _
  · rw [segments_two_pages]
    exact List.forall_mem_singleton.mpr (show 0x800000 < 0x802000 by decide)

def elfHeader (phnum : UInt8) : List UInt8 :=
  [0x7F, 0x45, 0x4C, 0x46] ++ List.replicate 28 0 ++ [64] ++ List.replicate 23 0 ++ [phnum] ++ List.replicate 7 0

/- The header of a segment without bytes of the file. -/
def bssHeader (page memsz : UInt8) : List UInt8 :=
  [1, 0, 0, 0, 6, 0, 0, 0] ++ List.replicate 8 0 ++ [0, 0, page, 0, 0, 0, 0, 0] ++ List.replicate 16 0 ++
    [memsz, 0, 0, 0, 0, 0, 0, 0] ++ List.replicate 8 0

theorem eight_bytes_segment (file : Binary) : Segment file ⟨1, 6, 0, 0x400000, 0, 8⟩ where
  sizes := by decide
  user := by decide
  contents := nofun
  stack := .inl (by decide)

/- Before the same segment an empty one, at the beginning of a page. -/
set_option maxRecDepth 4000 in
def emptySegmentElf : Binary := ⟨elfHeader 2 ++ bssHeader 0x30 0 ++ bssHeader 0x40 8, by decide⟩

theorem empty_segments :
    segments emptySegmentElf = [⟨1, 6, 0, 0x300000, 0, 0⟩, ⟨1, 6, 0, 0x400000, 0, 8⟩] := rfl

theorem empty_segment_loadable : Loadable emptySegmentElf := by
  have empty : Segment emptySegmentElf ⟨1, 6, 0, 0x300000, 0, 0⟩ := ⟨by decide, by decide, nofun, .inl (by decide)⟩
  have length : emptySegmentElf.bytes.length = 176 := by
    unfold emptySegmentElf elfHeader bssHeader
    simp only [List.length_append, List.length_cons, List.length_nil, List.length_replicate]
  have readable : emptySegmentElf.readable = 176 := by rw [readable_small (by rw [length]; decide), length]
  have table : ePhoff emptySegmentElf = 64 ∧ ePhnum emptySegmentElf = 2 := ⟨rfl, rfl⟩
  refine ⟨?_, rfl, fun _ => ?_, ?_, ?_⟩
  · rw [readable]
    decide
  · rw [readable, table.1, table.2]
    decide
  · rw [empty_segments]
    exact List.forall_mem_cons.mpr ⟨empty, List.forall_mem_singleton.mpr (eight_bytes_segment _)⟩
  · rw [empty_segments]
    exact List.pairwise_pair.mpr (.inl (by decide))

/- `mm_map` takes no empty range. -/
theorem empty_segment_stops (s : ImageState) :
    loadSegment emptySegmentElf (progHdr emptySegmentElf 64) s = .ok (.error (-E_INVAL)) s := by
  rw [show progHdr emptySegmentElf 64 = ⟨1, 6, 0, 0x300000, 0, 0⟩ from rfl]
  rfl

theorem exit_mmap_unmaps (s : ImageState) (a : Nat) :
    ∃ t, exitMmap s = .ok ⟨⟩ t ∧ (s.load.view a = none → t.load.view a = none) := by
  refine ⟨_, rfl, fun none_there => ?_⟩
  unfold LoadState.view at none_there ⊢
  dsimp only
  split_ifs at none_there ⊢
  · rfl
  · exact none_there
  · rfl

theorem empty_load_stops {memory : List Frame} (enough : 6 ≤ memory.length) :
    ∃ t, loadImage emptySegmentElf ⟨execState memory [], fun _ => none⟩ = .ok (.error (-E_INVAL)) t ∧
      t.load.view 0x400000 = none := by
  obtain ⟨header, magic, table, -, -⟩ := empty_segment_loadable
  obtain ⟨r, -, empty, io, left, stopped, -⟩ := load_image_begins header magic (by omega : 4 ≤ memory.length)
  have two : ePhoff emptySegmentElf = 64 ∧ ePhnum emptySegmentElf = 2 := ⟨rfl, rfl⟩
  rw [two.1, two.2] at table stopped
  have inside := table two_pos
  obtain ⟨t, read, -, view, -, -⟩ := @header_run r emptySegmentElf 64 sizeofProghdr io (by decide) (by omega) (by omega)
  have stops : loadSegments emptySegmentElf 2 64 r = .ok (.error (-E_INVAL)) t := by
    unfold loadSegments
    rw [run_bind read, if_neg (by decide), run_bind (empty_segment_stops t)]
    rfl
  obtain ⟨u, exits, unmapped⟩ := exit_mmap_unmaps t 0x400000
  refine ⟨u, stopped _ t u stops exits, unmapped ?_⟩
  rw [view]
  exact empty _

/-- However much memory there is, the file is refused with its other segment, since `mm_map` takes no empty range. -/
theorem empty_segment_refused : Loadable emptySegmentElf ∧ ∀ args memory, 6 ≤ memory.length → ∃ t,
    loadIcode emptySegmentElf args ⟨execState memory [], fun _ => none⟩ = .ok (-E_INVAL, none) t ∧
      ¬ ∀ ph ∈ segments emptySegmentElf, InMemory emptySegmentElf ph t := by
  refine ⟨empty_segment_loadable, fun args memory enough => ?_⟩
  obtain ⟨t, stops, unmapped⟩ := empty_load_stops enough
  refine ⟨t, ?_, fun held => ?_⟩
  · unfold loadIcode
    rw [run_bind stops]
    rfl
  · rw [empty_segments] at held
    have byte := (held _ (.tail _ (.head _)) 0x400000 (by decide) (by decide)).1
    rw [unmapped] at byte
    cases byte

end

end Ucore.Exec.Image
