import Ucore.Mm.ExecSteps

/- The pages of the segments against the VMAs: where a sum of a header wraps, `mm_map` sees one page, and the
   copy goes on from the address that does not wrap. -/
namespace Ucore.Exec
open Stopping Intervals
open CowFork (PGSIZE USERBASE USERTOP USTACKTOP USTACKSIZE ELF_MAGIC ELF_PT_LOAD ProgHdr word roundDown roundUp
  UserAccess)

/-- The page at `la` is in the space of the user and in a VMA. -/
def Covered (vmas : List Vma) (la : Nat) : Prop :=
  UserAccess la (la + PGSIZE) ∧ ∃ vma ∈ vmas, vma.vmStart ≤ la ∧ la + PGSIZE ≤ vma.vmEnd

/-- What is done to the page stays in it, and the page belongs to a VMA that has been registered. -/
def Touch.Inside (touch : Touch) : Prop := touch.off + touch.size ≤ PGSIZE ∧ Covered touch.vmas touch.la

def AllInside (s : LoadState) : Prop := ∀ touch ∈ s.touches, touch.Inside

/-- What `mm_map` makes of the VMAs where there is memory for another. -/
def MmStruct.mapped (mm : MmStruct) (addr len : Nat) (vmFlags : VmFlags) : Option MmStruct :=
  if ¬ UserAccess (roundDown addr) (roundUp (word (addr + len))) then none
  else if (mm.findVma (roundDown addr)).any (fun vma => roundUp (word (addr + len)) > vma.vmStart) then none
  else if inserts : mm.Inserts ⟨roundDown addr, roundUp (word (addr + len)), vmFlags⟩ then some (mm.insert _ inserts)
  else none

/-- The file has the bytes of the segment up to the address `stop`, where the kernel can read them. -/
def HasBytes (file : Binary) (ph : ProgHdr) (stop : Nat) : Prop :=
  ph.p_offset + (stop - ph.p_va) ≤ file.readable

/-- The end of the segment wraps, and the copy from the file gets to an address where there is a page without a
VMA to map, or a rest of a page to clear. -/
def Astray (file : Binary) (mm : MmStruct) (ph : ProgHdr) : Prop :=
  2 ^ 64 ≤ ph.p_va + ph.p_memsz ∧ ∃ stop, ph.p_va < stop ∧ HasBytes file ph stop ∧
    ((stop < ph.fileEnd ∧ PGSIZE ∣ stop ∧ ¬ Covered mm.mmapList stop) ∨ (stop = ph.fileEnd ∧ ¬ PGSIZE ∣ stop))

/-- None of the headers from `pos` on that `load_icode` comes to goes astray. -/
def Sound (file : Binary) : Nat → Nat → MmStruct → Prop
  | 0, _, _ => True
  | n + 1, pos, mm =>
      let ph := progHdr file pos
      pos + sizeofProghdr ≤ file.readable →
        if ph.p_type ≠ ELF_PT_LOAD then Sound file n (word (pos + sizeofProghdr)) mm
        else ph.p_filesz ≤ ph.p_memsz → ∀ mm', mm.mapped ph.p_va ph.p_memsz (segmentFlags ph) = some mm' →
          ¬ Astray file mm' ph ∧
          ((ph.p_va < ph.fileEnd → HasBytes file ph ph.fileEnd) → Sound file n (word (pos + sizeofProghdr)) mm')

section
variable {file : Binary} {ph : ProgHdr} {s t u : LoadState} {mm : MmStruct} {la start first last : Nat}

theorem turn_end (low : la ≤ start) (high : start < la + PGSIZE) (more : start < last) :
    start + (PGSIZE - (start - la) - (if last < la + PGSIZE then la + PGSIZE - last else 0)) = min last (la + PGSIZE) := by
  split_ifs <;> omega

theorem covered_below {vmas : List Vma} (covered : Covered vmas la) : word (la + PGSIZE) = la + PGSIZE := by
  have top := covered.1.2.2
  unfold word
  unfold USERTOP at top
  omega

theorem inside_cons {touch : Touch} {touches : List Touch} (inside : touch.Inside)
    (others : ∀ old ∈ touches, old.Inside) : ∀ old ∈ touch :: touches, old.Inside := by
  intro old mem
  rcases List.mem_cons.mp mem with rfl | mem
  · exact inside
  · exact others old mem

/-- What a turn of either loop does to its page; after it the segment is done up to `start + size`. -/
def Acts (act : Nat → Nat → Nat → Nat → Int → LoadM (Except Int Int)) (first : Nat) (Done : Nat → Prop) : Prop :=
  ∀ la off size start ret u, 0 < size → start = first ∨ Done start → Holds (act la off size start ret) u (fun r t =>
    t.mm = u.mm ∧ t.touches = ⟨u.mm.mmapList, la, off, size⟩ :: u.touches ∧ ∀ ret', r = .ok ret' → Done (start + size))
    fun _ t => t.touches = ⟨u.mm.mmapList, la, off, size⟩ :: u.touches

/-- Where a loop is: at its first address, or at the beginning of a later page. -/
def At (first last : Nat) (Done : Nat → Prop) (la start : Nat) : Prop :=
  (la = roundDown first ∧ start = first) ∨ (start = la ∧ first < la ∧ PGSIZE ∣ la ∧ Done la ∧ la < last)

/-- Where a loop ends: at the last address, in or at the end of a page of the segment, or where it began. -/
structure Ended (vmas : List Vma) (last la start : Nat) (Done : Nat → Prop) (la' start' : Nat) : Prop where
  turned : start < last → start' = last ∧ PGSIZE ∣ la' ∧ last ≤ la' ∧ la' < last + PGSIZE ∧ PGSIZE ≤ la' ∧
    Covered vmas (la' - PGSIZE) ∧ Done last
  idle : last ≤ start → la' = la ∧ start' = start

theorem fill_inside {act : Nat → Nat → Nat → Nat → Int → LoadM (Except Int Int)} {Done : Nat → Prop}
    (acts : Acts act first Done) (begins : first < last → Covered mm.mmapList (roundDown first))
    (later : ∀ la, PGSIZE ∣ la → first < la → la < last → Done la → Covered mm.mmapList la) (fuel : Nat) :
    ∀ la start ret u, u.mm = mm → AllInside u → (start < last → At first last Done la start) →
      Holds (fillPages act last fuel la start ret) u (fun r t => t.mm = mm ∧ AllInside t ∧
        ∀ la' start' ret', r = .ok (la', start', ret') → Ended mm.mmapList last la start Done la' start')
        fun _ t => AllInside t := by
  induction fuel with
  | zero =>
    intro la start ret u same inside place
    refine ⟨same, inside, fun la' start' ret' ends => ?_⟩
    by_cases more : start < last
    · rw [if_pos more] at ends
      cases ends
    · rw [if_neg more] at ends
      cases ends
      exact ⟨fun turned => absurd turned more, fun _ => ⟨rfl, rfl⟩⟩
  | succ fuel ih =>
    intro la start ret u same inside place
    unfold fillPages
    by_cases ended : last ≤ start
    · rw [if_pos ended]
      refine ⟨same, inside, fun la' start' ret' ends => ?_⟩
      cases ends
      exact ⟨fun turned => absurd turned (by omega), fun _ => ⟨rfl, rfl⟩⟩
    rw [if_neg ended]
    have more : start < last := by omega
    obtain ⟨aligned, low, high, covered, done⟩ : PGSIZE ∣ la ∧ la ≤ start ∧ start < la + PGSIZE ∧
        Covered mm.mmapList la ∧ (start = first ∨ Done start) := by
      rcases place more with ⟨rfl, rfl⟩ | ⟨rfl, after, aligned, done, _⟩
      · refine ⟨Dvd.intro_left _ rfl, ?_, ?_, begins more, .inl rfl⟩ <;> unfold roundDown PGSIZE <;> omega
      · exact ⟨aligned, le_rfl, by unfold PGSIZE; omega, later start aligned after more done, .inr done⟩
    refine holds_step (holds_mono pgdir_alloc_page_holds (fun _ _ allocated => allocated) fun _ _ never => never.elim)
      fun granted t allocated => ?_
    cases granted with
    | false =>
      refine ⟨allocated.mm.trans same, ?_, fun _ _ _ ends => by cases ends⟩
      unfold AllInside
      rwa [allocated.touches]
    | true =>
      have next : word (la + PGSIZE) = la + PGSIZE := covered_below covered
      have bound : la + PGSIZE ≤ USERTOP := covered.1.2.2
      have turn := turn_end low high more
      obtain ⟨size, size_is⟩ : ∃ size,
        size = PGSIZE - (start - la) - (if last < la + PGSIZE then la + PGSIZE - last else 0) := ⟨_, rfl⟩
      rw [← size_is] at turn
      have small : start - la + size ≤ PGSIZE := by omega
      have end_is : word (start + size) = min last (la + PGSIZE) := by
        rw [turn]
        unfold word
        unfold USERTOP at bound
        omega
      have touched : ∀ old ∈ ⟨t.mm.mmapList, la, start - la, size⟩ :: t.touches, old.Inside := by
        rw [allocated.touches, allocated.mm, same]
        exact inside_cons ⟨small, covered⟩ (inside_cons ⟨Nat.le_of_eq (Nat.zero_add _), covered⟩ inside)
      rw [if_neg (by decide), next]
      dsimp only
      rw [← size_is, end_is]
      refine holds_step (holds_mono (acts la (start - la) size start ret t (by omega) done) (fun _ _ acted => acted) ?_) ?_
      · intro stopped v touches
        unfold AllInside
        rwa [touches]
      rintro acted v ⟨same', touches, copied⟩
      have vmas : v.mm = mm := same'.trans (allocated.mm.trans same)
      have inside' : AllInside v := by
        unfold AllInside
        rwa [touches]
      cases acted with
      | error ret' => exact ⟨vmas, inside', fun _ _ _ ends => by cases ends⟩
      | ok ret' =>
        have reached := copied ret' rfl
        rw [turn] at reached
        refine holds_mono (ih (la + PGSIZE) (min last (la + PGSIZE)) ret' v vmas inside' fun further => ?_) ?_
          fun _ _ stopped => stopped
        · have here : min last (la + PGSIZE) = la + PGSIZE := by omega
          rw [here] at reached further ⊢
          refine .inr ⟨rfl, ?_, Dvd.dvd.add aligned (dvd_refl _), reached, further⟩
          rcases place more with ⟨rfl, rfl⟩ | ⟨rfl, after, _⟩ <;> omega
        · rintro r w ⟨final, all, ends⟩
          refine ⟨final, all, fun la' start' ret'' done => ⟨fun _ => ?_, fun turned => absurd turned ended⟩⟩
          obtain ⟨turned, idle⟩ := ends la' start' ret'' done
          by_cases further : min last (la + PGSIZE) < last
          · exact turned further
          · obtain ⟨la_is, start_is⟩ := idle (by omega)
            have here : min last (la + PGSIZE) = last := by omega
            rw [here] at reached start_is
            rw [la_is, Nat.add_sub_cancel]
            exact ⟨start_is, Dvd.dvd.add aligned (dvd_refl _), by omega, by omega, by omega, covered, reached⟩

theorem readable_le (file : Binary) : file.readable ≤ SFS_MAX_FILE_SIZE := (Nat.min_le_left _ _).trans file.fits

/- Where the file has the bytes up to an address, the place of that address in the file does not wrap. -/
theorem file_offset_exact (offset : ph.p_offset < 2 ^ 64) (done : start = ph.p_va ∨ HasBytes file ph start) :
    fileOffset ph start = ph.p_offset + (start - ph.p_va) := by
  refine Nat.mod_eq_of_lt ?_
  rcases done with rfl | has
  · omega
  · have fits := readable_le file
    unfold HasBytes at has
    unfold SFS_MAX_FILE_SIZE at fits
    omega

theorem read_acts (offset : ph.p_offset < 2 ^ 64) :
    Acts (readPage file ph) ph.p_va (fun a => ph.p_va ≤ a ∧ HasBytes file ph a) := by
  intro la off size start ret u some_bytes done
  refine holds_modify_bind.mpr (holds_bind.mpr (holds_mono load_icode_read_holds ?_ fun _ _ stopped => stopped.2))
  intro ret t read
  by_cases failed : ret ≠ 0
  · rw [if_pos failed]
    exact ⟨read.mm, read.touches, nofun⟩
  rw [if_neg failed]
  obtain ⟨mm', touches', -, -⟩ := @set_bytes_same ((file.bytes.drop (fileOffset ph start)).take size) t (la + off)
  refine ⟨mm'.trans read.mm, touches'.trans read.touches, fun _ _ => ?_⟩
  have whole := read.whole some_bytes (not_not.mp failed)
  rw [file_offset_exact offset (done.imp_right And.right)] at whole
  unfold HasBytes
  rcases done with rfl | ⟨after, _⟩ <;> omega

theorem clear_acts : Acts clearPage first fun _ => True := by
  intro la off size start ret u some_bytes done
  obtain ⟨mm, touches, -, -⟩ := @set_bytes_same (List.replicate size 0)
    { u with touches := ⟨u.mm.mmapList, la, off, size⟩ :: u.touches } (la + off)
  exact ⟨mm, touches, fun _ _ => trivial⟩

/- The segment goes on at least to the address that its page is filled to. -/
theorem clear_tail_is (low : la < start + PGSIZE) (high : start < la) (further : start ≤ last) (top : la ≤ USERTOP) :
    clearTail la start last u = .ok (min last la)
      ({ u with touches := ⟨u.mm.mmapList, la - PGSIZE, start + PGSIZE - la, min last la - start⟩ :: u.touches }.setBytes
        (la - PGSIZE + (start + PGSIZE - la)) (List.replicate (min last la - start) 0)) := by
  have size_is : (if last < la then word (PGSIZE - (start + PGSIZE - la) + 2 ^ 64 - (la - last))
      else PGSIZE - (start + PGSIZE - la)) = min last la - start := by
    unfold word
    unfold USERTOP at top
    unfold PGSIZE at *
    split_ifs <;> omega
  have small : start + PGSIZE - la + (min last la - start) ≤ PGSIZE := by omega
  have word_is : word (start + (min last la - start)) = min last la := by
    unfold word
    unfold USERTOP at top
    omega
  unfold clearTail
  dsimp only
  rw [size_is, word_is]
  change (check LoadStop.overrun (start + PGSIZE - la + (min last la - start) ≤ PGSIZE) >>= _) _ = _
  rw [run_check_bind small]
  change (check LoadStop.assertion _ >>= _) _ = _
  rw [run_check_bind (by omega)]
  rfl

theorem clear_tail_runs (low : la < start + PGSIZE) (high : start < la) (further : start ≤ last) (top : la ≤ USERTOP) :
    ∃ size w, clearTail la start last u = .ok (min last la) w ∧ start + PGSIZE - la + size ≤ PGSIZE ∧ w.mm = u.mm ∧
      w.io = u.io ∧ w.memory = u.memory ∧
      w.touches = ⟨u.mm.mmapList, la - PGSIZE, start + PGSIZE - la, size⟩ :: u.touches := by
  obtain ⟨mm, touches, memory, io⟩ := @set_bytes_same (List.replicate (min last la - start) 0)
    { u with touches := ⟨u.mm.mmapList, la - PGSIZE, start + PGSIZE - la, min last la - start⟩ :: u.touches }
    (la - PGSIZE + (start + PGSIZE - la))
  exact ⟨min last la - start, _, clear_tail_is low high further top, by omega, mm, io, memory, touches⟩

theorem inserts_iff {vma : Vma} : mm.Inserts vma ↔
    vma.vmStart < vma.vmEnd ∧ ∀ old ∈ mm.mmapList, Apart Vma.vmStart Vma.vmEnd vma old := by
  constructor
  · rintro ⟨proper, below, above⟩
    exact ⟨proper, (mm.inOrder.neighbours_iff proper).mp
      ⟨fun prev mem => (below prev mem).2.1, fun next mem => (above next mem).2.1⟩⟩
  · rintro ⟨proper, apart⟩
    obtain ⟨below, above⟩ := (mm.inOrder.neighbours_iff proper).mpr apart
    refine ⟨proper, fun prev last => ⟨mm.proper prev ?_, below prev last, proper⟩,
      fun next first => ⟨proper, above next first, mm.proper next ?_⟩⟩
    · exact List.takeWhile_subset _ (List.mem_of_mem_getLast? last)
    · exact List.dropWhile_subset _ (List.mem_of_mem_head? first)

theorem found_overlaps {vma : Vma} (inserts : mm.Inserts vma) : mm.findVma vma.vmStart = none := by
  obtain ⟨proper, apart⟩ := inserts_iff.mp inserts
  refine List.find?_eq_none.mpr fun old mem holds => ?_
  obtain ⟨low, high⟩ := of_decide_eq_true holds
  exact (apart old mem).not_covers ⟨le_rfl, proper⟩ ⟨low, high⟩

theorem mm_mapped_is {addr len : Nat} {vmFlags : VmFlags} (done : MmMapped s t addr len vmFlags 0) :
    s.mm.mapped addr len vmFlags = some t.mm := by
  obtain ⟨access, inserts, mm⟩ := done.mapped rfl
  unfold MmStruct.mapped
  rw [if_neg (not_not.mpr access), found_overlaps inserts, if_neg (by nofun), dif_pos inserts, mm]

/- The VMA of a segment has the pages from that of `p_va` on. -/
theorem mapped_covers {addr len : Nat} {vmFlags : VmFlags} {mm' : MmStruct}
    (mapped : mm.mapped addr len vmFlags = some mm') (aligned : PGSIZE ∣ la) (low : roundDown addr ≤ la)
    (high : la < roundUp (word (addr + len))) : Covered mm'.mmapList la := by
  unfold MmStruct.mapped at mapped
  split_ifs at mapped with access overlap inserts
  cases mapped
  obtain ⟨user, proper, top⟩ := access
  have next : la + PGSIZE ≤ roundUp (word (addr + len)) := by
    obtain ⟨k, rfl⟩ := aligned
    unfold roundUp roundDown PGSIZE at *
    omega
  exact ⟨⟨by omega, by unfold PGSIZE; omega, by omega⟩, _, List.mem_append_right _ (.head _), low, next⟩

theorem mapped_begins {addr len : Nat} {vmFlags : VmFlags} {mm' : MmStruct}
    (mapped : mm.mapped addr len vmFlags = some mm') : addr < USERTOP ∧ Covered mm'.mmapList (roundDown addr) ∧
      word (addr + len) ≤ roundUp (word (addr + len)) ∧ roundDown addr < word (addr + len) ∧ word (addr + len) ≤ USERTOP := by
  have whole := mapped
  unfold MmStruct.mapped at mapped
  split_ifs at mapped with access overlap inserts
  obtain ⟨user, proper, top⟩ := access
  refine ⟨?_, mapped_covers whole (Dvd.intro_left _ rfl) le_rfl proper, ?_, ?_, ?_⟩ <;>
    (unfold roundUp roundDown word PGSIZE USERTOP at *; omega)

/-- What is left of a segment that has been loaded. -/
def Loaded (file : Binary) (ph : ProgHdr) (s t : LoadState) : Prop :=
  (ph.p_type ≠ ELF_PT_LOAD ∧ t.mm = s.mm) ∨ (ph.p_type = ELF_PT_LOAD ∧ ph.p_filesz ≤ ph.p_memsz ∧
    s.mm.mapped ph.p_va ph.p_memsz (segmentFlags ph) = some t.mm ∧ (ph.p_va < ph.fileEnd → HasBytes file ph ph.fileEnd))

/-- The fields are numbers of 64 bits. -/
structure Fields (ph : ProgHdr) : Prop where
  offset : ph.p_offset < 2 ^ 64
  va : ph.p_va < 2 ^ 64
  filesz : ph.p_filesz < 2 ^ 64
  memsz : ph.p_memsz < 2 ^ 64

/- The end of the file's part and that of the segment, where the second sum does not wrap. -/
theorem ends_plain (sizes : ph.p_filesz ≤ ph.p_memsz) (plain : ¬ 2 ^ 64 ≤ ph.p_va + ph.p_memsz) :
    ph.p_va ≤ ph.fileEnd ∧ ph.fileEnd ≤ ph.memEnd := by
  unfold ProgHdr.fileEnd ProgHdr.memEnd word
  omega

/- The pages that `mm_map` has seen, the end of the segment wrapped or not. -/
theorem segment_covers {vmFlags : VmFlags} {mm' : MmStruct} (mapped : mm.mapped ph.p_va ph.p_memsz vmFlags = some mm')
    (aligned : PGSIZE ∣ la) (low : roundDown ph.p_va ≤ la) (high : la < ph.memEnd) : Covered mm'.mmapList la :=
  mapped_covers mapped aligned low (lt_of_lt_of_le high (mapped_begins mapped).2.2.1)

theorem round_down_le (addr : Nat) : roundDown addr ≤ addr := Nat.div_mul_le_self addr PGSIZE

theorem round_down_aligned (aligned : PGSIZE ∣ la) : roundDown la = la := Nat.div_mul_cancel aligned

theorem bss_inside {ret : Int} {vmFlags : VmFlags} (mapped : mm.mapped ph.p_va ph.p_memsz vmFlags = some u.mm) (inside : AllInside u)
    (after : start < ph.memEnd → la = roundDown start ∧ ph.p_va ≤ start) :
    Holds (do
      let filled ← fillPages clearPage ph.memEnd (← get).memory.length la start ret
      return filled.map fun _ => () : LoadM (Except Int Unit)) u (fun _ t => t.mm = u.mm ∧ AllInside t)
      fun _ t => AllInside t := by
  have begins : start < ph.memEnd → Covered u.mm.mmapList (roundDown start) := by
    intro more
    have below := round_down_le start
    refine segment_covers mapped (Dvd.intro_left _ rfl) ?_ (by omega)
    exact Nat.mul_le_mul_right _ (Nat.div_le_div_right (after more).2)
  have later : ∀ la, PGSIZE ∣ la → start < la → la < ph.memEnd → True → Covered u.mm.mmapList la := by
    intro la aligned above below _
    have first := round_down_le ph.p_va
    exact segment_covers mapped aligned (by have := (after (by omega)).2; omega) below
  refine holds_get_bind.mpr (holds_bind.mpr (holds_mono (fill_inside clear_acts begins later _ la start ret u rfl inside
    fun more => .inl ⟨(after more).1, rfl⟩) ?_ fun _ _ stopped => stopped))
  rintro r t ⟨same, all, -⟩
  exact ⟨same, all⟩

/- What follows the VMA, which `mapped` is of. -/
theorem fill_segment_inside {vmFlags : VmFlags} (fields : Fields ph) (inside : AllInside u) (sizes : ph.p_filesz ≤ ph.p_memsz)
    (mapped : mm.mapped ph.p_va ph.p_memsz vmFlags = some u.mm) (straight : ¬ Astray file u.mm ph) :
    Holds (fillSegment file ph) u (fun r t => AllInside t ∧ (r = .ok () → t.mm = u.mm ∧
      (ph.p_va < ph.fileEnd → HasBytes file ph ph.fileEnd))) fun _ t => AllInside t := by
  obtain ⟨user, begins, -⟩ := mapped_begins mapped
  have later : ∀ la, PGSIZE ∣ la → ph.p_va < la → la < ph.fileEnd → (ph.p_va ≤ la ∧ HasBytes file ph la) →
      Covered u.mm.mmapList la := by
    rintro la aligned above below ⟨-, has⟩
    by_cases wraps : 2 ^ 64 ≤ ph.p_va + ph.p_memsz
    · by_contra missing
      exact straight ⟨wraps, la, above, has, .inl ⟨below, aligned, missing⟩⟩
    · have first := round_down_le ph.p_va
      exact segment_covers mapped aligned (by omega) (lt_of_lt_of_le below (ends_plain sizes wraps).2)
  refine holds_get_bind.mpr (holds_bind.mpr (holds_mono (fill_inside (read_acts fields.offset) (fun _ => begins) later _
    (roundDown ph.p_va) ph.p_va _ u rfl inside fun _ => .inl ⟨rfl, rfl⟩) ?_ fun _ _ stopped => stopped))
  rintro r v ⟨same, insideV, ends⟩
  cases r with
  | error ret => exact ⟨insideV, nofun⟩
  | ok place =>
    obtain ⟨la, start, ret⟩ := place
    obtain ⟨turned, idle⟩ := ends la start ret rfl
    dsimp only
    have has : ph.p_va < ph.fileEnd → HasBytes file ph ph.fileEnd := fun more => (turned more).2.2.2.2.2.2.2
    rw [← same] at mapped
    have finish : ∀ {w : LoadState} {la start : Nat}, w.mm = v.mm → AllInside w →
        (start < ph.memEnd → la = roundDown start ∧ ph.p_va ≤ start) → Holds (do
          let filled ← fillPages clearPage ph.memEnd (← get).memory.length la start ret
          return filled.map fun _ => () : LoadM (Except Int Unit)) w (fun r t => AllInside t ∧ (r = .ok () → t.mm = u.mm ∧
            (ph.p_va < ph.fileEnd → HasBytes file ph ph.fileEnd))) fun _ t => AllInside t := by
      intro w la start kept insideW after
      refine holds_mono (bss_inside (by rw [kept]; exact mapped) insideW after) ?_ fun _ _ stopped => stopped
      rintro r t ⟨final, all⟩
      exact ⟨all, fun _ => ⟨final.trans (kept.trans same), has⟩⟩
    by_cases whole : start < la ∧ start = ph.memEnd
    · rw [if_pos whole]
      exact ⟨insideV, fun _ => ⟨same, has⟩⟩
    rw [if_neg whole]
    by_cases tail : start < la
    · rw [if_pos tail]
      have more : ph.p_va < ph.fileEnd := by
        by_contra none_read
        obtain ⟨la_is, start_is⟩ := idle (by omega)
        have below := round_down_le ph.p_va
        omega
      obtain ⟨rfl, aligned, above, close, page, covered, -⟩ := turned more
      have plain : ¬ 2 ^ 64 ≤ ph.p_va + ph.p_memsz := by
        intro wraps
        refine straight ⟨wraps, _, more, has more, .inr ⟨rfl, fun ends => ?_⟩⟩
        unfold PGSIZE at *
        omega
      have further := (ends_plain sizes plain).2
      have top : la ≤ USERTOP := by
        have bound := covered.1.2.2
        omega
      obtain ⟨size, w, cleared, small, kept, -, -, touches⟩ := @clear_tail_runs v la ph.fileEnd ph.memEnd (by omega) tail further top
      have insideW : AllInside w := by
        unfold AllInside
        rw [touches, same]
        exact inside_cons ⟨small, covered⟩ insideV
      refine holds_bind.mpr (holds_of_run cleared (finish kept insideW fun before => ?_))
      have here : min ph.memEnd la = la := by omega
      rw [here]
      exact ⟨(round_down_aligned aligned).symm, by omega⟩
    · rw [if_neg tail]
      refine holds_bind.mpr (holds_pure.mpr (finish rfl insideV fun before => ?_))
      by_cases more : ph.p_va < ph.fileEnd
      · obtain ⟨rfl, aligned, above, -⟩ := turned more
        have here : ph.fileEnd = la := by omega
        rw [here]
        exact ⟨(round_down_aligned aligned).symm, by omega⟩
      · obtain ⟨rfl, rfl⟩ := idle (by omega)
        exact ⟨rfl, le_rfl⟩

theorem segment_inside (fields : Fields ph) (inside : AllInside s) (sound : ph.p_type = ELF_PT_LOAD →
      ph.p_filesz ≤ ph.p_memsz → ∀ mm', s.mm.mapped ph.p_va ph.p_memsz (segmentFlags ph) = some mm' → ¬ Astray file mm' ph) :
    Holds (loadSegment file ph) s (fun r t => AllInside t ∧ (r = .ok () → Loaded file ph s t)) fun _ t => AllInside t := by
  unfold loadSegment
  by_cases other : ph.p_type ≠ ELF_PT_LOAD
  · rw [if_pos other]
    exact ⟨inside, fun _ => .inl ⟨other, rfl⟩⟩
  rw [if_neg other]
  by_cases sizes : ph.p_filesz > ph.p_memsz
  · rw [if_pos sizes]
    exact ⟨inside, nofun⟩
  rw [if_neg sizes]
  refine holds_bind.mpr (holds_mono mm_map_holds ?_ ?_)
  swap
  · rintro stopped t ⟨-, touches⟩
    unfold AllInside
    rwa [touches]
  intro ret u done
  have insideU : AllInside u := by
    unfold AllInside
    rwa [done.touches]
  by_cases failed : ret ≠ 0
  · rw [if_pos failed]
    exact ⟨insideU, nofun⟩
  rw [if_neg failed]
  rw [not_not.mp failed] at done
  have mapped := mm_mapped_is done
  have straight := sound (not_not.mp other) (by omega) _ mapped
  refine holds_mono (fill_segment_inside fields insideU (by omega) mapped straight) ?_ fun _ _ stopped => stopped
  rintro r t ⟨all, loaded⟩
  refine ⟨all, fun fine => .inr ⟨not_not.mp other, by omega, ?_, (loaded fine).2⟩⟩
  rw [(loaded fine).1]
  exact mapped

end
end Ucore.Exec
