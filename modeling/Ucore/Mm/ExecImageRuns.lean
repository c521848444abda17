import Ucore.Mm.ExecImage

/- The image that `load_icode` builds: page by page, from the file and then with zeros. -/
namespace Ucore.Exec.Image
open Stopping ByteMemory Intervals
open CowFork (Perm pteUser PGSIZE USERBASE USERTOP USTACKTOP USTACKSIZE ELF_MAGIC ELF_PT_LOAD ProgHdr word
  roundDown roundUp UserAccess)

/-- The pages from `low` to `high` have the permissions `perm`, and the bytes of `src` lie in them from `first` to
`last`; elsewhere nothing has changed. -/
structure Fills (src : Nat → UInt8) (perm : Perm) (low first last high : Nat) (s t : ImageState) : Prop where
  mm : t.load.mm = s.load.mm
  bytes : ∀ a, first ≤ a → a < last → t.load.view a = some (src a)
  perms : ∀ a, low ≤ a → a < high → t.perms (entry a) = some perm
  pages : Backed t.load low high
  frame : ∀ a < 2 ^ 39, a < low ∨ high ≤ a → t.load.view a = s.load.view a ∧ t.perms (entry a) = s.perms (entry a)

/-- No more than `k` frames have gone, and nothing is wrong with the disk. -/
structure Spent (k : Nat) (s t : ImageState) : Prop where
  io : t.load.io = []
  memory : s.load.memory.length ≤ t.load.memory.length + k

/-- What an act makes of a page that is there. -/
def Copies (act : Nat → Nat → Nat → Nat → Int → LoadM (Except Int Int)) (src : Nat → UInt8) (first last : Nat) : Prop :=
  ∀ la size start ret u, first ≤ start → start + size ≤ last → 0 < size → la ≤ start → u.io = [] → 2 ≤ u.memory.length →
    Backed u start (start + size) → ∃ ret' v, act la (start - la) size start ret u = .ok (.ok ret') v ∧
      Puts u start ((List.range size).map fun i => src (start + i)) v ∧ v.io = [] ∧ u.memory.length ≤ v.memory.length + 2

section
variable {src : Nat → UInt8} {perm : Perm} {low first mid last high la start : Nat} {s t u : ImageState}
  {act : Nat → Nat → Nat → Nat → Int → LoadM (Except Int Int)} {file : Binary} {ph : ProgHdr} {j k : Nat}

theorem spent_nothing (io : s.load.io = []) : Spent 0 s s := ⟨io, le_rfl⟩

theorem Spent.trans (one : Spent j s t) (two : Spent k t u) : Spent (j + k) s u :=
  ⟨two.io, by have := one.memory; have := two.memory; omega⟩

theorem Spent.mono (spent : Spent j s t) (more : j ≤ k) : Spent k s t :=
  ⟨spent.io, by have := spent.memory; omega⟩

theorem fills_nothing : Fills src perm low first first low s s where
  mm := rfl
  bytes := fun a from_first to_first => absurd to_first (by omega)
  perms := fun a from_low to_low => absurd to_low (by omega)
  pages := fun a from_low to_low => absurd to_low (by omega)
  frame := fun _ _ _ => ⟨rfl, rfl⟩

theorem view_some {v : LoadState} {a : Nat} (user : a < 2 ^ 39) : (v.view a).isSome = (v.pages (entry a)).isSome := by
  rw [view_user user, Option.isSome_map]

/- The second fills the pages from `m` on. -/
theorem fills_trans {m : Nat} (top : high ≤ 2 ^ 39) (ordered : low ≤ m) (above : m ≤ high) (before : mid ≤ m)
    (one : Fills src perm low first mid m s t) (two : Fills src perm m mid last high t u) :
    Fills src perm low first last high s u where
  mm := two.mm.trans one.mm
  bytes := by
    intro a from_first to_last
    by_cases early : a < mid
    · rw [(two.frame a (by omega) (.inl (by omega))).1]
      exact one.bytes a from_first early
    · exact two.bytes a (not_lt.mp early) to_last
  perms := by
    intro a from_low to_high
    by_cases early : a < m
    · rw [(two.frame a (by omega) (.inl early)).2]
      exact one.perms a from_low early
    · exact two.perms a (not_lt.mp early) to_high
  pages := by
    intro a from_low to_high
    by_cases early : a < m
    · rw [← view_some (by omega), (two.frame a (by omega) (.inl early)).1, view_some (by omega)]
      exact one.pages a from_low early
    · exact two.pages a (not_lt.mp early) to_high
  frame := by
    intro a user outside
    obtain ⟨view₂, perms₂⟩ := two.frame a user (by omega)
    obtain ⟨view₁, perms₁⟩ := one.frame a user (by omega)
    exact ⟨view₂.trans view₁, perms₂.trans perms₁⟩

/- The bytes that follow, in pages that are there. -/
theorem fills_write {n : Nat} {v : LoadState} (inside : low ≤ mid) (room : mid + n ≤ high) (one : Fills src perm low first mid high s t)
    (puts : Puts t.load mid ((List.range n).map fun i => src (mid + i)) v) :
    Fills src perm low first (mid + n) high s ⟨v, t.perms⟩ := by
  have length : ((List.range n).map fun i => src (mid + i)).length = n := by
    rw [List.length_map, List.length_range]
  refine ⟨puts.same.mm.trans one.mm, fun a from_first to_last => ?_, one.perms, fun a from_low to_high => ?_,
    fun a user outside => ⟨?_, (one.frame a user outside).2⟩⟩
  · rw [puts.view]
    by_cases early : a < mid
    · rw [put_outside (.inl early)]
      exact one.bytes a from_first early
    · have here : mid + (a - mid) = a := by omega
      have put := @put_has _ t.load.view mid ((List.range n).map fun i => src (mid + i)) (a - mid) (by omega)
      rw [here, List.getElem?_map, List.getElem?_range (by omega), Option.map_some, here] at put
      exact put
  · rw [puts.same.pages]
    exact one.pages a from_low to_high
  · rw [puts.view, put_outside (by omega)]
    exact (one.frame a user outside).1

theorem entry_of {a : Nat} (aligned : PGSIZE ∣ la) (user : a < 2 ^ 39) (page : la < 2 ^ 39) :
    entry a = entry la ↔ la ≤ a ∧ a < la + PGSIZE := by
  obtain ⟨i, rfl⟩ := aligned
  unfold entry PGSIZE at *
  omega

theorem alloc_fills (src : Nat → UInt8) (perm : Perm) (first : Nat) (aligned : PGSIZE ∣ la) (page : la + PGSIZE ≤ 2 ^ 39)
    (io : s.load.io = []) (enough : 3 ≤ s.load.memory.length) :
    ∃ t, pgdirAllocPage la perm s = .ok true t ∧ Fills src perm la first first (la + PGSIZE) s t ∧ Spent 3 s t := by
  have below : la < 2 ^ 39 := by
    unfold PGSIZE at page
    omega
  obtain ⟨v, granted, new⟩ := @alloc_runs s.load la enough
  obtain ⟨frame, pages⟩ := new.page
  refine ⟨⟨v, Function.update s.perms (entry la) (some perm)⟩, ?_, ?_, new.io.trans io, new.spent⟩
  · unfold pgdirAllocPage
    rw [run_bind (keep_run granted), if_pos rfl]
    rfl
  · refine ⟨new.mm, fun a from_first to_first => absurd to_first (by omega), fun a from_low to_high => ?_,
      fun a from_low to_high => ?_, fun a user outside => ⟨?_, ?_⟩⟩
    · rw [(entry_of aligned (by omega) below).mpr ⟨from_low, to_high⟩]
      exact Function.update_self _ _ _
    · rw [(entry_of aligned (by omega) below).mpr ⟨from_low, to_high⟩]
      dsimp only
      rw [pages, Function.update_self]
      rfl
    · have other : entry a ≠ entry la := fun same => by
        have := (entry_of aligned user below).mp same
        omega
      rw [view_user user, view_user user]
      dsimp only
      rw [pages, Function.update_of_ne other]
    · refine Function.update_of_ne (fun same => ?_) _ _
      have := (entry_of aligned user below).mp same
      omega

theorem fill_over {fuel : Nat} {ret : Int} (ended : last ≤ start) :
    fillPages perm act last fuel la start ret s = .ok (.ok (la, start, ret)) s := by
  cases fuel with
  | zero =>
    unfold fillPages
    rw [if_neg (by omega)]
    rfl
  | succ fuel =>
    unfold fillPages
    rw [if_pos ended]
    rfl

theorem round_up_page (aligned : PGSIZE ∣ la) (above : la < last) (last_page : last ≤ la + PGSIZE) (top : last ≤ USERTOP) :
    roundUp last = la + PGSIZE := by
  obtain ⟨i, rfl⟩ := aligned
  unfold roundUp roundDown word PGSIZE at *
  unfold USERTOP at top
  omega

theorem round_up_bounds (top : last ≤ USERTOP) : last ≤ roundUp last ∧ roundUp last < last + PGSIZE ∧ PGSIZE ∣ roundUp last ∧
    roundUp last ≤ USERTOP := by
  refine ⟨?_, ?_, Dvd.intro_left _ rfl, ?_⟩ <;>
    (unfold roundUp roundDown word PGSIZE; unfold USERTOP at *; omega)

theorem round_up_mono (below : first ≤ last) (top : last ≤ USERTOP) : roundUp first ≤ roundUp last := by
  unfold roundUp roundDown word
  unfold USERTOP at top
  unfold PGSIZE
  omega

theorem fill_run (perm : Perm) (copies : Copies act src first last) (top : last ≤ USERTOP) (n : Nat) : ∀ fuel la start ret s,
    PGSIZE ∣ la → la ≤ start → start < la + PGSIZE → first ≤ start → start < last → last ≤ la + n * PGSIZE → n ≤ fuel →
    s.load.io = [] → 5 * n ≤ s.load.memory.length → ∃ ret' t, fillPages perm act last fuel la start ret s =
      .ok (.ok (roundUp last, last, ret')) t ∧ Fills src perm la start last (roundUp last) s t ∧ Spent (5 * n) s t := by
  induction n with
  | zero =>
    intro fuel la start ret s aligned below close after before reach
    omega
  | succ n ih =>
    intro fuel la start ret s aligned below close after before reach fueled io enough
    obtain ⟨fuel, rfl⟩ : ∃ less, fuel = less + 1 := ⟨fuel - 1, by omega⟩
    have ⟨next, user⟩ : word (la + PGSIZE) = la + PGSIZE ∧ la + PGSIZE ≤ 2 ^ 39 := by
      unfold word PGSIZE
      unfold USERTOP at top
      omega
    obtain ⟨page, granted, mapped, one⟩ := alloc_fills src perm start aligned user io (by omega)
    have frames := one.memory
    have turn := turn_end below close before
    obtain ⟨size, size_is⟩ : ∃ size,
      size = PGSIZE - (start - la) - (if last < la + PGSIZE then la + PGSIZE - last else 0) := ⟨_, rfl⟩
    rw [← size_is] at turn
    have end_is : word (start + size) = min last (la + PGSIZE) := by
      rw [turn]
      unfold word
      unfold USERTOP at top
      omega
    obtain ⟨ret', v, acted, puts, ioV, memoryV⟩ := copies la size start ret page.load after (by omega) (by omega) below one.io
      (by omega) fun a from_start to_end => mapped.pages a (by omega) (by omega)
    have filled := fills_write below (by omega) mapped puts
    rw [turn] at filled
    have spent : Spent 5 s ⟨v, page.perms⟩ := ⟨ioV, by dsimp only; omega⟩
    have first_turn : fillPages perm act last (fuel + 1) la start ret s =
        fillPages perm act last fuel (la + PGSIZE) (min last (la + PGSIZE)) ret' ⟨v, page.perms⟩ := by
      conv_lhs => unfold fillPages
      rw [if_neg (by omega), run_bind granted, if_neg (by decide), next, ← size_is, run_bind (keep_run acted), ← end_is]
    rw [first_turn]
    by_cases further : la + PGSIZE < last
    · have here : min last (la + PGSIZE) = la + PGSIZE := by omega
      rw [here] at filled ⊢
      have left := spent.memory
      have reach' : last ≤ la + PGSIZE + n * PGSIZE := by
        rw [Nat.succ_mul] at reach
        omega
      obtain ⟨ret'', t, ran, rest, more⟩ := ih fuel (la + PGSIZE) (la + PGSIZE) ret' ⟨v, page.perms⟩
        (Dvd.dvd.add aligned (dvd_refl _)) le_rfl (by unfold PGSIZE; omega) (by omega) further reach' (by omega) spent.io
        (by omega)
      have bounds := round_up_bounds top
      have below_top : roundUp last ≤ 2 ^ 39 := by
        unfold USERTOP at bounds
        omega
      exact ⟨ret'', t, ran, fills_trans below_top (by omega) (by omega) le_rfl filled rest,
        (spent.trans more).mono (by omega)⟩
    · have here : min last (la + PGSIZE) = last := by omega
      rw [here] at filled ⊢
      rw [round_up_page aligned (by omega) (by omega) top]
      exact ⟨ret', _, fill_over le_rfl, filled, spent.mono (by omega)⟩

end

/-- The byte that the program finds at an address of a segment. -/
def segmentByte (file : Binary) (ph : ProgHdr) (a : Nat) : UInt8 :=
  if a < ph.p_va + ph.p_filesz then file.bytes.getD (ph.p_offset + (a - ph.p_va)) 0 else 0

/-- The pages of a segment. -/
def pageRange (ph : ProgHdr) : Nat × Nat := (roundDown ph.p_va, roundUp (ph.p_va + ph.p_memsz))

/-- The number of pages from `low` to `high`. -/
def pagesBetween (low high : Nat) : Nat := (high - low) / PGSIZE

abbrev RangesApart (x y : Nat × Nat) : Prop := Apart Prod.fst Prod.snd x y

/-- A segment in the space of the user and off the stack, whose bytes the file has where the kernel can read them. -/
structure Segment (file : Binary) (ph : ProgHdr) : Prop where
  sizes : ph.p_filesz ≤ ph.p_memsz
  user : USERBASE ≤ ph.p_va ∧ ph.p_va + ph.p_memsz ≤ USERTOP
  contents : 0 < ph.p_filesz → ph.p_offset + ph.p_filesz ≤ file.readable
  stack : RangesApart (pageRange ph) (USTACKTOP - USTACKSIZE, USTACKTOP)

/-- Every address of the segment has its byte, in a page with the permissions of the segment. -/
def InMemory (file : Binary) (ph : ProgHdr) (t : ImageState) : Prop :=
  ∀ a, ph.p_va ≤ a → a < ph.p_va + ph.p_memsz →
    t.load.view a = some (segmentByte file ph a) ∧ t.perms (entry a) = some (segmentPerm ph)

/-- What is in memory besides, and the VMAs. -/
structure SegmentAdded (file : Binary) (ph : ProgHdr) (s t : ImageState) : Prop where
  held : InMemory file ph t
  frame : ∀ a < 2 ^ 39, a < (pageRange ph).1 ∨ (pageRange ph).2 ≤ a →
    t.load.view a = s.load.view a ∧ t.perms (entry a) = s.perms (entry a)
  vmas : ∀ vma ∈ t.load.mm.mmapList, vma ∈ s.load.mm.mmapList ∨ (vma.vmStart, vma.vmEnd) = pageRange ph

section
variable {src : Nat → UInt8} {perm : Perm} {low first mid last high la start : Nat} {s t u : ImageState}
  {v w : LoadState} {file : Binary} {ph : ProgHdr} {j k : Nat}

theorem read_copies (segment : Segment file ph) : Copies (readPage file ph) (segmentByte file ph) ph.p_va
    (ph.p_va + ph.p_filesz) := by
  intro la size start ret u after before some_bytes below io enough backed
  have contents := segment.contents (by omega)
  have place := file_offset_has (show HasBytes file ph (ph.p_va + ph.p_filesz) by unfold HasBytes; omega)
    (show start ≤ ph.p_va + ph.p_filesz by omega)
  obtain ⟨t, read, mm, pages, clean, -, spent⟩ := @load_icode_read_runs
    { u with touches := ⟨u.mm.mmapList, la, start - la, size⟩ :: u.touches } file (fileOffset ph start) size io some_bytes
    (by omega) enough
  have present : file.readable ≤ file.bytes.length := Nat.min_le_left _ _
  have bytes : (file.bytes.drop (fileOffset ph start)).take size
      = (List.range size).map fun i => segmentByte file ph (start + i) := by
    rw [file_bytes (by omega)]
    refine List.map_congr_left fun i inside => ?_
    have near := List.mem_range.mp inside
    unfold segmentByte
    rw [if_pos (by omega), place, Nat.add_assoc, Nat.sub_add_comm after]
  have length : ((List.range size).map fun i => segmentByte file ph (start + i)).length = size := by
    rw [List.length_map, List.length_range]
  have user := segment.user.2
  have sizes := segment.sizes
  have puts := @set_bytes_puts ((List.range size).map fun i => segmentByte file ph (start + i)) t start
    (by rw [length]; intro a from_start to_end; rw [pages]; exact backed a from_start to_end)
    (by unfold USERTOP at user; omega)
  obtain ⟨-, -, memory, kept⟩ := @set_bytes_same ((List.range size).map fun i => segmentByte file ph (start + i)) t start
  refine ⟨0, _, ?_, ⟨⟨puts.same.mm.trans mm, fun i => (puts.same.pages i).trans (by rw [pages])⟩, ?_⟩, kept.trans clean, ?_⟩
  · change (loadIcodeRead file (fileOffset ph start) size >>= _) _ = _
    rw [run_bind read, if_neg (by decide), bytes, Nat.add_sub_of_le below]
    rfl
  · rw [puts.view]
    unfold LoadState.view
    rw [pages]
  · rw [memory]
    exact spent

theorem zeros (segment_end : ph.p_va + ph.p_filesz ≤ start) (size : Nat) :
    List.replicate size 0 = (List.range size).map fun i => segmentByte file ph (start + i) := by
  refine List.ext_getElem ?_ fun i _ _ => ?_
  · rw [List.length_replicate, List.length_map, List.length_range]
  · rw [List.getElem_replicate, List.getElem_map, List.getElem_range]
    exact (if_neg (by omega)).symm

/- The bytes behind those of the file, in a page that is there. -/
theorem zeros_put (file : Binary) (v : LoadState) {size : Nat} (segment_end : ph.p_va + ph.p_filesz ≤ start) (user : start + size ≤ 2 ^ 39)
    (backed : Backed v start (start + size)) :
    Puts v start ((List.range size).map fun i => segmentByte file ph (start + i)) (v.setBytes start (List.replicate size 0)) := by
  have length : (List.replicate size (0 : UInt8)).length = size := List.length_replicate
  rw [← zeros segment_end]
  exact set_bytes_puts _ (by rw [length]; exact backed) (by rw [length]; exact user)

theorem clear_copies (segment : Segment file ph) : Copies clearPage (segmentByte file ph) (ph.p_va + ph.p_filesz)
    (ph.p_va + ph.p_memsz) := by
  intro la size start ret u after before some_bytes below io enough backed
  have user := segment.user.2
  have puts := zeros_put file { u with touches := ⟨u.mm.mmapList, la, start - la, size⟩ :: u.touches } after
    (by unfold USERTOP at user; omega) backed
  obtain ⟨-, -, memory, kept⟩ := @set_bytes_same (List.replicate size 0)
    { u with touches := ⟨u.mm.mmapList, la, start - la, size⟩ :: u.touches } start
  refine ⟨ret, _, ?_, ⟨⟨puts.same.mm, puts.same.pages⟩, puts.view⟩, kept.trans io, ?_⟩
  · unfold clearPage
    rw [Nat.add_sub_of_le below]
    rfl
  · rw [memory]
    exact Nat.le_add_right _ _

theorem ends_exact (segment : Segment file ph) :
    ph.fileEnd = ph.p_va + ph.p_filesz ∧ ph.memEnd = ph.p_va + ph.p_memsz := by
  have user := segment.user.2
  have sizes := segment.sizes
  unfold ProgHdr.fileEnd ProgHdr.memEnd word
  unfold USERTOP at user
  omega

theorem pages_reach (low_aligned : PGSIZE ∣ low) (high_aligned : PGSIZE ∣ high) (below : low ≤ high) :
    low + pagesBetween low high * PGSIZE = high := by
  obtain ⟨i, rfl⟩ := low_aligned
  obtain ⟨j, rfl⟩ := high_aligned
  unfold pagesBetween PGSIZE at *
  omega

theorem pages_join (low_aligned : PGSIZE ∣ low) (mid_aligned : PGSIZE ∣ mid) (below : low ≤ mid) (above : mid ≤ high) :
    pagesBetween low mid + pagesBetween mid high = pagesBetween low high := by
  obtain ⟨i, rfl⟩ := low_aligned
  obtain ⟨j, rfl⟩ := mid_aligned
  unfold pagesBetween PGSIZE at *
  omega

theorem bss_run (la : Nat) (ret : Int) (segment : Segment file ph) (from_end : ph.p_va + ph.p_filesz ≤ start)
    (after : start < ph.p_va + ph.p_memsz → la = roundDown start) (io : s.load.io = [])
    (enough : 5 * pagesBetween la (roundUp (ph.p_va + ph.p_memsz)) ≤ s.load.memory.length) : ∃ t, (do
      let filled ← fillPages (segmentPerm ph) clearPage (ph.p_va + ph.p_memsz) (← get).load.memory.length la start ret
      return filled.map fun _ => () : ImageM (Except Int Unit)) s = .ok (.ok ()) t ∧
      Spent (5 * pagesBetween la (roundUp (ph.p_va + ph.p_memsz))) s t ∧
      ((start < ph.p_va + ph.p_memsz ∧ Fills (segmentByte file ph) (segmentPerm ph) la start (ph.p_va + ph.p_memsz)
        (roundUp (ph.p_va + ph.p_memsz)) s t) ∨ (ph.p_va + ph.p_memsz ≤ start ∧ t = s)) := by
  have got : (get : ImageM ImageState) s = .ok s s := rfl
  rw [run_bind got]
  by_cases more : start < ph.p_va + ph.p_memsz
  · have low := round_down_le start
    have close : start < roundDown start + PGSIZE := by
      unfold roundDown PGSIZE
      omega
    obtain ⟨above, -, aligned, -⟩ := round_up_bounds segment.user.2
    have reach := pages_reach (show PGSIZE ∣ roundDown start from Dvd.intro_left _ rfl) aligned (by omega)
    rw [after more] at enough ⊢
    obtain ⟨ret', t, ran, filled, spent⟩ := fill_run (segmentPerm ph) (clear_copies segment) segment.user.2 _
      s.load.memory.length (roundDown start) start ret s (Dvd.intro_left _ rfl) low close from_end more (by omega)
      (by omega) io enough
    rw [run_bind ran]
    exact ⟨t, rfl, spent, .inl ⟨more, filled⟩⟩
  · rw [run_bind (fill_over (by omega))]
    exact ⟨s, rfl, (spent_nothing io).mono (Nat.zero_le _), .inr ⟨by omega, rfl⟩⟩

/- The rest of the last page with bytes of the file. -/
theorem clear_tail_fills (segment : Segment file ph) (aligned : PGSIZE ∣ la) (near : la < ph.p_va + ph.p_filesz + PGSIZE)
    (tail : ph.p_va + ph.p_filesz < la) (top : la ≤ USERTOP) (copied : Fills (segmentByte file ph) perm (roundDown ph.p_va)
      ph.p_va (ph.p_va + ph.p_filesz) la s t) (io : t.load.io = []) :
    ∃ u, keepPerms (clearTail la (ph.p_va + ph.p_filesz) (ph.p_va + ph.p_memsz)) t = .ok (min (ph.p_va + ph.p_memsz) la) u ∧
      u.load.io = [] ∧ u.load.memory = t.load.memory ∧ Fills (segmentByte file ph) perm (roundDown ph.p_va) ph.p_va
        (min (ph.p_va + ph.p_memsz) la) la s u := by
  have sizes := segment.sizes
  have below := round_down_le ph.p_va
  have cleared := @clear_tail_is t.load la (ph.p_va + ph.p_filesz) (ph.p_va + ph.p_memsz) (by omega) tail (by omega) top
  obtain ⟨size, size_is⟩ : ∃ size, size = min (ph.p_va + ph.p_memsz) la - (ph.p_va + ph.p_filesz) := ⟨_, rfl⟩
  have place : la - PGSIZE + (ph.p_va + ph.p_filesz + PGSIZE - la) = ph.p_va + ph.p_filesz := by
    obtain ⟨i, rfl⟩ := aligned
    unfold PGSIZE at *
    omega
  rw [← size_is, place] at cleared
  obtain ⟨v, v_is⟩ : ∃ v : LoadState, v = { t.load with
    touches := ⟨t.load.mm.mmapList, la - PGSIZE, ph.p_va + ph.p_filesz + PGSIZE - la, size⟩ :: t.load.touches } := ⟨_, rfl⟩
  have puts := @zeros_put (ph.p_va + ph.p_filesz) ph file v size le_rfl (by unfold USERTOP at top; omega)
    fun a from_end to_end => by rw [v_is]; exact copied.pages a (by omega) (by omega)
  obtain ⟨-, -, memory, kept⟩ := @set_bytes_same (List.replicate size 0) v (ph.p_va + ph.p_filesz)
  rw [← v_is] at cleared
  refine ⟨_, keep_run cleared, kept.trans (by rw [v_is]; exact io), memory.trans (by rw [v_is]), ?_⟩
  rw [show min (ph.p_va + ph.p_memsz) la = ph.p_va + ph.p_filesz + size by omega]
  refine fills_write (by omega) (by omega) copied ?_
  rw [v_is] at puts ⊢
  exact ⟨⟨puts.same.mm, puts.same.pages⟩, puts.view⟩

/- What follows the bytes of the file: the rest of their last page, and the pages behind it. -/
theorem tail_run (ret : Int) (segment : Segment file ph) (copied : Fills (segmentByte file ph) (segmentPerm ph)
      (roundDown ph.p_va) ph.p_va (ph.p_va + ph.p_filesz) (roundUp (ph.p_va + ph.p_filesz)) s t)
    (some_bytes : 0 < ph.p_filesz) (io : t.load.io = [])
    (enough : 5 * pagesBetween (roundUp (ph.p_va + ph.p_filesz)) (roundUp (ph.p_va + ph.p_memsz)) ≤ t.load.memory.length) :
    ∃ u, (do
      if ph.p_va + ph.p_filesz < roundUp (ph.p_va + ph.p_filesz) ∧ ph.p_va + ph.p_filesz = ph.p_va + ph.p_memsz then
        return .ok ()
      let start ← if ph.p_va + ph.p_filesz < roundUp (ph.p_va + ph.p_filesz) then
        keepPerms (clearTail (roundUp (ph.p_va + ph.p_filesz)) (ph.p_va + ph.p_filesz) (ph.p_va + ph.p_memsz))
        else pure (ph.p_va + ph.p_filesz)
      let filled ← fillPages (segmentPerm ph) clearPage (ph.p_va + ph.p_memsz) (← get).load.memory.length
        (roundUp (ph.p_va + ph.p_filesz)) start ret
      return filled.map fun _ => () : ImageM (Except Int Unit)) t = .ok (.ok ()) u ∧
      Spent (5 * pagesBetween (roundUp (ph.p_va + ph.p_filesz)) (roundUp (ph.p_va + ph.p_memsz))) t u ∧
      ∃ high ≤ roundUp (ph.p_va + ph.p_memsz), ph.p_va + ph.p_memsz ≤ high ∧
        Fills (segmentByte file ph) (segmentPerm ph) (roundDown ph.p_va) ph.p_va (ph.p_va + ph.p_memsz) high s u := by
  have user := segment.user.2
  have sizes := segment.sizes
  have below := round_down_le ph.p_va
  obtain ⟨above, near, aligned, page_top⟩ := round_up_bounds (show ph.p_va + ph.p_filesz ≤ USERTOP by omega)
  obtain ⟨mem_above, mem_near, mem_aligned, mem_top⟩ := round_up_bounds user
  obtain ⟨la, la_is⟩ : ∃ la, la = roundUp (ph.p_va + ph.p_filesz) := ⟨_, rfl⟩
  have first_pages := round_up_mono (show ph.p_va + ph.p_filesz ≤ ph.p_va + ph.p_memsz by omega) user
  rw [← la_is] at above near aligned page_top first_pages copied enough ⊢
  have high_user : roundUp (ph.p_va + ph.p_memsz) ≤ 2 ^ 39 := by
    unfold USERTOP at mem_top
    omega
  by_cases whole : ph.p_va + ph.p_filesz < la ∧ ph.p_va + ph.p_filesz = ph.p_va + ph.p_memsz
  · rw [if_pos whole]
    refine ⟨t, rfl, (spent_nothing io).mono (Nat.zero_le _), la, first_pages, by omega, ?_⟩
    rw [← whole.2]
    exact copied
  rw [if_neg whole]
  by_cases tail : ph.p_va + ph.p_filesz < la
  · rw [if_pos tail]
    obtain ⟨cleared, clear_ran, io, memory, filled⟩ := clear_tail_fills segment aligned near tail page_top copied io
    rw [run_bind clear_ran]
    obtain ⟨u, ran, spent, rest⟩ := bss_run la ret segment
      (show ph.p_va + ph.p_filesz ≤ min (ph.p_va + ph.p_memsz) la by omega)
      (fun further => by rw [show min (ph.p_va + ph.p_memsz) la = la by omega, round_down_aligned aligned])
      io (by rw [memory]; exact enough)
    refine ⟨u, ran, ⟨spent.io, by rw [← memory]; exact spent.memory⟩, ?_⟩
    rcases rest with ⟨further, more⟩ | ⟨done, rfl⟩
    · have here : min (ph.p_va + ph.p_memsz) la = la := by omega
      rw [here] at filled more
      exact ⟨_, le_rfl, mem_above, fills_trans high_user (by omega) (by omega) le_rfl filled more⟩
    · refine ⟨la, first_pages, by omega, ?_⟩
      rw [show min (ph.p_va + ph.p_memsz) la = ph.p_va + ph.p_memsz by omega] at filled
      exact filled
  · have here : la = ph.p_va + ph.p_filesz := by omega
    rw [if_neg tail]
    obtain ⟨u, ran, spent, rest⟩ := bss_run la ret segment (Nat.le_refl (ph.p_va + ph.p_filesz))
      (fun _ => by rw [← here, round_down_aligned aligned]) io enough
    refine ⟨u, ran, spent, ?_⟩
    rcases rest with ⟨further, more⟩ | ⟨done, rfl⟩
    · refine ⟨_, le_rfl, mem_above, fills_trans high_user (by omega) first_pages (by omega) copied ?_⟩
      rwa [← here] at more ⊢
    · refine ⟨la, first_pages, by omega, ?_⟩
      rw [show ph.p_va + ph.p_memsz = ph.p_va + ph.p_filesz by omega]
      exact copied

theorem fill_segment_run (segment : Segment file ph) (io : s.load.io = [])
    (enough : 5 * pagesBetween (pageRange ph).1 (pageRange ph).2 ≤ s.load.memory.length) :
    ∃ t, fillSegment file ph s = .ok (.ok ()) t ∧ Spent (5 * pagesBetween (pageRange ph).1 (pageRange ph).2) s t ∧
      ∃ high ≤ roundUp (ph.p_va + ph.p_memsz), (0 < ph.p_memsz → ph.p_va + ph.p_memsz ≤ high) ∧
        Fills (segmentByte file ph) (segmentPerm ph) (roundDown ph.p_va) ph.p_va (ph.p_va + ph.p_memsz) high s t := by
  have got : (get : ImageM ImageState) s = .ok s s := rfl
  have sizes := segment.sizes
  have low := round_down_le ph.p_va
  unfold fillSegment
  rw [run_bind got, (ends_exact segment).1, (ends_exact segment).2]
  by_cases some_bytes : 0 < ph.p_filesz
  · have close : ph.p_va < roundDown ph.p_va + PGSIZE := by
      unfold roundDown PGSIZE
      omega
    obtain ⟨above, near, aligned, -⟩ := round_up_bounds (show ph.p_va + ph.p_filesz ≤ USERTOP by have := segment.user.2; omega)
    have first_pages := round_up_mono (show ph.p_va + ph.p_filesz ≤ ph.p_va + ph.p_memsz by omega) segment.user.2
    have start_aligned : PGSIZE ∣ roundDown ph.p_va := Dvd.intro_left _ rfl
    have reach := pages_reach start_aligned aligned (by omega)
    have pages := pages_join start_aligned aligned (by omega) first_pages
    unfold pageRange at enough ⊢
    dsimp only at enough ⊢
    obtain ⟨ret, t, ran, copied, spent⟩ := fill_run (segmentPerm ph) (read_copies segment)
      (by have := segment.user.2; omega) (pagesBetween (roundDown ph.p_va) (roundUp (ph.p_va + ph.p_filesz)))
      s.load.memory.length (roundDown ph.p_va) ph.p_va (-E_NO_MEM) s (Dvd.intro_left _ rfl) low close
      le_rfl (by omega) (by omega) (by omega) io (by omega)
    have left := spent.memory
    obtain ⟨u, rest, more, filled⟩ := tail_run ret segment copied some_bytes spent.io (by omega)
    rw [run_bind ran]
    obtain ⟨high, near, above, filled⟩ := filled
    exact ⟨u, rest, (spent.trans more).mono (by omega), high, near, fun _ => above, filled⟩
  · rw [run_bind (fill_over (by omega))]
    dsimp only
    rw [if_neg (by omega), if_neg (by omega)]
    obtain ⟨t, ran, spent, rest⟩ := bss_run (roundDown ph.p_va) (-E_NO_MEM) segment
      (show ph.p_va + ph.p_filesz ≤ ph.p_va by omega) (fun _ => rfl) io enough
    refine ⟨t, ran, spent, ?_⟩
    rcases rest with ⟨-, filled⟩ | ⟨done, rfl⟩
    · exact ⟨_, le_rfl, fun _ => (round_up_bounds segment.user.2).1, filled⟩
    · refine ⟨roundDown ph.p_va, ?_, fun some_bytes => by omega, ?_⟩
      · have := (round_up_bounds segment.user.2).1
        omega
      · rw [show ph.p_va + ph.p_memsz = ph.p_va by omega]
        exact fills_nothing

end

end Ucore.Exec.Image
