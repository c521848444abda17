import Ucore.Mm.ExecFile

/- What the parts of `load_icode` leave: the VMAs of `mm_map`, and the pages that have been touched, which
   stay on record. -/
namespace Ucore.Exec
open Stopping
open CowFork (PGSIZE USERTOP word roundDown roundUp UserAccess)

/-- What at most `k` requests for memory leave, all of them answered where there was enough. -/
structure Asked (k : Nat) (s : LoadState) (granted : Bool) (t : LoadState) : Prop where
  mm : t.mm = s.mm
  pages : t.pages = s.pages
  io : t.io = s.io
  touches : t.touches = s.touches
  spent : s.memory.length ≤ t.memory.length + k
  refused : granted = false → s.memory.length < k

/-- A new page at `la`, after the requests for the tables and for the page itself. -/
structure NewPage (la : Nat) (s t : LoadState) : Prop where
  mm : t.mm = s.mm
  page : ∃ frame, t.pages = Function.update s.pages (entry la) (some frame)
  io : t.io = s.io
  touches : t.touches = ⟨s.mm.mmapList, la, 0, PGSIZE⟩ :: s.touches
  spent : s.memory.length ≤ t.memory.length + 3

/-- What a read leaves. A whole one is in the blocks that an inode has entries for. -/
structure ReadDone (file : Binary) (offset len : Nat) (s : LoadState) (ret : Int) (t : LoadState) : Prop where
  mm : t.mm = s.mm
  pages : t.pages = s.pages
  touches : t.touches = s.touches
  whole : 0 < len → ret = 0 → offset + len ≤ file.readable

section
variable {s : LoadState} {la shift j k : Nat} {m n : LoadM Bool} {file : Binary} {offset len : Nat}

theorem alloc_page_asks : Holds allocPage s (Asked 1 s) fun _ _ => False := by
  refine ⟨rfl, rfl, rfl, rfl, ?_, fun refused => ?_⟩
  · change s.memory.length ≤ s.memory.tail.length + 1
    rw [List.length_tail]
    omega
  · cases memory : s.memory with
    | nil => exact Nat.one_pos
    | cons frame rest =>
      rw [memory] at refused
      cases refused

/- The second asks where the first was answered. -/
theorem asks_both (first : Holds m s (Asked j s) fun _ _ => False) (second : ∀ t, Holds n t (Asked k t) fun _ _ => False) :
    Holds (do
      if !(← m) then return false
      n : LoadM Bool) s (Asked (j + k) s) fun _ _ => False := by
  refine holds_step first fun granted t one => ?_
  have spent := one.spent
  cases granted with
  | false =>
    have refused := one.refused rfl
    exact ⟨one.mm, one.pages, one.io, one.touches, by omega, fun _ => by omega⟩
  | true =>
    refine holds_mono (second t) ?_ fun _ _ never => never
    intro granted u two
    have further := two.spent
    refine ⟨two.mm.trans one.mm, two.pages.trans one.pages, two.io.trans one.io, two.touches.trans one.touches,
      by omega, fun none_left => ?_⟩
    have refused := two.refused none_left
    omega

theorem kmalloc_iobuf_asks : Holds kmallocIobuf s (Asked 2 s) fun _ _ => False :=
  asks_both alloc_page_asks fun _ => alloc_page_asks

theorem get_table_asks : Holds (getTable shift la) s (Asked 1 s) fun _ _ => False := by
  refine holds_get_bind.mpr ?_
  split_ifs
  · exact ⟨rfl, rfl, rfl, rfl, Nat.le_succ _, nofun⟩
  · refine holds_step alloc_page_asks fun granted t one => ?_
    cases granted with
    | false => exact one
    | true => exact ⟨one.mm, one.pages, one.io, one.touches, one.spent, nofun⟩

theorem get_pte_asks : Holds (getPte la) s (Asked 2 s) fun _ _ => False :=
  asks_both get_table_asks fun _ => get_table_asks

theorem pgdir_alloc_page_holds : Holds (pgdirAllocPage la) s
    (fun granted t => if granted then NewPage la s t else Asked 3 s false t) fun _ _ => False := by
  refine holds_get_bind.mpr ?_
  cases memory : s.memory with
  | nil => exact ⟨rfl, rfl, rfl, rfl, Nat.le_add_right _ _, fun _ => by rw [memory]; decide⟩
  | cons frame rest =>
    have length : s.memory.length = rest.length + 1 := by rw [memory, List.length_cons]
    refine holds_set_bind.mpr (holds_step get_pte_asks fun granted t asked => ?_)
    have spent : rest.length ≤ t.memory.length + 2 := asked.spent
    cases granted with
    | false =>
      have refused : rest.length < 2 := asked.refused rfl
      exact ⟨asked.mm, asked.pages, asked.io, asked.touches, by omega, fun _ => by omega⟩
    | true =>
      refine holds_modify_bind.mpr (holds_modify_bind.mpr (holds_pure.mpr ⟨asked.mm, ⟨frame, ?_⟩, asked.io, ?_, ?_⟩))
      · exact congrArg (Function.update · (entry la) (some frame)) asked.pages
      · dsimp only
        rw [asked.mm, asked.touches]
      · dsimp only
        omega

/- Where there is enough, a request is answered. -/
theorem asked_run (asks : Holds m s (Asked k s) fun _ _ => False) (enough : k ≤ s.memory.length) :
    ∃ t, m s = .ok true t ∧ Asked k s true t := by
  unfold Holds at asks
  cases run : m s with
  | ok granted t =>
    rw [run] at asks
    cases granted with
    | true => exact ⟨t, rfl, asks⟩
    | false => exact absurd (asks.refused rfl) (by omega)
  | error stopped t =>
    rw [run] at asks
    exact asks.elim

theorem alloc_runs (enough : 3 ≤ s.memory.length) : ∃ t, pgdirAllocPage la s = .ok true t ∧ NewPage la s t := by
  have holds := @pgdir_alloc_page_holds s la
  unfold Holds at holds
  cases run : pgdirAllocPage la s with
  | ok granted t =>
    rw [run] at holds
    cases granted with
    | true => exact ⟨t, rfl, holds⟩
    | false => exact absurd (holds.refused rfl) (by omega)
  | error stopped t =>
    rw [run] at holds
    exact holds.elim

theorem load_icode_read_holds : Holds (loadIcodeRead file offset len) s (ReadDone file offset len s) fun stopped t =>
    stopped = .panic ∧ t.touches = s.touches := by
  unfold loadIcodeRead
  by_cases big : SFS_MAX_FILE_SIZE ≤ offset
  · rw [if_pos big]
    exact ⟨rfl, rfl, rfl, nofun⟩
  rw [if_neg big]
  refine holds_get_bind.mpr (holds_set_bind.mpr ?_)
  dsimp only
  by_cases error : s.io.head?.getD 0 ≠ 0
  · rw [if_pos error]
    refine ⟨rfl, rfl, rfl, fun _ zero => ?_⟩
    split_ifs at zero
    exact absurd zero error
  rw [if_neg error]
  refine holds_bind.mpr (holds_check.mpr ?_)
  by_cases mapped : blocksFor offset ≤ max (blocksFor file.bytes.length) maxBlocks
  swap
  · rw [if_neg mapped]
    exact ⟨rfl, rfl⟩
  rw [if_pos mapped]
  by_cases empty : len = 0
  · rw [if_pos empty]
    exact ⟨rfl, rfl, rfl, fun some_bytes => absurd some_bytes (by omega)⟩
  rw [if_neg empty]
  refine holds_step (holds_mono kmalloc_iobuf_asks (fun _ _ asked => asked) fun _ _ never => never.elim)
    fun granted t asked => ?_
  cases granted with
  | false => exact ⟨asked.mm, asked.pages, asked.touches, nofun⟩
  | true =>
    refine holds_bind.mpr (holds_check.mpr ?_)
    by_cases within : offset < file.bytes.length → min (offset + len) file.bytes.length ≤ maxBlocks * SFS_BLKSIZE
    · rw [if_pos within]
      by_cases short : file.bytes.length < offset + len
      · rw [if_pos short]
        exact ⟨asked.mm, asked.pages, asked.touches, nofun⟩
      · rw [if_neg short]
        refine ⟨asked.mm, asked.pages, asked.touches, fun some_bytes _ => ?_⟩
        have reached := within (by omega)
        unfold Binary.readable
        omega
    · rw [if_neg within]
      exact ⟨rfl, asked.touches⟩

theorem file_bytes {at_ size : Nat} (whole : at_ + size ≤ file.bytes.length) :
    (file.bytes.drop at_).take size = (List.range size).map fun i => file.bytes.getD (at_ + i) 0 := by
  refine List.ext_getElem ?_ fun i inside _ => ?_
  · rw [List.length_take, List.length_drop, List.length_map, List.length_range]
    omega
  · rw [List.length_take, List.length_drop] at inside
    rw [List.getElem_take, List.getElem_drop, List.getElem_map, List.getElem_range, List.getD_eq_getElem _ _ (by omega)]

/- A read that the disk has no error for. -/
theorem load_icode_read_succeeds (no_error : s.io.head?.getD 0 = 0) (small : offset < SFS_MAX_FILE_SIZE)
    (mapped : blocksFor offset ≤ max (blocksFor file.bytes.length) maxBlocks)
    (has : 0 < len → offset + len ≤ file.readable) (enough : 2 ≤ s.memory.length) :
    ∃ t, loadIcodeRead file offset len s = .ok 0 t ∧ t.mm = s.mm ∧ t.pages = s.pages ∧ t.io = s.io.tail ∧
      t.touches = s.touches ∧ s.memory.length ≤ t.memory.length + 2 := by
  unfold loadIcodeRead
  rw [if_neg (by omega)]
  change ∃ t, (if s.io.head?.getD 0 ≠ 0 then _ else _ : LoadM Int) { s with io := s.io.tail } = .ok 0 t ∧ _
  rw [if_neg (not_not.mpr no_error), run_check_bind mapped]
  by_cases empty : len = 0
  · rw [if_pos empty]
    exact ⟨_, rfl, rfl, rfl, rfl, rfl, Nat.le_add_right _ _⟩
  · have whole := has (by omega)
    unfold Binary.readable at whole
    obtain ⟨t, granted, asked⟩ := asked_run (@kmalloc_iobuf_asks { s with io := s.io.tail }) enough
    rw [if_neg empty, run_bind granted, if_neg (by decide), run_check_bind (by omega), if_neg (by omega)]
    exact ⟨t, rfl, asked.mm, asked.pages, asked.io, asked.touches, asked.spent⟩

theorem load_icode_read_runs (io : s.io = []) (some_bytes : 0 < len) (has : offset + len ≤ file.readable)
    (enough : 2 ≤ s.memory.length) : ∃ t, loadIcodeRead file offset len s = .ok 0 t ∧ t.mm = s.mm ∧ t.pages = s.pages ∧
      t.io = [] ∧ t.touches = s.touches ∧ s.memory.length ≤ t.memory.length + 2 := by
  have fits := file.fits
  have inside : offset + len ≤ file.bytes.length := has.trans (Nat.min_le_left _ _)
  obtain ⟨t, run, mm, pages, later, touches, spent⟩ := @load_icode_read_succeeds s file offset len (by rw [io]; rfl) (by omega)
    ((blocks_for_mono (by omega)).trans (Nat.le_max_left _ _)) (fun _ => has) enough
  exact ⟨t, run, mm, pages, by rw [later, io]; rfl, touches, spent⟩

end

/-- What `mm_map` leaves: a new VMA in the space of the user, or the VMAs that there were. -/
structure MmMapped (s t : LoadState) (addr len : Nat) (vmFlags : VmFlags) (ret : Int) : Prop where
  pages : t.pages = s.pages
  touches : t.touches = s.touches
  io : t.io = s.io
  failed : ret ≠ 0 → t.mm = s.mm
  mapped : ret = 0 → UserAccess (roundDown addr) (roundUp (word (addr + len))) ∧
    ∃ inserts, t.mm = s.mm.insert ⟨roundDown addr, roundUp (word (addr + len)), vmFlags⟩ inserts

theorem mm_map_holds {s : LoadState} {addr len : Nat} {vmFlags : VmFlags} :
    Holds (mmMap addr len vmFlags) s (fun ret t => MmMapped s t addr len vmFlags ret) fun stopped t =>
      stopped = .assertion ∧ t.touches = s.touches := by
  have refused : ∀ {t : LoadState} {error : Int}, t.pages = s.pages → t.touches = s.touches → t.io = s.io →
      t.mm = s.mm → error ≠ 0 → MmMapped s t addr len vmFlags error :=
    fun pages touches io mm failed => ⟨pages, touches, io, fun _ => mm, fun zero => absurd zero failed⟩
  unfold mmMap
  by_cases access : UserAccess (roundDown addr) (roundUp (word (addr + len)))
  · rw [if_neg (not_not.mpr access)]
    have insert : Holds (do
        if !(← kmalloc) then return -E_NO_MEM
        insertVmaStruct ⟨roundDown addr, roundUp (word (addr + len)), vmFlags⟩
        return 0 : LoadM Int) s (fun ret t => MmMapped s t addr len vmFlags ret) fun stopped t =>
          stopped = .assertion ∧ t.touches = s.touches := by
      refine holds_bind.mpr (holds_get_bind.mpr (holds_set_bind.mpr (holds_pure.mpr ?_)))
      cases s.memory.isEmpty with
      | true => exact refused rfl rfl rfl rfl (by decide)
      | false =>
        refine holds_bind.mpr (holds_get_bind.mpr ?_)
        by_cases inserts : s.mm.Inserts ⟨roundDown addr, roundUp (word (addr + len)), vmFlags⟩
        · rw [dif_pos inserts]
          exact ⟨rfl, rfl, rfl, fun failed => absurd rfl failed, fun _ => ⟨access, inserts, rfl⟩⟩
        · rw [dif_neg inserts]
          exact ⟨rfl, rfl⟩
    refine holds_get_bind.mpr ?_
    cases s.mm.findVma (roundDown addr) with
    | none => exact insert
    | some vma =>
      by_cases overlap : roundUp (word (addr + len)) > vma.vmStart
      · dsimp only
        rw [if_pos overlap]
        exact refused rfl rfl rfl rfl (by decide)
      · dsimp only
        rw [if_neg overlap]
        exact insert
  · rw [if_pos access]
    exact refused rfl rfl rfl rfl (by decide)

/-- The record of the touched pages grows, and a stop is one of `E`. -/
def Grows {α : Type} (E : LoadStop → Prop) (m : LoadM α) : Prop :=
  ∀ s, Holds m s (fun _ t => ∀ touch ∈ s.touches, touch ∈ t.touches) fun stopped t =>
    E stopped ∧ ∀ touch ∈ s.touches, touch ∈ t.touches

section
variable {E : LoadStop → Prop} {α β : Type} {m : LoadM α} {f : α → LoadM β} {file : Binary}

theorem grows_pure {a : α} : Grows E (pure a : LoadM α) := fun _ _ mem => mem

theorem grows_get : Grows E (get : LoadM LoadState) := fun _ _ mem => mem

theorem grows_modify {g : LoadState → LoadState} (more : ∀ s, ∀ touch ∈ s.touches, touch ∈ (g s).touches) :
    Grows E (modify g : LoadM PUnit) := more

theorem grows_bind (first : Grows E m) (rest : ∀ a, Grows E (f a)) : Grows E (m >>= f) := by
  intro s
  refine holds_bind.mpr (holds_mono (first s) ?_ fun _ _ stopped => stopped)
  intro a t more
  exact holds_mono (rest a t) (fun _ _ later touch mem => later touch (more touch mem))
    fun _ _ stopped => ⟨stopped.1, fun touch mem => stopped.2 touch (more touch mem)⟩

theorem grows_check {stopped : LoadStop} {p : Prop} [Decidable p] (known : E stopped) : Grows E (check stopped p) := by
  intro s
  rw [holds_check]
  by_cases holds : p
  · rw [if_pos holds]
    exact fun _ mem => mem
  · rw [if_neg holds]
    exact ⟨known, fun _ mem => mem⟩

theorem alloc_page_grows : Grows E allocPage := fun _ _ mem => mem

theorem touch_grows {la off size : Nat} : Grows E (touch la off size) := fun _ _ mem => .tail _ mem

theorem pgdir_alloc_page_grows {la : Nat} : Grows E (pgdirAllocPage la) := by
  intro s
  refine holds_mono pgdir_alloc_page_holds ?_ fun _ _ never => never.elim
  intro granted t allocated touch mem
  cases granted with
  | false => rwa [allocated.touches]
  | true =>
    rw [allocated.touches]
    exact .tail _ mem

theorem set_bytes_same (bytes : List UInt8) : ∀ {s : LoadState} {addr : Nat},
    (s.setBytes addr bytes).mm = s.mm ∧ (s.setBytes addr bytes).touches = s.touches ∧
      (s.setBytes addr bytes).memory = s.memory ∧ (s.setBytes addr bytes).io = s.io := by
  induction bytes with
  | nil => exact ⟨rfl, rfl, rfl, rfl⟩
  | cons byte rest ih =>
    intro s addr
    exact @ih (s.setByte addr byte) (addr + 1)

theorem set_bytes_grows {addr : Nat} {bytes : List UInt8} :
    Grows E (modify fun s => s.setBytes addr bytes : LoadM PUnit) :=
  grows_modify fun s touch mem => by rwa [(@set_bytes_same bytes s addr).2.1]

theorem mm_map_grows {addr len : Nat} {vmFlags : VmFlags} (asserted : E .assertion) : Grows E (mmMap addr len vmFlags) := by
  intro s
  refine holds_mono mm_map_holds ?_ ?_
  · intro ret t mapped touch mem
    rwa [mapped.touches]
  · rintro _ t ⟨rfl, same⟩
    refine ⟨asserted, fun touch mem => ?_⟩
    rwa [same]

theorem load_icode_read_grows {offset len : Nat} (panicked : E .panic) : Grows E (loadIcodeRead file offset len) := by
  intro s
  refine holds_mono load_icode_read_holds ?_ ?_
  · intro ret t done touch mem
    rwa [done.touches]
  · rintro _ t ⟨rfl, same⟩
    refine ⟨panicked, fun touch mem => ?_⟩
    rwa [same]

theorem fill_pages_grows {act : Nat → Nat → Nat → Nat → Int → LoadM (Except Int Int)} {last : Nat}
    (acts : ∀ la off size start ret, Grows E (act la off size start ret)) (fuel : Nat) :
    ∀ la start ret, Grows E (fillPages act last fuel la start ret) := by
  induction fuel with
  | zero => exact fun _ _ _ => grows_pure
  | succ fuel ih =>
    intro la start ret
    unfold fillPages
    split_ifs
    · exact grows_pure
    · refine grows_bind pgdir_alloc_page_grows fun granted => ?_
      cases granted with
      | false => exact grows_pure
      | true =>
        refine grows_bind (acts _ _ _ _ _) fun done => ?_
        cases done with
        | error ret => exact grows_pure
        | ok ret => exact ih _ _ _

theorem read_page_grows {ph : CowFork.ProgHdr} (panicked : E .panic) (la off size start : Nat) (ret : Int) :
    Grows E (readPage file ph la off size start ret) := by
  refine grows_bind touch_grows fun _ => grows_bind (load_icode_read_grows panicked) fun ret => ?_
  split_ifs
  · exact grows_pure
  · exact grows_bind set_bytes_grows fun _ => grows_pure

theorem clear_page_grows (la off size start : Nat) (ret : Int) : Grows E (clearPage la off size start ret) :=
  grows_bind touch_grows fun _ => grows_bind set_bytes_grows fun _ => grows_pure

theorem clear_tail_grows {la start last : Nat} (overran : E .overrun) (asserted : E .assertion) :
    Grows E (clearTail la start last) :=
  grows_bind touch_grows fun _ => grows_bind (grows_check overran) fun _ => grows_bind set_bytes_grows fun _ =>
    grows_bind (grows_check asserted) fun _ => grows_pure

theorem last_fill_grows {last la start : Nat} {ret : Int} : Grows E (do
    let filled ← fillPages clearPage last (← get).memory.length la start ret
    return filled.map fun _ => () : LoadM (Except Int Unit)) :=
  grows_bind grows_get fun _ => grows_bind (fill_pages_grows clear_page_grows _ _ _ _) fun _ => grows_pure

theorem fill_segment_grows {ph : CowFork.ProgHdr} (overran : E .overrun) (asserted : E .assertion) (panicked : E .panic) :
    Grows E (fillSegment file ph) := by
  refine grows_bind grows_get fun s => grows_bind (fill_pages_grows (read_page_grows panicked) _ _ _ _) fun filled => ?_
  cases filled with
  | error ret => exact grows_pure
  | ok place =>
    dsimp only
    split_ifs
    · exact grows_pure
    · exact grows_bind (clear_tail_grows overran asserted) fun start => last_fill_grows
    · exact grows_bind grows_pure fun start => last_fill_grows

theorem load_segment_grows {ph : CowFork.ProgHdr} (overran : E .overrun) (asserted : E .assertion) (panicked : E .panic) :
    Grows E (loadSegment file ph) := by
  unfold loadSegment
  split_ifs
  · exact grows_pure
  · exact grows_pure
  · refine grows_bind (mm_map_grows asserted) fun ret => ?_
    split_ifs
    · exact grows_pure
    · exact fill_segment_grows overran asserted panicked

theorem load_segments_grows (overran : E .overrun) (asserted : E .assertion) (panicked : E .panic) (n : Nat) :
    ∀ pos, Grows E (loadSegments file n pos) := by
  induction n with
  | zero => exact fun _ => grows_pure
  | succ n ih =>
    intro pos
    refine grows_bind (load_icode_read_grows panicked) fun ret => ?_
    split_ifs
    · exact grows_pure
    · refine grows_bind (load_segment_grows overran asserted panicked) fun loaded => ?_
      cases loaded with
      | error ret => exact grows_pure
      | ok _ => exact ih _

def stackVma : Vma := ⟨CowFork.USTACKTOP - CowFork.USTACKSIZE, CowFork.USTACKTOP, ⟨true, true, false, true⟩⟩

theorem stack_page_holds {s : LoadState} {i : Nat} : Holds (stackPage i) s (fun _ t => t.mm = s.mm ∧
    (t.pages (entry (CowFork.USTACKTOP - i * PGSIZE))).isSome ∧ (∀ j, (s.pages j).isSome → (t.pages j).isSome) ∧
    t.touches = ⟨s.mm.mmapList, CowFork.USTACKTOP - i * PGSIZE, 0, PGSIZE⟩ :: s.touches)
    fun stopped t => stopped = .assertion ∧ t.touches = s.touches := by
  unfold stackPage
  refine holds_step (holds_mono pgdir_alloc_page_holds (fun _ _ allocated => allocated) fun _ _ never => never.elim)
    fun granted t allocated => ?_
  cases granted with
  | false => exact ⟨rfl, allocated.touches⟩
  | true =>
    obtain ⟨frame, page⟩ := allocated.page
    refine ⟨allocated.mm, ?_, fun j there => ?_, allocated.touches⟩
    · rw [page, Function.update_self]
      rfl
    · rw [page]
      by_cases here : j = entry (CowFork.USTACKTOP - i * PGSIZE)
      · rw [here, Function.update_self]
        rfl
      · rwa [Function.update_of_ne here]

end
end Ucore.Exec
