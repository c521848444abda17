import Ucore.Mm.ExecSegments

/- The runs of `load_icode`: a file goes astray with enough memory, or never. -/
namespace Ucore.Exec
open Stopping
open CowFork (PGSIZE USERBASE USERTOP USTACKTOP USTACKSIZE ELF_MAGIC ELF_PT_LOAD ProgHdr word roundDown roundUp
  UserAccess)

section
variable {file : Binary} {ph : ProgHdr} {s t u : LoadState} {mm mm' : MmStruct} {la start first last stop : Nat}
  {args : ArgList} {α β : Type} {m : LoadM α} {f : α → LoadM β}

theorem digits_lt (bytes : List UInt8) :
    bytes.foldr (fun byte n => byte.toNat + 256 * n) 0 < 256 ^ bytes.length := by
  induction bytes with
  | nil => decide
  | cons byte rest ih =>
    have byte_lt := byte.toNat_lt
    rw [List.foldr_cons, List.length_cons, Nat.pow_succ]
    omega

theorem field_lt (bytes : List UInt8) (pos size : Nat) : field bytes pos size < 256 ^ size :=
  lt_of_lt_of_le (digits_lt _) (Nat.pow_le_pow_right (by decide) (List.length_take_le _ _))

theorem prog_hdr_fields (file : Binary) (pos : Nat) : Fields (progHdr file pos) :=
  ⟨field_lt _ _ 8, field_lt _ _ 8, field_lt _ _ 8, field_lt _ _ 8⟩

theorem segments_inside (n : Nat) : ∀ {s : LoadState} {pos : Nat}, AllInside s → Sound file n pos s.mm →
    Holds (loadSegments file n pos) s (fun _ t => AllInside t) fun _ t => AllInside t := by
  induction n with
  | zero => exact fun inside _ => inside
  | succ n ih =>
    intro s pos inside sound
    refine holds_bind.mpr (holds_mono load_icode_read_holds ?_ ?_)
    swap
    · rintro stopped u ⟨-, touches⟩
      unfold AllInside
      rwa [touches]
    intro ret u read
    have insideU : AllInside u := by
      unfold AllInside
      rwa [read.touches]
    by_cases short : ret ≠ 0
    · rw [if_pos short]
      exact insideU
    rw [if_neg short]
    unfold Sound at sound
    have here := sound (read.whole (by decide) (not_not.mp short))
    rw [← read.mm] at here
    refine holds_bind.mpr (holds_mono (segment_inside (prog_hdr_fields file pos) insideU ?_) ?_ fun _ _ stopped => stopped)
    · intro loads sizes mm' mapped
      rw [if_neg (not_not.mpr loads)] at here
      exact (here sizes mm' mapped).1
    · rintro r v ⟨insideV, loaded⟩
      cases r with
      | error ret => exact insideV
      | ok _ =>
        refine ih insideV ?_
        rcases loaded rfl with ⟨other, same⟩ | ⟨loads, sizes, mapped, has⟩
        · rw [if_pos other] at here
          rwa [same]
        · rw [if_neg (not_not.mpr loads)] at here
          exact (here sizes v.mm mapped).2 has

theorem stack_inside (i : Nat) (some_page : 1 ≤ i) (few : i ≤ 4) (mem : stackVma ∈ s.mm.mmapList) (inside : AllInside s) :
    Holds (stackPage i) s (fun _ t => stackVma ∈ t.mm.mmapList ∧ AllInside t) fun _ t => AllInside t := by
  refine holds_mono stack_page_holds ?_ ?_
  · rintro _ t ⟨mm, -, -, touches⟩
    refine ⟨by rwa [mm], ?_⟩
    unfold AllInside
    rw [touches]
    have bounds : USERBASE ≤ USTACKTOP - i * PGSIZE ∧ 0 < PGSIZE ∧ USTACKTOP - i * PGSIZE + PGSIZE ≤ USTACKTOP ∧
        USTACKTOP - USTACKSIZE ≤ USTACKTOP - i * PGSIZE := by
      unfold USTACKSIZE USTACKTOP USERBASE USERTOP PGSIZE
      omega
    obtain ⟨user, some_bytes, top, bottom⟩ := bounds
    exact inside_cons ⟨Nat.le_of_eq (Nat.zero_add _), ⟨user, Nat.lt_add_of_pos_right some_bytes, top⟩, stackVma, mem,
      bottom, top⟩ inside
  · rintro _ t ⟨-, touches⟩
    unfold AllInside
    rwa [touches]

theorem build_stack_inside (inside : AllInside s) :
    Holds buildStack s (fun _ t => AllInside t) fun _ t => AllInside t := by
  unfold buildStack
  refine holds_bind.mpr (holds_mono mm_map_holds ?_ ?_)
  · intro ret t mapped
    have insideT : AllInside t := by
      unfold AllInside
      rwa [mapped.touches]
    by_cases failed : ret ≠ 0
    · rw [if_pos failed]
      exact insideT
    obtain ⟨-, inserts, mm⟩ := mapped.mapped (not_not.mp failed)
    have mem : stackVma ∈ t.mm.mmapList := by
      rw [mm]
      exact List.mem_append_right _ (.head _)
    rw [if_neg failed]
    refine holds_bind.mpr (holds_mono (stack_inside 1 (by decide) (by decide) mem insideT) ?_ fun _ _ stopped => stopped)
    rintro _ t ⟨mem, inside⟩
    refine holds_bind.mpr (holds_mono (stack_inside 2 (by decide) (by decide) mem inside) ?_ fun _ _ stopped => stopped)
    rintro _ t ⟨mem, inside⟩
    refine holds_bind.mpr (holds_mono (stack_inside 3 (by decide) (by decide) mem inside) ?_ fun _ _ stopped => stopped)
    rintro _ t ⟨mem, inside⟩
    refine holds_bind.mpr (holds_mono (stack_inside 4 (by decide) (by decide) mem inside) ?_ fun _ _ stopped => stopped)
    exact fun _ t last => last.2
  · rintro _ t ⟨-, touches⟩
    unfold AllInside
    rwa [touches]

/-- The program touches no page of the address space but through the user's addresses. -/
def Untouching (m : LoadM α) : Prop :=
  ∀ s, Holds m s (fun _ t => t.touches = s.touches) fun _ t => t.touches = s.touches

theorem untouching_bind (first : Untouching m) (rest : ∀ a, Untouching (f a)) : Untouching (m >>= f) := by
  intro s
  refine holds_bind.mpr (holds_mono (first s) ?_ fun _ _ stopped => stopped)
  intro a t same
  exact holds_mono (rest a t) (fun _ _ later => later.trans same) fun _ _ stopped => stopped.trans same

theorem memcpy_untouching (src : List UInt8) : ∀ addr, Untouching (memcpy addr src) := by
  induction src with
  | nil => exact fun _ _ => rfl
  | cons byte rest ih =>
    intro addr s
    refine holds_get_bind.mpr (holds_bind.mpr (holds_check.mpr ?_))
    split_ifs
    · exact holds_set_bind.mpr (ih (addr + 1) (s.setByte addr byte))
    · exact rfl

theorem push_untouching {addr : Nat} {src : List UInt8} : Untouching (push addr src) := by
  refine untouching_bind (untouching_bind (fun _ => rfl) fun s => ?_) fun copied => ?_
  · split_ifs
    · exact fun _ => rfl
    · exact untouching_bind (memcpy_untouching src addr) fun _ _ => rfl
  · intro s
    rw [holds_check]
    split_ifs <;> rfl

theorem push_strings_untouching (rest : List (List UInt8)) : ∀ sp uargv, Untouching (pushStrings rest sp uargv) := by
  induction rest with
  | nil => exact fun _ _ _ => rfl
  | cons arg rest ih => exact fun sp uargv => untouching_bind push_untouching fun _ => ih _ _

theorem push_words_untouching (rest : List Nat) : ∀ sp, Untouching (pushWords rest sp) := by
  induction rest with
  | nil => exact fun _ _ => rfl
  | cons n rest ih => exact fun sp => untouching_bind push_untouching fun _ => ih _

theorem setup_args_untouching {epc : Nat} : Untouching (setupArgs args epc) :=
  untouching_bind (push_strings_untouching _ _ _) fun _ => untouching_bind (push_words_untouching _ _) fun _ =>
    untouching_bind (push_words_untouching _ _) fun _ _ => rfl

/-- Whatever headers `load_icode` reads from the file, none goes astray. -/
def SoundFile (file : Binary) : Prop :=
  sizeofElfhdr ≤ file.readable → eMagic file = ELF_MAGIC → Sound file (ePhnum file) (ePhoff file) mmCreate

theorem load_image_inside (sound : SoundFile file) (memory : List Frame) (io : List Int) :
    Holds (loadImage file) (execState memory io) (fun _ t => AllInside t) fun _ t => AllInside t := by
  have granted : ∀ {s : LoadState}, Holds allocPage s (fun _ t => t.mm = s.mm ∧ t.touches = s.touches) fun _ t =>
      AllInside t := fun {_} => ⟨rfl, rfl⟩
  have nothing : ∀ {t : LoadState}, t.touches = [] → AllInside t := by
    intro t none_touched touch mem
    rw [none_touched] at mem
    cases mem
  unfold loadImage
  refine holds_step granted ?_
  rintro first s₁ ⟨mm₁, touches₁⟩
  have clean₁ : s₁.touches = [] := touches₁
  cases first with
  | false => exact nothing clean₁
  | true =>
    refine holds_step granted ?_
    rintro second s₂ ⟨mm₂, touches₂⟩
    have clean₂ : s₂.touches = [] := touches₂.trans clean₁
    cases second with
    | false => exact nothing clean₂
    | true =>
      refine holds_bind.mpr (holds_mono load_icode_read_holds ?_ fun _ _ stopped => nothing (stopped.2.trans clean₂))
      intro ret s₃ read
      have clean₃ : AllInside s₃ := nothing (read.touches.trans clean₂)
      by_cases short : ret ≠ 0
      · rw [if_pos short]
        exact clean₃
      rw [if_neg short]
      by_cases magic : eMagic file ≠ ELF_MAGIC
      · rw [if_pos magic]
        exact clean₃
      rw [if_neg magic]
      have whole := read.whole (by decide) (not_not.mp short)
      have here := sound (by omega) (not_not.mp magic)
      have empty : s₃.mm = mmCreate := read.mm.trans (mm₂.trans mm₁)
      rw [← empty] at here
      refine holds_step (segments_inside _ clean₃ here) fun loaded t inside => ?_
      cases loaded with
      | error ret => exact inside
      | ok _ =>
        refine holds_step (build_stack_inside inside) fun ret u insideU => ?_
        by_cases failed : ret ≠ 0
        · rw [if_pos failed]
          exact insideU
        · rw [if_neg failed]
          exact insideU

theorem load_icode_inside (sound : SoundFile file) (memory : List Frame) (io : List Int) :
    Holds (loadIcode file args) (execState memory io) (fun _ t => AllInside t) fun _ t => AllInside t := by
  refine holds_step (load_image_inside sound memory io) fun loaded t inside => ?_
  cases loaded with
  | error ret => exact inside
  | ok _ =>
    refine holds_bind.mpr (holds_mono (setup_args_untouching t) ?_ ?_)
    · intro tf u same touch mem
      exact inside touch (same ▸ mem)
    · intro _ u same touch mem
      exact inside touch (same ▸ mem)

/-- A page has been touched that does not belong to a VMA, or more than a page. -/
def Bad (r : EStateM.Result LoadStop LoadState α) : Prop := ∃ touch ∈ (left r).touches, ¬ touch.Inside

/-- The program has come to a state with its frames, but `k`, and nothing wrong with the disk. -/
structure Gone (mm : MmStruct) (k : Nat) (s t : LoadState) : Prop where
  mm : t.mm = mm
  io : t.io = []
  memory : s.memory.length ≤ t.memory.length + k
  touches : ∀ touch ∈ s.touches, touch ∈ t.touches

theorem left_grows (grows : Grows (fun _ => True) m) (s : LoadState) : ∀ touch ∈ s.touches, touch ∈ (left (m s)).touches := by
  have holds := grows s
  unfold Holds at holds
  cases run : m s with
  | ok a t =>
    rw [run] at holds
    exact holds
  | error e t =>
    rw [run] at holds
    exact holds.2

/- A touch stays on record. -/
theorem bad_bind (bad : Bad (m s)) (rest : ∀ a, Grows (fun _ => True) (f a)) : Bad ((m >>= f) s) := by
  obtain ⟨touch, mem, outside⟩ := bad
  refine ⟨touch, ?_, outside⟩
  cases run : m s with
  | ok a t =>
    rw [run] at mem
    rw [run_bind run]
    exact left_grows (rest a) t touch mem
  | error e t =>
    rw [run] at mem
    rw [run_bind_stop run]
    exact mem

theorem bad_after {a : α} (run : m s = .ok a t) (bad : Bad (f a t)) : Bad ((m >>= f) s) := by
  unfold Bad
  rw [run_bind run]
  exact bad

/-- Nothing keeps the turns of a loop from getting to the address `stop`. -/
def ActRuns (act : Nat → Nat → Nat → Nat → Int → LoadM (Except Int Int)) (first stop : Nat) : Prop :=
  ∀ la off size start ret u, u.io = [] → 0 < size → first ≤ start → start + size ≤ stop → 2 ≤ u.memory.length →
    ∃ ret' t, act la off size start ret u = .ok (.ok ret') t ∧ Gone u.mm 2 u t

theorem gone_trans {j k : Nat} (one : Gone mm j s t) (two : Gone mm' k t u) : Gone mm' (j + k) s u where
  mm := two.mm
  io := two.io
  memory := by
    have first := one.memory
    have second := two.memory
    omega
  touches := fun touch mem => two.touches touch (one.touches touch mem)

theorem gone_refl (io : u.io = []) (k : Nat) : Gone u.mm k u u := ⟨rfl, io, Nat.le_add_right _ _, fun _ mem => mem⟩

theorem Gone.mono {j k : Nat} (gone : Gone mm j s t) (le : j ≤ k) : Gone mm k s t :=
  ⟨gone.mm, gone.io, gone.memory.trans (by omega), gone.touches⟩

theorem new_page_gone (io : u.io = []) (page : NewPage la u t) : Gone u.mm 3 u t where
  mm := page.mm
  io := page.io.trans io
  memory := page.spent
  touches := fun touch mem => by
    rw [page.touches]
    exact .tail _ mem

theorem read_gone {offset len : Nat} (io : u.io = []) (some_bytes : 0 < len) (has : offset + len ≤ file.readable)
    (enough : 2 ≤ u.memory.length) : ∃ t, loadIcodeRead file offset len u = .ok 0 t ∧ Gone u.mm 2 u t := by
  obtain ⟨t, read, mm, -, clean, touches, spent⟩ := load_icode_read_runs io some_bytes has enough
  refine ⟨t, read, mm, clean, spent, fun touch mem => ?_⟩
  rwa [touches]

theorem set_bytes_gone (io : u.io = []) (addr : Nat) (bytes : List UInt8) : Gone u.mm 0 u (u.setBytes addr bytes) := by
  obtain ⟨mm, touches, memory, kept⟩ := @set_bytes_same bytes u addr
  refine ⟨mm, kept.trans io, by rw [memory]; exact le_rfl, fun touch mem => ?_⟩
  rwa [touches]

theorem touch_gone (io : u.io = []) (la off size : Nat) :
    Gone u.mm 0 u { u with touches := ⟨u.mm.mmapList, la, off, size⟩ :: u.touches } :=
  ⟨rfl, io, le_rfl, fun _ mem => .tail _ mem⟩

theorem file_offset_has (has : HasBytes file ph stop) (before : start ≤ stop) :
    fileOffset ph start = ph.p_offset + (start - ph.p_va) := by
  have fits := readable_le file
  refine Nat.mod_eq_of_lt ?_
  unfold HasBytes at has
  unfold SFS_MAX_FILE_SIZE at fits
  omega

theorem read_act_runs (has : HasBytes file ph stop) : ActRuns (readPage file ph) ph.p_va stop := by
  intro la off size start ret u io some_bytes after before enough
  have place := file_offset_has has (show start ≤ stop by omega)
  have touched := touch_gone io la off size
  obtain ⟨t, read, gone⟩ := @read_gone file { u with touches := ⟨u.mm.mmapList, la, off, size⟩ :: u.touches }
    (fileOffset ph start) size io some_bytes (by unfold HasBytes at has; omega) enough
  have stored := set_bytes_gone gone.io (la + off) ((file.bytes.drop (fileOffset ph start)).take size)
  rw [gone.mm] at stored
  refine ⟨0, _, ?_, gone_trans (gone_trans touched gone) stored⟩
  change (loadIcodeRead file (fileOffset ph start) size >>= _) _ = _
  rw [run_bind read]
  rfl

theorem clear_act_runs : ActRuns clearPage first stop := by
  intro la off size start ret u io some_bytes after before enough
  have touched := touch_gone io la off size
  have stored := set_bytes_gone touched.io (la + off) (List.replicate size 0)
  exact ⟨ret, _, rfl, (gone_trans touched stored).mono (Nat.zero_le _)⟩

theorem fill_done {act : Nat → Nat → Nat → Nat → Int → LoadM (Except Int Int)} {fuel : Nat} {ret : Int} (ended : last ≤ start) :
    fillPages act last fuel la start ret u = .ok (.ok (la, start, ret)) u := by
  cases fuel with
  | zero =>
    unfold fillPages
    rw [if_neg (by omega)]
    rfl
  | succ fuel =>
    unfold fillPages
    rw [if_pos ended]
    rfl

/- A turn takes five frames at most: the page, two tables for it, and two for the buffer of the read. -/
theorem fill_reaches {act : Nat → Nat → Nat → Nat → Int → LoadM (Except Int Int)} (runs : ActRuns act first stop)
    (below : stop ≤ last) (place : PGSIZE ∣ stop ∨ stop = last) (small : stop + PGSIZE < 2 ^ 64) (fuel n : Nat) :
    ∀ la start ret u, PGSIZE ∣ la → la ≤ start → start < la + PGSIZE → first ≤ start → start < stop →
      stop ≤ la + n * PGSIZE → u.io = [] → 5 * n ≤ u.memory.length → ∃ left la' ret' t, fuel ≤ left ∧
      fillPages act last (fuel + n) la start ret u = fillPages act last left la' stop ret' t ∧ Gone u.mm (5 * n) u t ∧
        PGSIZE ∣ la' ∧ stop ≤ la' ∧ la' < stop + PGSIZE := by
  induction n with
  | zero =>
    intro la start ret u aligned low high after before close
    omega
  | succ n ih =>
    intro la start ret u aligned low high after before close io enough
    obtain ⟨v, alloc, page⟩ := @alloc_runs u la (by omega)
    have mapped := new_page_gone io page
    have frames := mapped.memory
    have next : word (la + PGSIZE) = la + PGSIZE := by
      unfold word
      omega
    have more : start < last := by omega
    have turn := turn_end low high more
    obtain ⟨size, size_is⟩ : ∃ size,
      size = PGSIZE - (start - la) - (if last < la + PGSIZE then la + PGSIZE - last else 0) := ⟨_, rfl⟩
    rw [← size_is] at turn
    have within : min last (la + PGSIZE) ≤ stop := by
      rcases place with multiple | rfl
      · have step : la + PGSIZE ≤ stop := by
          obtain ⟨i, rfl⟩ := aligned
          obtain ⟨j, rfl⟩ := multiple
          unfold PGSIZE at *
          omega
        omega
      · omega
    have end_is : word (start + size) = min last (la + PGSIZE) := by
      rw [turn]
      unfold word
      omega
    obtain ⟨ret', w, acted, done⟩ := runs la (start - la) size start ret v mapped.io (by omega) after (by omega) (by omega)
    rw [mapped.mm] at done
    have gone : Gone u.mm 5 u w := gone_trans mapped done
    have first_turn : fillPages act last (fuel + (n + 1)) la start ret u =
        fillPages act last (fuel + n) (la + PGSIZE) (min last (la + PGSIZE)) ret' w := by
      rw [← Nat.add_assoc]
      conv_lhs => unfold fillPages
      rw [if_neg (by omega), run_bind alloc, if_neg (by decide), next, ← size_is, run_bind acted, ← end_is]
    rw [first_turn]
    by_cases further : min last (la + PGSIZE) < stop
    · have here : min last (la + PGSIZE) = la + PGSIZE := by omega
      rw [here] at further ⊢
      have close' : stop ≤ la + PGSIZE + n * PGSIZE := by
        rw [Nat.succ_mul] at close
        omega
      have frames' := gone.memory
      obtain ⟨left, la', ret'', t, fueled, same, rest_gone, at_stop⟩ := ih (la + PGSIZE) (la + PGSIZE) ret' w
        (Dvd.dvd.add aligned (dvd_refl _)) le_rfl (by unfold PGSIZE; omega) (by omega) further close' gone.io (by omega)
      rw [gone.mm] at rest_gone
      exact ⟨left, la', ret'', t, fueled, same, (gone_trans gone rest_gone).mono (by omega), at_stop⟩
    · have here : min last (la + PGSIZE) = stop := by omega
      rw [here]
      exact ⟨fuel + n, la + PGSIZE, ret', w, by omega, rfl, gone.mono (by omega), Dvd.dvd.add aligned (dvd_refl _),
        by omega, by omega⟩

theorem mm_map_runs {addr len : Nat} {vmFlags : VmFlags} (mapped : s.mm.mapped addr len vmFlags = some mm')
    (io : s.io = []) (enough : 0 < s.memory.length) :
    ∃ t, mmMap addr len vmFlags s = .ok 0 t ∧ Gone mm' 1 s t := by
  unfold MmStruct.mapped at mapped
  split_ifs at mapped with access overlap inserts
  cases mapped
  have found : s.mm.findVma (roundDown addr) = none := found_overlaps inserts
  have memory : s.memory.isEmpty = false := by
    cases frames : s.memory with
    | nil =>
      rw [frames] at enough
      cases enough
    | cons frame rest => rfl
  refine ⟨⟨s.mm.insert _ inserts, s.pages, s.tables, s.memory.tail, s.io, s.touches⟩, ?_, rfl, io, ?_, fun _ mem => mem⟩
  · unfold mmMap
    rw [if_neg (not_not.mpr access)]
    dsimp only
    rw [run_bind (show (get : LoadM LoadState) s = .ok s s from rfl), found]
    change (if (!!s.memory.isEmpty) = true then _ else _ : LoadM Int) { s with memory := s.memory.tail } = _
    rw [memory, if_neg (by decide)]
    have inserted : insertVmaStruct ⟨roundDown addr, roundUp (word (addr + len)), vmFlags⟩
        { s with memory := s.memory.tail } = .ok ⟨⟩ ⟨s.mm.insert _ inserts, s.pages, s.tables, s.memory.tail, s.io, s.touches⟩ := by
      change (if inserts : s.mm.Inserts _ then set { s with memory := s.memory.tail, mm := s.mm.insert _ inserts }
        else throw LoadStop.assertion : LoadM PUnit) { s with memory := s.memory.tail } = _
      rw [dif_pos inserts]
      rfl
    rw [run_bind inserted]
    rfl
  · rw [List.length_tail]
    omega

theorem bad_from {touch : Touch} (grows : Grows (fun _ => True) m) (mem : touch ∈ s.touches) (outside : ¬ touch.Inside) :
    Bad (m s) :=
  ⟨touch, left_grows grows s touch mem, outside⟩

/- A page without a VMA is the next to map. -/
theorem fill_bad {fuel : Nat} {ret : Int} (missing : ¬ Covered u.mm.mmapList la) (more : start < last)
    (enough : 3 ≤ u.memory.length) : Bad (fillPages (readPage file ph) last (fuel + 1) la start ret u) := by
  obtain ⟨v, alloc, page⟩ := @alloc_runs u la enough
  unfold fillPages
  rw [if_neg (by omega)]
  refine bad_after alloc (bad_from ?_ (by rw [page.touches]; exact .head _) fun inside => missing inside.2)
  rw [if_neg (by decide)]
  refine grows_bind (read_page_grows trivial _ _ _ _ _) fun acted => ?_
  cases acted with
  | error ret => exact grows_pure
  | ok ret => exact fill_pages_grows (read_page_grows trivial) _ _ _ _

/- The rest of a page that is before the end of the file's part and after that of the segment. -/
theorem clear_tail_bad (low : la < start + PGSIZE) (high : start < la) (beyond : last < start) (small : la < 2 ^ 64) :
    Bad (clearTail la start last u) := by
  obtain ⟨size, size_is⟩ : ∃ size, size = (if last < la then word (PGSIZE - (start + PGSIZE - la) + 2 ^ 64 - (la - last))
    else PGSIZE - (start + PGSIZE - la)) := ⟨_, rfl⟩
  have huge : PGSIZE < start + PGSIZE - la + size := by
    rw [size_is, if_pos (by omega)]
    unfold word
    unfold PGSIZE at *
    omega
  have touched : touch (la - PGSIZE) (start + PGSIZE - la) size u = .ok () ⟨u.mm, u.pages, u.tables, u.memory, u.io,
    ⟨u.mm.mmapList, la - PGSIZE, start + PGSIZE - la, size⟩ :: u.touches⟩ := rfl
  unfold clearTail
  dsimp only
  rw [← size_is]
  refine bad_after touched (bad_from ?_ (.head _) fun inside => ?_)
  · exact grows_bind (grows_check trivial) fun _ => grows_bind set_bytes_grows fun _ => grows_bind (grows_check trivial)
      fun _ => grows_pure
  · have page := inside.1
    dsimp only at page
    omega

theorem load_segment_fills (loads : ph.p_type = ELF_PT_LOAD) (sizes : ph.p_filesz ≤ ph.p_memsz)
    (mapped : mmMap ph.p_va ph.p_memsz (segmentFlags ph) s = .ok 0 t) :
    loadSegment file ph s = fillSegment file ph t := by
  unfold loadSegment
  rw [if_neg (not_not.mpr loads), if_neg (by omega), run_bind mapped, if_neg (by decide)]

/- The pages of a segment that are filled from the file or cleared, with frames enough. -/
theorem fill_segment_astray (user : ph.p_va < USERTOP) (memsz : ph.p_memsz < 2 ^ 64) (astray : Astray file mm' ph) :
    ∃ k, ∀ u, u.mm = mm' → u.io = [] → k ≤ u.memory.length → Bad (fillSegment file ph u) := by
  obtain ⟨wraps, stop, after, has, place⟩ := astray
  have fits := readable_le file
  have below : stop ≤ ph.fileEnd := by
    rcases place with ⟨before, -⟩ | ⟨rfl, -⟩
    · omega
    · exact le_rfl
  have small : stop + PGSIZE < 2 ^ 64 := by
    unfold HasBytes at has
    unfold SFS_MAX_FILE_SIZE at fits
    unfold USERTOP at user
    unfold PGSIZE
    omega
  have first := round_down_le ph.p_va
  have close : ph.p_va < roundDown ph.p_va + PGSIZE := by
    unfold roundDown PGSIZE
    omega
  have pages : stop ≤ roundDown ph.p_va + stop * PGSIZE :=
    (Nat.le_mul_of_pos_right _ (by decide)).trans (Nat.le_add_left _ _)
  refine ⟨5 * stop + 3, fun u mm io enough => ?_⟩
  obtain ⟨fuel, fuel_is⟩ : ∃ fuel, u.memory.length = fuel + 1 + stop := ⟨u.memory.length - 1 - stop, by omega⟩
  obtain ⟨left, la, ret, t, fueled, filled, gone, aligned, above, near⟩ := fill_reaches (read_act_runs has) below
    (place.imp (·.2.1) (·.1)) small (fuel + 1) stop (roundDown ph.p_va) ph.p_va (-E_NO_MEM) u (Dvd.intro_left _ rfl) first
    close le_rfl after pages io (by omega)
  rw [← fuel_is] at filled
  have memory := gone.memory
  have got : (get : LoadM LoadState) u = .ok u u := rfl
  have wrapped : ph.memEnd < ph.p_va := by
    unfold ProgHdr.memEnd word
    unfold USERTOP at user
    omega
  rcases place with ⟨before, multiple, missing⟩ | ⟨rfl, ragged⟩
  · have here : la = stop := by
      obtain ⟨i, rfl⟩ := aligned
      obtain ⟨j, rfl⟩ := multiple
      unfold PGSIZE at *
      omega
    obtain ⟨further, left_is⟩ : ∃ further, left = further + 1 := ⟨left - 1, by omega⟩
    rw [here, left_is] at filled
    refine bad_after got (bad_bind ?_ fun r => ?_)
    · rw [filled]
      exact fill_bad (by rw [gone.mm, mm]; exact missing) before (by omega)
    · cases r with
      | error ret => exact grows_pure
      | ok place =>
        dsimp only
        split_ifs
        · exact grows_pure
        · exact grows_bind (clear_tail_grows trivial trivial) fun start => last_fill_grows
        · exact grows_bind grows_pure fun start => last_fill_grows
  · have filled := filled.trans (fill_done le_rfl)
    have tail : ph.fileEnd < la := by
      refine Nat.lt_of_le_of_ne above fun same => ragged ?_
      rw [same]
      exact aligned
    refine bad_after got (bad_after filled ?_)
    dsimp only
    rw [if_neg (by omega), if_pos tail]
    exact bad_bind (clear_tail_bad (by omega) tail (by omega) (by omega)) fun start => last_fill_grows

theorem bss_runs {ret : Int} (top : ph.memEnd ≤ USERTOP) (io : u.io = []) (enough : 5 * ph.memEnd ≤ u.memory.length)
    (place : start < ph.memEnd → la = roundDown start) : ∃ t, (do
      let filled ← fillPages clearPage ph.memEnd (← get).memory.length la start ret
      return filled.map fun _ => () : LoadM (Except Int Unit)) u = .ok (.ok ()) t ∧ Gone u.mm (5 * ph.memEnd) u t := by
  have got : (get : LoadM LoadState) u = .ok u u := rfl
  by_cases more : start < ph.memEnd
  · have here := place more
    have low := round_down_le start
    have close : start < roundDown start + PGSIZE := by
      unfold roundDown PGSIZE
      omega
    have pages : ph.memEnd ≤ roundDown start + ph.memEnd * PGSIZE :=
      (Nat.le_mul_of_pos_right _ (by decide)).trans (Nat.le_add_left _ _)
    obtain ⟨fuel, fuel_is⟩ : ∃ fuel, u.memory.length = fuel + ph.memEnd := ⟨u.memory.length - ph.memEnd, by omega⟩
    obtain ⟨left, la', ret', t, -, filled, gone, -⟩ := fill_reaches (@clear_act_runs start ph.memEnd) le_rfl (.inr rfl)
      (by unfold USERTOP at top; unfold PGSIZE; omega) fuel ph.memEnd (roundDown start) start ret u (Dvd.intro_left _ rfl)
      low close le_rfl more pages io enough
    refine ⟨t, ?_, gone⟩
    rw [run_bind got, here, fuel_is, run_bind (filled.trans (fill_done le_rfl))]
    rfl
  · refine ⟨u, ?_, gone_refl io _⟩
    rw [run_bind got, run_bind (fill_done (by omega))]
    rfl

theorem copy_runs (user : ph.p_va < USERTOP) (has : ph.p_va < ph.fileEnd → HasBytes file ph ph.fileEnd) (io : u.io = [])
    (enough : 5 * ph.fileEnd ≤ u.memory.length) : ∃ la start ret t,
      fillPages (readPage file ph) ph.fileEnd u.memory.length (roundDown ph.p_va) ph.p_va (-E_NO_MEM) u =
        .ok (.ok (la, start, ret)) t ∧
      Gone u.mm (5 * ph.fileEnd) u t ∧ ((ph.p_va < ph.fileEnd ∧ start = ph.fileEnd ∧ PGSIZE ∣ la ∧ ph.fileEnd ≤ la ∧
        la < ph.fileEnd + PGSIZE) ∨ (ph.fileEnd ≤ ph.p_va ∧ la = roundDown ph.p_va ∧ start = ph.p_va)) := by
  by_cases more : ph.p_va < ph.fileEnd
  · have low := round_down_le ph.p_va
    have close : ph.p_va < roundDown ph.p_va + PGSIZE := by
      unfold roundDown PGSIZE
      omega
    have pages : ph.fileEnd ≤ roundDown ph.p_va + ph.fileEnd * PGSIZE :=
      (Nat.le_mul_of_pos_right _ (by decide)).trans (Nat.le_add_left _ _)
    have small : ph.fileEnd + PGSIZE < 2 ^ 64 := by
      have fits := readable_le file
      have read := has more
      unfold HasBytes at read
      unfold SFS_MAX_FILE_SIZE at fits
      unfold USERTOP at user
      unfold PGSIZE
      omega
    obtain ⟨fuel, fuel_is⟩ : ∃ fuel, u.memory.length = fuel + ph.fileEnd := ⟨u.memory.length - ph.fileEnd, by omega⟩
    obtain ⟨left, la, ret, t, -, filled, gone, at_end⟩ := fill_reaches (read_act_runs (has more)) le_rfl (.inr rfl) small
      fuel ph.fileEnd (roundDown ph.p_va) ph.p_va (-E_NO_MEM) u (Dvd.intro_left _ rfl) low close le_rfl more pages io enough
    rw [← fuel_is] at filled
    exact ⟨la, ph.fileEnd, ret, t, filled.trans (fill_done le_rfl), gone, .inl ⟨more, rfl, at_end⟩⟩
  · exact ⟨_, _, _, u, fill_done (by omega), gone_refl io _, .inr ⟨by omega, rfl, rfl⟩⟩

theorem fill_segment_runs (sizes : ph.p_filesz ≤ ph.p_memsz) {vmFlags : VmFlags}
    (mapped : mm.mapped ph.p_va ph.p_memsz vmFlags = some mm') (straight : ¬ Astray file mm' ph)
    (has : ph.p_va < ph.fileEnd → HasBytes file ph ph.fileEnd) :
    ∃ k, ∀ u, u.mm = mm' → u.io = [] → k ≤ u.memory.length → ∃ t, fillSegment file ph u = .ok (.ok ()) t ∧ Gone mm' k u t := by
  obtain ⟨user, -, -, -, top⟩ := mapped_begins mapped
  refine ⟨5 * ph.fileEnd + 5 * ph.memEnd, ?_⟩
  rintro u rfl io enough
  have got : (get : LoadM LoadState) u = .ok u u := rfl
  obtain ⟨la, start, ret, t, copied, gone, place⟩ := copy_runs user has io (by omega)
  have memory := gone.memory
  have finish : ∀ {w : LoadState} {start : Nat}, Gone u.mm (5 * ph.fileEnd) u w → (start < ph.memEnd → la = roundDown start) →
      ∃ t, (do
        let filled ← fillPages clearPage ph.memEnd (← get).memory.length la start ret
        return filled.map fun _ => () : LoadM (Except Int Unit)) w = .ok (.ok ()) t ∧
          Gone u.mm (5 * ph.fileEnd + 5 * ph.memEnd) u t := by
    intro w start gone after
    have memory := gone.memory
    obtain ⟨t, cleared, more⟩ := @bss_runs _ _ _ _ ret top gone.io (by omega) after
    rw [gone.mm] at more
    exact ⟨t, cleared, gone_trans gone more⟩
  unfold fillSegment
  rw [run_bind got, run_bind copied]
  dsimp only
  by_cases whole : start < la ∧ start = ph.memEnd
  · rw [if_pos whole]
    exact ⟨t, rfl, gone.mono (Nat.le_add_right _ _)⟩
  rw [if_neg whole]
  have low := round_down_le ph.p_va
  rcases place with ⟨more, rfl, aligned, above, near⟩ | ⟨none_read, rfl, rfl⟩
  · by_cases tail : ph.fileEnd < la
    · have plain : ¬ 2 ^ 64 ≤ ph.p_va + ph.p_memsz := by
        intro wraps
        refine straight ⟨wraps, _, more, has more, .inr ⟨rfl, fun ends => ?_⟩⟩
        obtain ⟨i, la_is⟩ := aligned
        obtain ⟨j, end_is⟩ := ends
        unfold PGSIZE at *
        omega
      have further := (ends_plain sizes plain).2
      have page : la ≤ USERTOP := by
        obtain ⟨i, rfl⟩ := aligned
        have end_top : ph.fileEnd ≤ USERTOP := further.trans top
        unfold PGSIZE at *
        unfold USERTOP at *
        omega
      obtain ⟨size, w, cleared, -, mm, kept, frames, touches⟩ :=
        @clear_tail_runs t la ph.fileEnd ph.memEnd (by omega) tail further page
      rw [if_pos tail, run_bind cleared]
      refine finish ⟨mm.trans gone.mm, kept.trans gone.io, by rw [frames]; exact memory, fun touch mem => ?_⟩ fun before => ?_
      · rw [touches]
        exact .tail _ (gone.touches touch mem)
      · have here : min ph.memEnd la = la := by omega
        rw [here]
        exact (round_down_aligned aligned).symm
    · have same : la = ph.fileEnd := by omega
      rw [if_neg tail]
      refine finish gone fun _ => ?_
      rw [← same]
      exact (round_down_aligned aligned).symm
  · rw [if_neg (by omega)]
    exact finish gone fun _ => rfl

/- With memory enough, a file that is not sound goes astray. -/
theorem segments_astray (n : Nat) : ∀ {pos : Nat} {mm : MmStruct}, ¬ Sound file n pos mm →
    ∃ k, ∀ s, s.mm = mm → s.io = [] → k ≤ s.memory.length → Bad (loadSegments file n pos s) := by
  induction n with
  | zero => exact fun unsound => absurd trivial unsound
  | succ n ih =>
    intro pos mm unsound
    unfold Sound at unsound
    obtain ⟨inside, unsound⟩ := Classical.not_imp.mp unsound
    have rest : ∀ pos, Grows (fun _ => True) (loadSegments file n pos) := load_segments_grows trivial trivial trivial n
    by_cases other : (progHdr file pos).p_type ≠ ELF_PT_LOAD
    · rw [if_pos other] at unsound
      obtain ⟨k, bad⟩ := ih unsound
      refine ⟨k + 2, fun s same io enough => ?_⟩
      obtain ⟨t, read, gone⟩ := read_gone io (by decide) inside (by omega)
      have memory := gone.memory
      have skipped : loadSegment file (progHdr file pos) t = .ok (.ok ()) t := by
        unfold loadSegment
        rw [if_pos other]
        rfl
      refine bad_after read ?_
      rw [if_neg (by decide)]
      refine bad_after skipped ?_
      exact bad t (gone.mm.trans same) gone.io (by omega)
    · rw [if_neg other] at unsound
      obtain ⟨sizes, unsound⟩ := Classical.not_imp.mp unsound
      obtain ⟨mm', unsound⟩ := not_forall.mp unsound
      obtain ⟨mapped, unsound⟩ := Classical.not_imp.mp unsound
      have fields := prog_hdr_fields file pos
      have user := (mapped_begins mapped).1
      by_cases astray : Astray file mm' (progHdr file pos)
      · obtain ⟨k, bad⟩ := fill_segment_astray user fields.memsz astray
        refine ⟨k + 3, fun s same io enough => ?_⟩
        subst same
        obtain ⟨u, read, gone⟩ := read_gone io (by decide) inside (by omega)
        have memory := gone.memory
        rw [← gone.mm] at mapped
        obtain ⟨t, added, more⟩ := mm_map_runs mapped gone.io (by omega)
        have left := more.memory
        refine bad_after read ?_
        rw [if_neg (by decide)]
        refine bad_bind ?_ fun r => ?_
        · rw [load_segment_fills (not_not.mp other) sizes added]
          exact bad t more.mm more.io (by omega)
        · cases r with
          | error ret => exact grows_pure
          | ok _ => exact rest _
      · obtain ⟨has, unsound⟩ := Classical.not_imp.mp fun both => unsound ⟨astray, both⟩
        obtain ⟨j, fills⟩ := fill_segment_runs sizes mapped astray has
        obtain ⟨k, bad⟩ := ih unsound
        refine ⟨k + j + 3, fun s same io enough => ?_⟩
        subst same
        obtain ⟨u, read, gone⟩ := read_gone io (by decide) inside (by omega)
        have memory := gone.memory
        rw [← gone.mm] at mapped
        obtain ⟨t, added, more⟩ := mm_map_runs mapped gone.io (by omega)
        have left := more.memory
        obtain ⟨v, filled, further⟩ := fills t more.mm more.io (by omega)
        have rest_left := further.memory
        refine bad_after read ?_
        rw [if_neg (by decide)]
        refine bad_after ((load_segment_fills (not_not.mp other) sizes added).trans filled) ?_
        exact bad v further.mm further.io (by omega)

theorem build_stack_grows : Grows (fun _ => True) buildStack := by
  have page : ∀ i, Grows (fun _ => True) (stackPage i) :=
    fun i => grows_bind pgdir_alloc_page_grows fun _ => grows_check trivial
  refine grows_bind (mm_map_grows trivial) fun ret => ?_
  split_ifs
  · exact grows_pure
  · exact grows_bind (page 1) fun _ => grows_bind (page 2) fun _ => grows_bind (page 3) fun _ =>
      grows_bind (page 4) fun _ => grows_pure

theorem setup_args_grows {epc : Nat} : Grows (fun _ => True) (setupArgs args epc) := by
  intro s
  refine holds_mono (setup_args_untouching s) ?_ ?_
  · intro _ t kept touch mem
    rwa [kept]
  · intro _ t kept
    refine ⟨trivial, fun touch mem => ?_⟩
    rwa [kept]

theorem unsound_astray (unsound : ¬ SoundFile file) (args : ArgList) :
    ∃ memory, Bad (loadIcode file args (execState memory [])) := by
  unfold SoundFile at unsound
  obtain ⟨whole, unsound⟩ := Classical.not_imp.mp unsound
  obtain ⟨magic, unsound⟩ := Classical.not_imp.mp unsound
  obtain ⟨k, bad⟩ := segments_astray _ unsound
  refine ⟨List.replicate (k + 4) fun _ => 0, ?_⟩
  have one : ∀ {frames : List Frame} {frame : Frame}, allocPage (execState (frame :: frames) []) =
      .ok true (execState frames []) := rfl
  obtain ⟨t, read, gone⟩ := @read_gone file (execState (List.replicate (k + 2) fun _ => 0) []) 0 sizeofElfhdr rfl
    (by decide) (by omega) (by rw [execState, List.length_replicate]; omega)
  have memory := gone.memory
  rw [execState, List.length_replicate] at memory
  refine bad_bind ?_ fun loaded => ?_
  · unfold loadImage
    refine bad_after one ?_
    rw [if_neg (by decide)]
    refine bad_after one ?_
    rw [if_neg (by decide)]
    refine bad_after read ?_
    rw [if_neg (by decide), if_neg (not_not.mpr magic)]
    refine bad_bind (bad t gone.mm gone.io (by omega)) fun r => ?_
    cases r with
    | error ret => exact grows_bind (grows_modify fun _ _ mem => mem) fun _ => grows_pure
    | ok _ =>
      refine grows_bind build_stack_grows fun ret => ?_
      split_ifs
      · exact grows_bind (grows_modify fun _ _ mem => mem) fun _ => grows_pure
      · exact grows_pure
  · cases loaded with
    | error ret => exact grows_pure
    | ok _ => exact grows_bind setup_args_grows fun _ => grows_pure

/-- For every file: whatever the arguments, the memory and the disk are, each page that `load_icode` maps, reads
into or clears is in the space of the user and in a VMA that `mm_map` has registered, if and only if no segment that
it comes to goes astray. -/
theorem pages_in_vmas_exactly_when (file : Binary) :
    (∀ args memory io, ∀ touch ∈ (left (loadIcode file args (execState memory io))).touches, touch.Inside) ↔
      SoundFile file := by
  constructor
  · intro inside
    by_contra unsound
    obtain ⟨memory, touch, mem, outside⟩ := unsound_astray unsound
      ⟨[[]], List.cons_ne_nil _ _, by decide, by decide⟩
    exact outside (inside _ memory [] touch mem)
  · intro sound args memory io
    exact holds_left (load_icode_inside sound memory io)

/- A segment in the last page of the user: 4096 bytes of the file from 16 bytes into the page on, and a size in
memory that wraps to an end 8 bytes into it. -/
def wrappingHeaders : List UInt8 :=
  [0x7F, 0x45, 0x4C, 0x46] ++ List.replicate 28 0 ++ [64] ++ List.replicate 23 0 ++ [1] ++ List.replicate 7 0 ++
    [1, 0, 0, 0, 6, 0, 0, 0] ++ List.replicate 8 0 ++ [0x10, 0xF0, 0xFF, 0x7F, 0, 0, 0, 0] ++ List.replicate 8 0 ++
    [0, 0x10, 0, 0, 0, 0, 0, 0] ++ [0xF8, 0xFF, 0xFF, 0xFF, 0xFF, 0xFF, 0xFF, 0xFF] ++ List.replicate 8 0

def wrappingElf : Binary where
  bytes := wrappingHeaders ++ List.replicate 3976 0
  fits := by
    rw [List.length_append, List.length_replicate]
    decide

theorem wrapping_header : progHdr wrappingElf 64 = ⟨1, 6, 0, 0x7FFFF010, 0x1000, 2 ^ 64 - 8⟩ := by
  rfl

theorem wrapping_length : wrappingElf.readable = 4096 := by
  unfold Binary.readable wrappingElf
  rw [List.length_append, List.length_replicate]
  rfl

theorem wrapping_unsound : ¬ SoundFile wrappingElf := by
  intro sound
  have headers := sound (by rw [wrapping_length]; decide) rfl
  change Sound wrappingElf 1 64 mmCreate at headers
  unfold Sound at headers
  dsimp only at headers
  rw [wrapping_header, wrapping_length, if_neg (by decide)] at headers
  have mapped : mmCreate.mapped 0x7FFFF010 (2 ^ 64 - 8) (segmentFlags ⟨1, 6, 0, 0x7FFFF010, 0x1000, 2 ^ 64 - 8⟩) =
      some (mmCreate.insert ⟨0x7FFFF000, 0x80000000, segmentFlags ⟨1, 6, 0, 0x7FFFF010, 0x1000, 2 ^ 64 - 8⟩⟩
        (by decide)) := by
    rfl
  refine (headers (by decide) (by decide) _ mapped).1 ⟨by decide, 0x80000000, by decide, ?_, .inl ⟨by decide, by decide, ?_⟩⟩
  · unfold HasBytes
    rw [wrapping_length]
    decide
  · exact fun covered => absurd covered.1.2.2 (by decide)

theorem wrapping_segment_astray : ¬ ∀ file args memory io,
    ∀ touch ∈ (left (loadIcode file args (execState memory io))).touches, touch.Inside := by
  intro inside
  obtain ⟨memory, touch, mem, outside⟩ := unsound_astray wrapping_unsound ⟨[[]], List.cons_ne_nil _ _, by decide, by decide⟩
  exact outside (inside wrappingElf _ memory [] touch mem)

end
end Ucore.Exec
