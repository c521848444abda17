import Ucore.Mm.Vmm

/- Insertions and lookups in any order: the list and the cache of an address space; and which ranges
   `mm_map` maps. -/
namespace Ucore.Vmm
open Intervals
open Exec (Vma VmFlags checkVmaOverlap)
open CowFork (PGSIZE USERBASE USERTOP word roundDown roundUp UserAccess)

abbrev VmaCovers (vma : Vma) (addr : Nat) : Prop := Covers Vma.vmStart Vma.vmEnd vma addr

abbrev VmasApart (one other : Vma) : Prop := Apart Vma.vmStart Vma.vmEnd one other

/-- The VMAs are in order, and the cache has one of them or none. -/
structure MmStruct.Sound (mm : MmStruct) : Prop where
  order : InOrder Vma.vmStart Vma.vmEnd mm.mmapList
  cached : ∀ vma ∈ mm.mmapCache, vma ∈ mm.mmapList

section
variable {mm mm' : MmStruct} {addr : Nat} {vma : Vma}

theorem lookup_iff (sound : mm.Sound) : mm.lookup addr = some vma ↔ vma ∈ mm.mmapList ∧ VmaCovers vma addr := by
  have scan : (mm.mmapList.find? fun vma => vma.vmStart ≤ addr ∧ addr < vma.vmEnd) = some vma ↔
      vma ∈ mm.mmapList ∧ VmaCovers vma addr := sound.order.find_iff fun _ => decide_eq_true_iff
  constructor
  · intro found
    rcases Option.or_eq_some_iff.mp found with cached | ⟨-, scanned⟩
    · exact ⟨sound.cached vma (Option.filter_eq_some_iff.mp cached).1, lookup_covers found⟩
    · exact scan.mp scanned
  · rintro ⟨mem, covers⟩
    cases cached : mm.mmapCache.filter fun vma => vma.vmStart ≤ addr ∧ vma.vmEnd > addr with
    | none =>
      unfold MmStruct.lookup
      rw [cached]
      exact scan.mpr ⟨mem, covers⟩
    | some old =>
      have found : mm.lookup addr = some old := by
        unfold MmStruct.lookup
        rw [cached]
        rfl
      have oldMem := sound.cached old (Option.filter_eq_some_iff.mp cached).1
      rw [found, sound.order.unique oldMem mem (lookup_covers found) covers]

theorem find_vma_sound (sound : mm.Sound) (addr : Nat) : (findVma mm addr).2.Sound := by
  refine ⟨sound.order, fun vma mem => ?_⟩
  rcases Option.or_eq_some_iff.mp mem with found | ⟨-, cached⟩
  · exact ((lookup_iff sound).mp found).1
  · exact sound.cached vma cached

theorem inserts_iff (sound : mm.Sound) :
    mm.Inserts vma ↔ vma.vmStart < vma.vmEnd ∧ ∀ old ∈ mm.mmapList, VmasApart vma old := by
  refine and_congr_right fun proper => ?_
  rw [← sound.order.neighbours_iff proper]
  refine and_congr (forall₂_congr fun prev mem => ?_) (forall₂_congr fun next mem => ?_)
  · have prev_proper := sound.order.proper prev (List.takeWhile_subset _ (List.mem_of_getLast? mem))
    exact ⟨fun fits => fits.2.1, fun below => ⟨prev_proper, below, proper⟩⟩
  · have next_proper := sound.order.proper next (List.dropWhile_subset _ (List.mem_of_mem_head? mem))
    exact ⟨fun fits => fits.2.1, fun above => ⟨proper, above, next_proper⟩⟩

theorem insert_sound (sound : mm.Sound) (inserts : mm.Inserts vma) : (mm.insert vma).Sound where
  order := sound.order.place inserts.1 (fun prev mem => (inserts.2.1 prev mem).2.1) fun next mem => (inserts.2.2 next mem).2.1
  cached old mem := (place_perm.mem_iff).mpr (.tail _ (sound.cached old mem))

theorem insert_vma_struct_some (inserted : insertVmaStruct mm vma = some mm') : mm.Inserts vma ∧ mm' = mm.insert vma := by
  unfold insertVmaStruct at inserted
  split_ifs at inserted with inserts
  cases inserted
  exact ⟨inserts, rfl⟩

end

inductive Call where
  | insertVma (vma : Vma)
  | find (addr : Nat)

def step (mm : MmStruct) : Call → Option MmStruct
  | .insertVma vma => insertVmaStruct mm vma
  | .find addr => some (findVma mm addr).2

def run (mm : MmStruct) : List Call → Option MmStruct
  | [] => some mm
  | call :: calls => (step mm call).bind fun mm => run mm calls

def inserted : List Call → List Vma
  | [] => []
  | .insertVma vma :: calls => vma :: inserted calls
  | .find _ :: calls => inserted calls

/-- An address space with the given VMAs. -/
structure Keeps (mm : MmStruct) (vmas : List Vma) : Prop where
  sound : mm.Sound
  counted : mm.mapCount = mm.mmapList.length
  all : mm.mmapList.Perm vmas

section
variable {mm mm' : MmStruct} {vmas : List Vma}

theorem mm_create_keeps : Keeps mmCreate [] := ⟨⟨.nil, nofun⟩, rfl, .nil⟩

theorem step_keeps {call : Call} (keeps : Keeps mm vmas) (stepped : step mm call = some mm') :
    Keeps mm' (inserted [call] ++ vmas) := by
  cases call with
  | insertVma vma =>
    obtain ⟨inserts, rfl⟩ := insert_vma_struct_some stepped
    refine ⟨insert_sound keeps.sound inserts, ?_, place_perm.trans (keeps.all.cons vma)⟩
    have longer : (mm.insert vma).mmapList.length = mm.mmapList.length + 1 := place_perm.length_eq
    exact (congrArg (· + 1) keeps.counted).trans longer.symm
  | find addr =>
    cases stepped
    exact ⟨find_vma_sound keeps.sound addr, keeps.counted, keeps.all⟩

theorem inserted_cons (call : Call) (calls : List Call) : inserted (call :: calls) = inserted [call] ++ inserted calls := by
  cases call <;> rfl

theorem run_keeps {calls : List Call} (keeps : Keeps mm vmas) (ran : run mm calls = some mm') :
    Keeps mm' (inserted calls ++ vmas) := by
  induction calls generalizing mm vmas with
  | nil =>
    cases ran
    exact keeps
  | cons call calls ih =>
    obtain ⟨next, stepped, rest⟩ := Option.bind_eq_some_iff.mp ran
    have all := ih (step_keeps keeps stepped) rest
    refine ⟨all.sound, all.counted, all.all.trans ?_⟩
    rw [inserted_cons call calls, ← List.append_assoc]
    exact List.perm_append_comm.append_right vmas

/- A run goes to its end where the VMAs fit together. -/
theorem run_some_iff (keeps : Keeps mm vmas) (calls : List Call) :
    (∃ mm', run mm calls = some mm') ↔
      (∀ vma ∈ inserted calls, vma.vmStart < vma.vmEnd ∧ ∀ old ∈ vmas, VmasApart vma old) ∧
        (inserted calls).Pairwise VmasApart := by
  induction calls generalizing mm vmas with
  | nil => exact ⟨fun _ => ⟨nofun, .nil⟩, fun _ => ⟨mm, rfl⟩⟩
  | cons call calls ih =>
    cases call with
    | find addr =>
      have stepped : step mm (.find addr) = some (findVma mm addr).2 := rfl
      exact ih (step_keeps keeps stepped)
    | insertVma vma =>
      have fits : mm.Inserts vma ↔ vma.vmStart < vma.vmEnd ∧ ∀ old ∈ vmas, VmasApart vma old := by
        rw [inserts_iff keeps.sound]
        exact and_congr_right fun _ => forall_congr' fun old => by rw [keeps.all.mem_iff]
      change (∃ mm', (insertVmaStruct mm vma).bind (fun mm => run mm calls) = some mm') ↔
        (∀ new ∈ vma :: inserted calls, _) ∧ (vma :: inserted calls).Pairwise VmasApart
      by_cases inserts : mm.Inserts vma
      · have stepped : step mm (.insertVma vma) = some (mm.insert vma) := if_pos inserts
        rw [show insertVmaStruct mm vma = some (mm.insert vma) from stepped, Option.bind_some, ih (step_keeps keeps stepped),
          List.pairwise_cons, List.forall_mem_cons]
        have vma_fits := fits.mp inserts
        constructor
        · rintro ⟨later, apart⟩
          refine ⟨⟨vma_fits, fun new mem => ⟨(later new mem).1, fun old oldMem => (later new mem).2 old (.tail _ oldMem)⟩⟩,
            fun new mem => symm ((later new mem).2 vma (.head _)), apart⟩
        · rintro ⟨⟨-, later⟩, first, apart⟩
          refine ⟨fun new mem => ⟨(later new mem).1, fun old oldMem => ?_⟩, apart⟩
          rcases List.mem_cons.mp oldMem with rfl | older
          · exact symm (first new mem)
          · exact (later new mem).2 old older
      · rw [show insertVmaStruct mm vma = none from if_neg inserts]
        refine ⟨nofun, fun all => absurd (fits.mpr (all.1 vma (.head _))) inserts⟩

end

/-- After any insertions and lookups that met no assertion, and they meet none where the VMAs fit together,
the lookup of an address finds its VMA, whatever the cache has and whatever came first. -/
theorem find_vma_any_history (calls : List Call) :
    ((∃ mm, run mmCreate calls = some mm) ↔
      (∀ vma ∈ inserted calls, vma.vmStart < vma.vmEnd) ∧ (inserted calls).Pairwise VmasApart) ∧
    ∀ mm, run mmCreate calls = some mm →
      InOrder Vma.vmStart Vma.vmEnd mm.mmapList ∧ mm.mmapList.Perm (inserted calls) ∧
      mm.mapCount = mm.mmapList.length ∧ (∀ vma ∈ mm.mmapCache, vma ∈ mm.mmapList) ∧
      (∀ addr vma, (findVma mm addr).1 = some vma ↔ vma ∈ inserted calls ∧ VmaCovers vma addr) ∧
      (∀ addr, ∀ one ∈ inserted calls, ∀ other ∈ inserted calls, VmaCovers one addr → VmaCovers other addr → one = other) ∧
      (∀ cache : Option Vma, (∀ vma ∈ cache, vma ∈ mm.mmapList) →
        ∀ addr, (findVma { mm with mmapCache := cache } addr).1 = (findVma mm addr).1) ∧
      ∀ calls' mm', (inserted calls').Perm (inserted calls) → run mmCreate calls' = some mm' →
        mm'.mmapList = mm.mmapList ∧ ∀ addr, (findVma mm' addr).1 = (findVma mm addr).1 := by
  constructor
  · rw [run_some_iff mm_create_keeps]
    exact and_congr_left fun _ => forall₂_congr fun vma _ => and_iff_left (fun old none => by cases none)
  intro mm ran
  have keeps := run_keeps mm_create_keeps ran
  rw [List.append_nil] at keeps
  have order := keeps.sound.order
  have answers {other : MmStruct} (sound : other.Sound) (same : other.mmapList = mm.mmapList) (addr : Nat) :
      (findVma other addr).1 = (findVma mm addr).1 := by
    refine Option.ext fun vma => ?_
    rw [findVma, findVma, lookup_iff sound, lookup_iff keeps.sound, same]
  refine ⟨order, keeps.all, keeps.counted, keeps.sound.cached, fun addr vma => ?_, fun addr one oneMem other otherMem => ?_,
    fun cache cached => answers ⟨order, cached⟩ rfl, fun calls' mm' perm ran' => ?_⟩
  · rw [findVma, lookup_iff keeps.sound, keeps.all.mem_iff]
  · exact order.unique (keeps.all.mem_iff.mpr oneMem) (keeps.all.mem_iff.mpr otherMem)
  · have keeps' := run_keeps mm_create_keeps ran'
    rw [List.append_nil] at keeps'
    have same := keeps'.sound.order.eq_of_perm order (keeps'.all.trans (perm.trans keeps.all.symm))
    exact ⟨same, answers keeps'.sound same⟩

/- The VMAs and their number; the cache may be another. -/
def SameVmas (mm mm' : MmStruct) : Prop := mm'.mmapList = mm.mmapList ∧ mm'.mapCount = mm.mapCount

/- The end of a range in whole pages, as a number and not as a word. -/
def pagesEnd (addr len : Nat) : Nat := (addr + len + (PGSIZE - 1)) / PGSIZE * PGSIZE

/- A range that is empty, leaves user space or has an address of a VMA. -/
def Refused (mm : MmStruct) (vma : Vma) : Prop :=
  ¬ UserAccess vma.vmStart vma.vmEnd ∨ ∃ old ∈ mm.mmapList, ¬ VmasApart vma old

/-- What `mm_map` is to do with a range. -/
def MapsRange (mm : MmStruct) (addr len : Nat) (vmFlags : VmFlags) (granted : Bool) : Option (Int × MmStruct) → Prop
  | none => False
  | some (ret, mm') =>
      let vma : Vma := ⟨roundDown addr, pagesEnd addr len, vmFlags⟩
      (Refused mm vma → ret = -E_INVAL ∧ SameVmas mm mm') ∧
      (¬ Refused mm vma → granted = false → ret = -E_NO_MEM ∧ SameVmas mm mm') ∧
      (¬ Refused mm vma → granted = true → ret = 0 ∧ mm'.mmapList.Perm (vma :: mm.mmapList) ∧
        InOrder Vma.vmStart Vma.vmEnd mm'.mmapList ∧ mm'.mapCount = mm.mapCount + 1)

/-- The ranges that the lookup of their first page does not stop: one that goes around the end of the addresses,
and one with a VMA that starts behind its first page. -/
def SlipsThrough (mm : MmStruct) (addr len : Nat) : Prop :=
  let start := roundDown addr
  let stop := roundUp (word (addr + len))
  UserAccess start stop ∧ (∀ old ∈ mm.mmapList, ¬ VmaCovers old start) ∧
    (2 ^ 64 ≤ addr + len ∨ ∃ old ∈ mm.mmapList, start < old.vmStart ∧ old.vmStart < stop)

theorem round_up_pages {addr len : Nat} (fits : pagesEnd addr len ≤ USERTOP) :
    roundUp (word (addr + len)) = pagesEnd addr len := by
  unfold pagesEnd USERTOP PGSIZE at fits
  unfold roundUp roundDown word pagesEnd PGSIZE
  rw [Nat.mod_eq_of_lt (a := addr + len) (by omega), Nat.mod_eq_of_lt (by omega)]

theorem round_up_no_wrap {addr len : Nat} (fits : addr + len < 2 ^ 64)
    (user : UserAccess (roundDown addr) (roundUp (word (addr + len)))) : roundUp (word (addr + len)) = pagesEnd addr len := by
  have above := user.2.1
  unfold roundUp roundDown word PGSIZE at above
  rw [Nat.mod_eq_of_lt (a := addr + len) (by omega)] at above
  unfold roundUp roundDown word pagesEnd PGSIZE
  rw [Nat.mod_eq_of_lt (a := addr + len) (by omega), Nat.mod_eq_of_lt (by omega)]

theorem pages_end_wraps {addr len : Nat} (wraps : 2 ^ 64 ≤ addr + len) : ¬ pagesEnd addr len ≤ USERTOP := by
  unfold pagesEnd USERTOP PGSIZE
  omega

section
variable {mm : MmStruct} {addr len : Nat} {vmFlags : VmFlags} {granted : Bool}

/- An overlap of a range whose first page is in no VMA. -/
theorem overlaps_iff (vmFlags : VmFlags) (sound : mm.Sound) {start : Nat} (stop : Nat)
    (clear : ∀ old ∈ mm.mmapList, ¬ VmaCovers old start) :
    (∃ old ∈ mm.mmapList, ¬ VmasApart ⟨start, stop, vmFlags⟩ old) ↔
      ∃ old ∈ mm.mmapList, start < old.vmStart ∧ old.vmStart < stop := by
  refine exists_congr fun old => and_congr_right fun mem => ?_
  have proper := sound.order.proper old mem
  have outside := clear old mem
  simp only [Covers, Apart] at outside ⊢
  omega

theorem mm_map_outside (outside : ¬ UserAccess (roundDown addr) (roundUp (word (addr + len)))) :
    mmMap mm addr len vmFlags granted = some (-E_INVAL, mm) := if_pos outside

theorem mm_map_found {old : Vma} (user : UserAccess (roundDown addr) (roundUp (word (addr + len))))
    (found : mm.lookup (roundDown addr) = some old) :
    mmMap mm addr len vmFlags granted = some (-E_INVAL, (findVma mm (roundDown addr)).2) := by
  have starts := (lookup_covers found).1
  have stops := user.2.1
  unfold mmMap
  dsimp only
  rw [if_neg (not_not.mpr user), if_pos]
  exact ⟨old, found, by omega⟩

theorem mm_map_clear (user : UserAccess (roundDown addr) (roundUp (word (addr + len))))
    (clear : mm.lookup (roundDown addr) = none) :
    mmMap mm addr len vmFlags granted = if !granted then some (-E_NO_MEM, mm)
      else (insertVmaStruct mm ⟨roundDown addr, roundUp (word (addr + len)), vmFlags⟩).map fun mm => (0, mm) := by
  unfold mmMap findVma
  dsimp only
  rw [if_neg (not_not.mpr user), clear, Option.none_or, if_neg]
  rintro ⟨_, ⟨⟩, _⟩

theorem refuses {mm' : MmStruct} (refused : Refused mm ⟨roundDown addr, pagesEnd addr len, vmFlags⟩)
    (same : SameVmas mm mm') : MapsRange mm addr len vmFlags granted (some (-E_INVAL, mm')) :=
  ⟨fun _ => ⟨rfl, same⟩, fun not => absurd refused not, fun not => absurd refused not⟩

/- The code answers something else, or nothing, to a range that is not found at its first page. -/
theorem not_refuses (user : UserAccess (roundDown addr) (roundUp (word (addr + len))))
    (clear : mm.lookup (roundDown addr) = none) (refused : Refused mm ⟨roundDown addr, pagesEnd addr len, vmFlags⟩) :
    ¬ MapsRange mm addr len vmFlags granted (mmMap mm addr len vmFlags granted) := by
  rw [mm_map_clear user clear]
  intro maps
  cases granted with
  | false => exact absurd (maps.1 refused).1 (by decide)
  | true =>
    unfold insertVmaStruct at maps
    by_cases inserts : mm.Inserts ⟨roundDown addr, roundUp (word (addr + len)), vmFlags⟩
    · rw [if_pos inserts] at maps
      exact absurd (maps.1 refused).1 (by decide)
    · rw [if_neg inserts] at maps
      exact maps

theorem maps_new (sound : mm.Sound) (user : UserAccess (roundDown addr) (roundUp (word (addr + len))))
    (clear : mm.lookup (roundDown addr) = none) (same : roundUp (word (addr + len)) = pagesEnd addr len)
    (accepted : ¬ Refused mm ⟨roundDown addr, pagesEnd addr len, vmFlags⟩) :
    MapsRange mm addr len vmFlags granted (mmMap mm addr len vmFlags granted) := by
  rw [mm_map_clear user clear, same]
  cases granted with
  | false => exact ⟨fun refused => absurd refused accepted, fun _ _ => ⟨rfl, rfl, rfl⟩, fun _ => nofun⟩
  | true =>
    have inserts : mm.Inserts ⟨roundDown addr, pagesEnd addr len, vmFlags⟩ := by
      refine (inserts_iff sound).mpr ⟨same ▸ user.2.1, fun old mem => ?_⟩
      by_contra overlap
      exact accepted (Or.inr ⟨old, mem, overlap⟩)
    unfold insertVmaStruct
    rw [if_pos inserts]
    exact ⟨fun refused => absurd refused accepted, fun _ => nofun,
      fun _ _ => ⟨rfl, place_perm, (insert_sound sound inserts).order, rfl⟩⟩

end

/-- `mm_map` does what it is to do except with the ranges that slip through: it maps them, fails an
assertion on them, or blames the memory. -/
theorem mm_map_iff {mm : MmStruct} (sound : mm.Sound) (addr len : Nat) (vmFlags : VmFlags) (granted : Bool) :
    MapsRange mm addr len vmFlags granted (mmMap mm addr len vmFlags granted) ↔ ¬ SlipsThrough mm addr len := by
  by_cases user : UserAccess (roundDown addr) (roundUp (word (addr + len)))
  · cases found : mm.lookup (roundDown addr) with
    | some old =>
      have covers := (lookup_iff sound).mp found
      rw [mm_map_found user found]
      refine iff_of_true (refuses ?_ ⟨rfl, rfl⟩) fun slips => slips.2.1 old covers.1 covers.2
      by_contra accepted
      obtain ⟨pages, apart⟩ := not_or.mp accepted
      refine apart ⟨old, covers.1, fun beside => ?_⟩
      have some_pages := (not_not.mp pages).2.1
      exact beside.not_covers ⟨le_rfl, some_pages⟩ covers.2
    | none =>
      have clear : ∀ old ∈ mm.mmapList, ¬ VmaCovers old (roundDown addr) := by
        intro old mem covers
        rw [(lookup_iff sound).mpr ⟨mem, covers⟩] at found
        cases found
      by_cases wraps : 2 ^ 64 ≤ addr + len
      · refine iff_of_false (not_refuses user found (Or.inl ?_)) (not_not.mpr ⟨user, clear, Or.inl wraps⟩)
        exact fun pages => pages_end_wraps wraps pages.2.2
      · have same := round_up_no_wrap (not_le.mp wraps) user
        have overlaps := overlaps_iff vmFlags sound (pagesEnd addr len) clear
        by_cases later : ∃ old ∈ mm.mmapList, roundDown addr < old.vmStart ∧ old.vmStart < pagesEnd addr len
        · refine iff_of_false (not_refuses user found (Or.inr (overlaps.mpr later))) (not_not.mpr ⟨user, clear, Or.inr ?_⟩)
          rwa [same]
        · have accepted : ¬ Refused mm ⟨roundDown addr, pagesEnd addr len, vmFlags⟩ := by
            rintro (outside | overlap)
            · exact outside (same ▸ user)
            · exact later (overlaps.mp overlap)
          refine iff_of_true (maps_new sound user found same accepted) ?_
          rintro ⟨-, -, wrapped | inside⟩
          · exact wraps wrapped
          · rw [same] at inside
            exact later inside
  · rw [mm_map_outside user]
    refine iff_of_true (refuses (Or.inl fun pages => user ?_) ⟨rfl, rfl⟩) fun slips => user slips.1
    rwa [round_up_pages pages.2.2]

/- A VMA of one page. -/
def onePage : MmStruct := ⟨[⟨0x802000, 0x803000, ⟨true, false, false, false⟩⟩], none, 1⟩

theorem one_page_sound : onePage.Sound :=
  ⟨⟨List.pairwise_singleton _ _, fun vma mem => by rw [List.mem_singleton.mp mem]; decide⟩, nofun⟩

theorem mm_map_iff_one_page : MapsRange onePage 0x803000 0x1000 ⟨true, true, false, false⟩ true
    (mmMap onePage 0x803000 0x1000 ⟨true, true, false, false⟩ true) := by
  refine (mm_map_iff one_page_sound 0x803000 0x1000 ⟨true, true, false, false⟩ true).mpr ?_
  rintro ⟨-, -, wraps | ⟨old, mem, above, -⟩⟩
  · exact absurd wraps (by decide)
  · rw [List.mem_singleton.mp mem] at above
    exact absurd above (by decide)

/-- Three pages of which the last one is mapped: the assertion of `check_vma_overlap`. -/
theorem mm_map_panics : onePage.Sound ∧ mmMap onePage 0x800000 0x3000 ⟨true, true, false, false⟩ true = none ∧
    ¬ MapsRange onePage 0x800000 0x3000 ⟨true, true, false, false⟩ true
      (mmMap onePage 0x800000 0x3000 ⟨true, true, false, false⟩ true) := by
  have stops : mmMap onePage 0x800000 0x3000 ⟨true, true, false, false⟩ true = none := by decide
  refine ⟨one_page_sound, stops, ?_⟩
  rw [stops]
  exact id

end Ucore.Vmm
