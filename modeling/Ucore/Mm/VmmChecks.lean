import Ucore.Mm.VmmRuns

/- What `user_mem_check` and `copy_string` let the kernel do with the memory of a process. -/
namespace Ucore.Vmm
open Intervals
open Exec (Vma VmFlags)
open CowFork (PGSIZE USERBASE USERTOP word roundDown roundUp UserAccess)

/-- The byte at `a` of a range that is checked from `start` on: in a stack, the first byte checked
is not in the page at its low end. -/
def Permitted (mm : MmStruct) (write : Bool) (start a : Nat) : Prop :=
  ∃ vma ∈ mm.mmapList, VmaCovers vma a ∧ vmaAllows vma write = true ∧
    (write = true → vma.vmFlags.stack = true → vma.vmStart + PGSIZE ≤ max start vma.vmStart)

/- An address space of a process. -/
structure MmStruct.User (mm : MmStruct) : Prop extends mm.Sound where
  aligned : ∀ vma ∈ mm.mmapList, PGSIZE ∣ vma.vmStart ∧ PGSIZE ∣ vma.vmEnd
  user : ∀ vma ∈ mm.mmapList, USERBASE ≤ vma.vmStart ∧ vma.vmEnd ≤ USERTOP

/- Two VMAs that touch. -/
def touching : MmStruct :=
  ⟨[⟨0x800000, 0x801000, ⟨true, false, true, false⟩⟩, ⟨0x801000, 0x802000, ⟨true, true, false, false⟩⟩], none, 2⟩

theorem touching_user : touching.User where
  order := ⟨by decide, by decide⟩
  cached := nofun
  aligned := by decide
  user := by decide

theorem touching_permits (start : Nat) {a : Nat} (above : 0x800000 ≤ a) (below : a < 0x802000) :
    Permitted touching false start a := by
  by_cases first : a < 0x801000
  · exact ⟨_, .head _, ⟨above, first⟩, rfl, nofun⟩
  · exact ⟨_, .tail _ (.head _), ⟨not_lt.mp first, below⟩, rfl, nofun⟩

section
variable {mm : MmStruct} {write : Bool} {start stop a : Nat} {vma : Vma}

/- Behind the end of a VMA it is no matter where the check of it began. -/
theorem permitted_later (sound : mm.Sound) (mem : vma ∈ mm.mmapList) (covers : VmaCovers vma start) (later : vma.vmEnd ≤ a) :
    Permitted mm write start a ↔ Permitted mm write vma.vmEnd a := by
  refine exists_congr fun other => and_congr_right fun otherMem => and_congr_right fun otherCovers => ?_
  have different : vma ≠ other := by
    rintro rfl
    exact absurd otherCovers.2 (not_lt.mpr later)
  have behind : vma.vmEnd ≤ other.vmStart := by
    refine (sound.order.apart mem otherMem different).resolve_right fun below => ?_
    have before_start := covers.1
    have inside := covers.2
    have ends := otherCovers.2
    omega
  rw [max_eq_right behind, max_eq_right (covers.2.le.trans behind)]

/- One turn of the loop of `user_mem_check`. -/
theorem permitted_turn (sound : mm.Sound) (mem : vma ∈ mm.mmapList) (covers : VmaCovers vma start) (more : start < stop) :
    (∀ a, start ≤ a → a < stop → Permitted mm write start a) ↔
      vmaAllows vma write = true ∧ ¬ (write = true ∧ vma.vmFlags.stack = true ∧ start < vma.vmStart + PGSIZE) ∧
        ∀ a, vma.vmEnd ≤ a → a < stop → Permitted mm write vma.vmEnd a := by
  constructor
  · intro all
    obtain ⟨other, otherMem, otherCovers, allows, guarded⟩ := all start le_rfl more
    obtain rfl := sound.order.unique mem otherMem covers otherCovers
    rw [max_eq_left covers.1] at guarded
    refine ⟨allows, fun low => absurd low.2.2 (not_lt.mpr (guarded low.1 low.2.1)), fun a later below => ?_⟩
    exact (permitted_later sound mem covers later).mp (all a (covers.2.le.trans later) below)
  · rintro ⟨allows, guarded, rest⟩ a above below
    by_cases later : vma.vmEnd ≤ a
    · exact (permitted_later sound mem covers later).mpr (rest a later below)
    · refine ⟨vma, mem, ⟨covers.1.trans above, not_le.mp later⟩, allows, fun writes stack => ?_⟩
      rw [max_eq_left covers.1]
      exact not_lt.mp fun low => guarded ⟨writes, stack, low⟩

theorem check_vmas_list : (checkVmas write stop mm start).2.mmapList = mm.mmapList := by
  fun_induction checkVmas write stop mm start with
  | case5 mm start more vma found above allows guarded ih => exact ih
  | _ => rfl

theorem check_vmas_sound (sound : mm.Sound) : (checkVmas write stop mm start).2.Sound := by
  fun_induction checkVmas write stop mm start with
  | case5 mm start more vma found above allows guarded ih => exact ih (find_vma_sound sound start)
  | case6 => exact sound
  | _ => exact find_vma_sound sound _

theorem check_vmas_iff (user : stop ≤ USERTOP) (sound : mm.Sound) :
    (checkVmas write stop mm start).1 = true ↔ ∀ a, start ≤ a → a < stop → Permitted mm write start a := by
  fun_induction checkVmas write stop mm start with
  | case1 mm start more missing =>
    refine iff_of_false nofun fun all => ?_
    obtain ⟨vma, mem, covers, -⟩ := all start le_rfl more
    rw [(lookup_iff sound).mpr ⟨mem, covers⟩] at missing
    cases missing
  | case2 mm start more vma found below => exact absurd below (not_lt.mpr (lookup_covers found).1)
  | case3 mm start more vma found above forbidden =>
    obtain ⟨mem, covers⟩ := (lookup_iff sound).mp found
    refine iff_of_false nofun fun all => ?_
    have allows := ((permitted_turn sound mem covers more).mp all).1
    rw [allows] at forbidden
    cases forbidden
  | case4 mm start more vma found above allows low =>
    obtain ⟨mem, covers⟩ := (lookup_iff sound).mp found
    refine iff_of_false nofun fun all => ?_
    have guarded := ((permitted_turn sound mem covers more).mp all).2.1
    refine guarded ⟨low.1, low.2.1, low.2.2.trans_le (Nat.mod_le _ _)⟩
  | case5 mm start more vma found above allows guarded ih =>
    obtain ⟨mem, covers⟩ := (lookup_iff sound).mp found
    rw [ih (find_vma_sound sound start), permitted_turn sound mem covers more]
    have no_wrap : word (vma.vmStart + PGSIZE) = vma.vmStart + PGSIZE := by
      have starts := covers.1
      unfold USERTOP at user
      unfold word PGSIZE
      exact Nat.mod_eq_of_lt (by omega)
    rw [no_wrap] at guarded
    exact ⟨fun rest => ⟨by simpa using allows, guarded, rest⟩, fun all => all.2.2⟩
  | case6 mm start done => exact iff_of_true rfl fun a above below => absurd (above.trans_lt below) done

end

/-- `user_mem_check` is exact. -/
theorem user_mem_check_iff {mm : MmStruct} (sound : mm.Sound) (addr len : Nat) (small : len < 2 ^ 64) (write : Bool) :
    (userMemCheck (some mm) addr len write).1 = true ↔
      0 < len ∧ addr + len < 2 ^ 64 ∧ USERBASE ≤ addr ∧ addr + len ≤ USERTOP ∧
        ∀ a, addr ≤ a → a < addr + len → Permitted mm write addr a := by
  have range : UserAccess addr (word (addr + len)) ↔
      0 < len ∧ addr + len < 2 ^ 64 ∧ USERBASE ≤ addr ∧ addr + len ≤ USERTOP := by
    unfold UserAccess word USERTOP
    omega
  unfold userMemCheck
  dsimp only
  by_cases user : UserAccess addr (word (addr + len))
  · obtain ⟨some_bytes, no_wrap, base, top⟩ := range.mp user
    rw [if_neg (not_not.mpr user), check_vmas_iff user.2.2 sound]
    have same : word (addr + len) = addr + len := Nat.mod_eq_of_lt no_wrap
    rw [same]
    exact ⟨fun all => ⟨some_bytes, no_wrap, base, top, all⟩, fun all => all.2.2.2.2⟩
  · rw [if_pos user]
    exact iff_of_false nofun fun all => user (range.mpr ⟨all.1, all.2.1, all.2.2.1, all.2.2.2.1⟩)

theorem user_mem_check_touching : (userMemCheck (some touching) 0x800ff8 0x10 false).1 = true :=
  (user_mem_check_iff touching_user.toSound 0x800ff8 0x10 (by decide) false).mpr
    ⟨by decide, by decide, by decide, by decide, fun _ above below => touching_permits _ (by omega) (by omega)⟩

def Readable (mm : MmStruct) (a : Nat) : Prop := ∃ vma ∈ mm.mmapList, VmaCovers vma a ∧ vma.vmFlags.read = true

/- The first NUL is at `k`. -/
def FirstNul (mem : Nat → UInt8) (src k : Nat) : Prop := mem (src + k) = 0 ∧ ∀ i < k, mem (src + i) ≠ 0

/-- Every byte of the process that is read is in a range that `user_mem_check` has allowed. -/
def Guarded : List (Nat × Nat) → List Access → Prop
  | _, [] => True
  | allowed, .check addr len ok :: rest => Guarded (if ok then (addr, len) :: allowed else allowed) rest
  | allowed, .read addr :: rest => (∃ range ∈ allowed, range.1 ≤ addr ∧ addr < range.1 + range.2) ∧ Guarded allowed rest
  | allowed, .write _ :: rest => Guarded allowed rest

section
variable {mm : MmStruct} {mem dst : Nat → UInt8} {off src part maxn n k i a : Nat} {allowed : List (Nat × Nat)}
  {rest : List Access}

theorem permitted_read {start : Nat} : Permitted mm false start a ↔ Readable mm a :=
  exists_congr fun _ => and_congr_right fun _ => and_congr_right fun _ => and_iff_left nofun

theorem user_mem_check_mm (sound : mm.Sound) (addr len : Nat) (write : Bool) :
    ∃ mm', (userMemCheck (some mm) addr len write).2 = some mm' ∧ mm'.Sound ∧ mm'.mmapList = mm.mmapList := by
  unfold userMemCheck
  dsimp only
  split_ifs
  · exact ⟨_, rfl, check_vmas_sound sound, check_vmas_list⟩
  · exact ⟨mm, rfl, sound, rfl⟩

/- A piece of a page is readable where its first byte is. -/
theorem piece_iff (user : mm.User) (some_bytes : 0 < n) (inPage : n ≤ PGSIZE - src % PGSIZE) :
    (userMemCheck (some mm) src n false).1 = true ↔ Readable mm src := by
  have small : n < 2 ^ 64 := by
    unfold PGSIZE at inPage
    omega
  rw [user_mem_check_iff user.toSound src n small]
  constructor
  · rintro ⟨-, -, -, -, all⟩
    exact permitted_read.mp (all src le_rfl (by omega))
  · rintro ⟨vma, mem, ⟨above, below⟩, readable⟩
    obtain ⟨base, top⟩ := user.user vma mem
    obtain ⟨last, ends⟩ := (user.aligned vma mem).2
    have inside : src + n ≤ vma.vmEnd := by
      rw [ends] at below ⊢
      unfold PGSIZE at below inPage ⊢
      omega
    refine ⟨some_bytes, ?_, base.trans above, inside.trans top, fun a from_src to_end => ?_⟩
    · unfold USERTOP at top
      omega
    · exact permitted_read.mpr ⟨vma, mem, ⟨above.trans from_src, to_end.trans_le inside⟩, readable⟩

theorem strnlen_nonzero : ∀ {len s i : Nat}, i < strnlen mem s len → mem (s + i) ≠ 0 := by
  intro len
  induction len with
  | zero => exact fun below => nomatch below
  | succ len ih =>
    intro s i below
    unfold strnlen at below
    split_ifs at below with nul
    · exact nomatch below
    · cases i with
      | zero => exact nul
      | succ i =>
        rw [Nat.add_comm i 1, ← Nat.add_assoc]
        exact ih (Nat.lt_of_succ_lt_succ below)

theorem strnlen_nul : ∀ {len s : Nat}, strnlen mem s len < len → mem (s + strnlen mem s len) = 0 := by
  intro len
  induction len with
  | zero => exact fun below => nomatch below
  | succ len ih =>
    intro s below
    unfold strnlen at below ⊢
    split_ifs at below ⊢ with nul
    · exact nul
    · rw [Nat.add_comm (strnlen _ _ _) 1, ← Nat.add_assoc]
      exact ih (Nat.lt_of_succ_lt_succ below)

theorem FirstNul.unique {k' : Nat} (first : FirstNul mem src k) (first' : FirstNul mem src k') : k = k' := by
  rcases lt_trichotomy k k' with before | same | behind
  · exact absurd first.1 (first'.2 k before)
  · exact same
  · exact absurd first'.1 (first.2 k' behind)

theorem memcpy_inside (inside : i < n) : memcpy mem dst off src n (off + i) = mem (src + i) := by
  unfold memcpy
  rw [if_pos ⟨by omega, by omega⟩, Nat.add_sub_cancel_left]

theorem memcpy_outside (outside : i < off ∨ off + n ≤ i) : memcpy mem dst off src n i = dst i := by
  unfold memcpy
  rw [if_neg (by omega)]

theorem guarded_weaken {allowed' : List (Nat × Nat)} (more : allowed ⊆ allowed') (guarded : Guarded allowed rest) :
    Guarded allowed' rest := by
  induction rest generalizing allowed allowed' with
  | nil => trivial
  | cons access rest ih =>
    cases access with
    | check addr len ok =>
      refine ih ?_ guarded
      split_ifs
      · exact List.cons_subset_cons _ more
      · exact more
    | read addr =>
      obtain ⟨range, mem, covers⟩ := guarded.1
      exact ⟨⟨range, more mem, covers⟩, ih more guarded.2⟩
    | write off => exact ih more guarded

/- Accesses to bytes that are checked are no matter. -/
theorem guarded_append {accesses : List Access} (harmless : ∀ access ∈ accesses, match access with
      | .check _ _ _ => False
      | .read addr => ∃ range ∈ allowed, range.1 ≤ addr ∧ addr < range.1 + range.2
      | .write _ => True) (guarded : Guarded allowed rest) : Guarded allowed (accesses ++ rest) := by
  induction accesses with
  | nil => exact guarded
  | cons access accesses ih =>
    have later := ih fun other mem => harmless other (.tail _ mem)
    have first := harmless access (.head _)
    cases access with
    | check addr len ok => exact first.elim
    | read addr => exact ⟨first, later⟩
    | write off => exact later

theorem guarded_read_all (fits : n ≤ part) (mem : (src, part) ∈ allowed) (guarded : Guarded allowed rest) :
    Guarded allowed (readAll src n ++ rest) := by
  refine guarded_append (fun access accessMem => ?_) guarded
  obtain ⟨i, below, rfl⟩ := List.mem_map.mp accessMem
  have inside := List.mem_range.mp below
  exact ⟨_, mem, Nat.le_add_right src i, by dsimp only; omega⟩

theorem guarded_copy_all (fits : n ≤ part) (mem : (src, part) ∈ allowed) (guarded : Guarded allowed rest) :
    Guarded allowed (copyAll off src n ++ rest) := by
  refine guarded_append (fun access accessMem => ?_) guarded
  obtain ⟨i, below, which⟩ := List.mem_flatMap.mp accessMem
  have inside := List.mem_range.mp below
  rcases List.mem_cons.mp which with rfl | which
  · exact ⟨_, mem, Nat.le_add_right src i, by dsimp only; omega⟩
  · rw [List.mem_singleton.mp which]
    trivial

theorem write_mem_copy_all : .write i ∈ copyAll off src n ↔ off ≤ i ∧ i < off + n := by
  unfold copyAll
  simp only [List.mem_flatMap, List.mem_range, List.mem_cons, reduceCtorEq, Access.write.injEq, List.not_mem_nil, or_false,
    false_or]
  constructor
  · rintro ⟨j, below, rfl⟩
    omega
  · intro inside
    exact ⟨i - off, by omega, by omega⟩

theorem write_not_mem_read_all : .write i ∉ readAll src n := by
  intro mem
  obtain ⟨j, -, ⟨⟩⟩ := List.mem_map.mp mem

/-- What `copy_string` has done with a string of less than `maxn` bytes and its NUL. -/
structure CopiedString (mm : MmStruct) (mem dst : Nat → UInt8) (off src maxn : Nat) (copy : Copy) : Prop where
  ret_iff : copy.ret = true ↔ ∃ k < maxn, FirstNul mem src k ∧ ∀ i ≤ k, Readable mm (src + i)
  string : copy.ret = true → ∀ k, FirstNul mem src k → ∀ i ≤ k, copy.dst (off + i) = mem (src + i)
  outside : ∀ i, i < off ∨ off + maxn ≤ i → copy.dst i = dst i
  writes : ∀ i, .write i ∈ copy.accesses → off ≤ i ∧ i < off + maxn
  guarded : Guarded [] copy.accesses

/- The first byte is not readable, or there is no room for one. -/
theorem refused_string (user : mm.User) (inPage : part ≤ PGSIZE - src % PGSIZE) (some_part : 0 < part)
    (refused : ¬ (userMemCheck (some mm) src (min part maxn) false).1 = true) :
    CopiedString mm mem dst off src maxn (copyPieces mem (some mm) dst off src part maxn) := by
  have run : copyPieces mem (some mm) dst off src part maxn =
      ⟨false, (userMemCheck (some mm) src (min part maxn) false).2, dst, [.check src (min part maxn) false]⟩ := by
    rw [copyPieces]
    exact dif_neg refused
  rw [run]
  refine ⟨iff_of_false nofun ?_, nofun, fun _ _ => rfl, fun i mem => ?_, trivial⟩
  · rintro ⟨k, below, -, readable⟩
    exact refused ((piece_iff user (by omega) (by omega)).mpr (readable 0 (Nat.zero_le k)))
  · cases List.mem_singleton.mp mem

theorem piece_readable (user : mm.User) (small : n < 2 ^ 64) (checked : (userMemCheck (some mm) src n false).1 = true)
    (inside : i < n) : Readable mm (src + i) :=
  permitted_read.mp (((user_mem_check_iff user.toSound src n small false).mp checked).2.2.2.2 (src + i) (by omega) (by omega))

/- The NUL is in the piece. -/
theorem ended_string (user : mm.User) (small : part < 2 ^ 64)
    (checked : (userMemCheck (some mm) src (min part maxn) false).1 = true)
    (ends : strnlen mem src (min part maxn) < min part maxn) :
    CopiedString mm mem dst off src maxn (copyPieces mem (some mm) dst off src part maxn) := by
  have first : FirstNul mem src (strnlen mem src (min part maxn)) := ⟨strnlen_nul ends, fun i below => strnlen_nonzero below⟩
  have run : copyPieces mem (some mm) dst off src part maxn =
      ⟨true, (userMemCheck (some mm) src (min part maxn) false).2,
        memcpy mem dst off src (strnlen mem src (min part maxn) + 1),
        .check src (min part maxn) true :: (readAll src (strnlen mem src (min part maxn) + 1) ++
          copyAll off src (strnlen mem src (min part maxn) + 1))⟩ := by
    rw [copyPieces]
    exact (dif_pos checked).trans (if_pos ends)
  rw [run]
  refine ⟨iff_of_true rfl ⟨_, by omega, first, fun i le => piece_readable user (by omega) checked (by omega)⟩,
    fun _ k nul i le => ?_, fun i beyond => memcpy_outside (by omega), fun i mem => ?_, ?_⟩
  · obtain rfl := first.unique nul
    exact memcpy_inside (Nat.lt_succ_of_le le)
  · rcases List.mem_append.mp (List.mem_of_ne_of_mem (by nofun) mem) with read | copied
    · exact absurd read write_not_mem_read_all
    · have inside := write_mem_copy_all.mp copied
      omega
  · refine guarded_read_all ends (.head _) ?_
    rw [← List.append_nil (copyAll _ _ _)]
    exact guarded_copy_all ends (.head _) trivial

/- All `maxn` bytes are read, and none is NUL. -/
theorem endless_string (checked : (userMemCheck (some mm) src (min part maxn) false).1 = true)
    (whole : ¬ strnlen mem src (min part maxn) < min part maxn) (full : min part maxn = maxn) :
    CopiedString mm mem dst off src maxn (copyPieces mem (some mm) dst off src part maxn) := by
  have run : copyPieces mem (some mm) dst off src part maxn =
      ⟨false, (userMemCheck (some mm) src (min part maxn) false).2, dst,
        .check src (min part maxn) true :: readAll src (min part maxn)⟩ := by
    rw [copyPieces]
    exact (dif_pos checked).trans ((if_neg whole).trans (if_pos full))
  rw [run]
  refine ⟨iff_of_false nofun ?_, nofun, fun _ _ => rfl, fun i mem => ?_, ?_⟩
  · rintro ⟨k, below, first, -⟩
    exact strnlen_nonzero ((below.trans_le full.ge).trans_le (not_lt.mp whole)) first.1
  · exact absurd (List.mem_of_ne_of_mem (by nofun) mem) write_not_mem_read_all
  · have guarded : Guarded [(src, min part maxn)] (readAll src (min part maxn) ++ []) :=
      guarded_read_all le_rfl (.head _) trivial
    rwa [List.append_nil] at guarded

/- The string goes on behind the piece. -/
theorem continued_string {mm' : MmStruct} (user : mm.User) (small : part < 2 ^ 64)
    (checked : (userMemCheck (some mm) src part false).1 = true) (next : (userMemCheck (some mm) src part false).2 = some mm')
    (same : mm'.mmapList = mm.mmapList) (whole : ¬ strnlen mem src part < part) (more : part < maxn)
    (rest : CopiedString mm' mem (memcpy mem dst off src part) (off + part) (src + part) (maxn - part)
      (copyPieces mem (some mm') (memcpy mem dst off src part) (off + part) (src + part) PGSIZE (maxn - part))) :
    CopiedString mm mem dst off src maxn (copyPieces mem (some mm) dst off src part maxn) := by
  have nonzero : ∀ i < part, mem (src + i) ≠ 0 := fun i below => strnlen_nonzero (below.trans_le (not_lt.mp whole))
  have no_wrap : word (src + part) = src + part :=
    Nat.mod_eq_of_lt ((user_mem_check_iff user.toSound src part small false).mp checked).2.1
  have run : copyPieces mem (some mm) dst off src part maxn =
      { copyPieces mem (some mm') (memcpy mem dst off src part) (off + part) (src + part) PGSIZE (maxn - part) with
        accesses := .check src part true :: (readAll src part ++ copyAll off src part) ++
          (copyPieces mem (some mm') (memcpy mem dst off src part) (off + part) (src + part) PGSIZE (maxn - part)).accesses } := by
    rw [copyPieces, min_eq_left more.le]
    refine (dif_pos checked).trans ((if_neg whole).trans ((if_neg more.ne).trans ?_))
    rw [next, no_wrap]
  rw [run]
  have readable {a : Nat} : Readable mm' a ↔ Readable mm a := by
    unfold Readable
    rw [same]
  have behind {k : Nat} (first : FirstNul mem src k) : part ≤ k := not_lt.mp fun below => nonzero k below first.1
  have shifted {k : Nat} : FirstNul mem src (part + k) ↔ FirstNul mem (src + part) k := by
    unfold FirstNul
    rw [← Nat.add_assoc]
    refine and_congr_right fun _ => ⟨fun all i below => ?_, fun all i below => ?_⟩
    · rw [Nat.add_assoc]
      exact all (part + i) (by omega)
    · by_cases early : i < part
      · exact nonzero i early
      · obtain ⟨j, rfl⟩ := Nat.exists_eq_add_of_le (not_lt.mp early)
        rw [← Nat.add_assoc]
        exact all j (by omega)
  constructor
  · rw [rest.ret_iff]
    constructor
    · rintro ⟨k, below, first, each⟩
      refine ⟨part + k, by omega, shifted.mpr first, fun i le => ?_⟩
      by_cases early : i < part
      · exact piece_readable user small checked early
      · obtain ⟨j, rfl⟩ := Nat.exists_eq_add_of_le (not_lt.mp early)
        rw [← Nat.add_assoc]
        exact readable.mp (each j (by omega))
    · rintro ⟨k, below, first, each⟩
      obtain ⟨j, rfl⟩ := Nat.exists_eq_add_of_le (behind first)
      refine ⟨j, by omega, shifted.mp first, fun i le => readable.mpr ?_⟩
      rw [Nat.add_assoc]
      exact each (part + i) (by omega)
  · intro ret k first i le
    obtain ⟨j, rfl⟩ := Nat.exists_eq_add_of_le (behind first)
    by_cases early : i < part
    · exact (rest.outside (off + i) (Or.inl (by omega))).trans (memcpy_inside early)
    · obtain ⟨i, rfl⟩ := Nat.exists_eq_add_of_le (not_lt.mp early)
      rw [← Nat.add_assoc, ← Nat.add_assoc]
      exact rest.string ret j (shifted.mp first) i (by omega)
  · intro i beyond
    exact (rest.outside i (by omega)).trans (memcpy_outside (by omega))
  · intro i mem
    rcases List.mem_append.mp mem with here | later
    · rcases List.mem_append.mp (List.mem_of_ne_of_mem (by nofun) here) with read | copied
      · exact absurd read write_not_mem_read_all
      · have inside := write_mem_copy_all.mp copied
        omega
    · have inside := rest.writes i later
      omega
  · rw [List.cons_append, List.append_assoc]
    refine guarded_read_all le_rfl (.head _) (guarded_copy_all le_rfl (.head _) ?_)
    exact guarded_weaken (List.nil_subset _) rest.guarded

theorem copy_pieces_spec (mem : Nat → UInt8) (maxn : Nat) : ∀ {mm : MmStruct} (dst : Nat → UInt8) (off src : Nat),
    mm.User → CopiedString mm mem dst off src maxn (copyPieces mem (some mm) dst off src (PGSIZE - src % PGSIZE) maxn) := by
  induction maxn using Nat.strong_induction_on with
  | h maxn ih =>
    intro mm dst off src user
    have some_part : 0 < PGSIZE - src % PGSIZE := Nat.sub_pos_of_lt (Nat.mod_lt src (by decide))
    have small : PGSIZE - src % PGSIZE < 2 ^ 64 := (Nat.sub_le _ _).trans_lt (by decide)
    by_cases checked : (userMemCheck (some mm) src (min (PGSIZE - src % PGSIZE) maxn) false).1 = true
    · by_cases ends : strnlen mem src (min (PGSIZE - src % PGSIZE) maxn) < min (PGSIZE - src % PGSIZE) maxn
      · exact ended_string user small checked ends
      · by_cases full : min (PGSIZE - src % PGSIZE) maxn = maxn
        · exact endless_string checked ends full
        · have more : PGSIZE - src % PGSIZE < maxn := by omega
          rw [min_eq_left more.le] at checked ends
          obtain ⟨mm', next, sound, same⟩ := user_mem_check_mm user.toSound src (PGSIZE - src % PGSIZE) false
          have user' : mm'.User := ⟨sound, same ▸ user.aligned, same ▸ user.user⟩
          have aligned : PGSIZE - (src + (PGSIZE - src % PGSIZE)) % PGSIZE = PGSIZE := by
            unfold PGSIZE
            omega
          refine continued_string user small checked next same ends more ?_
          have later := ih (maxn - (PGSIZE - src % PGSIZE)) (by omega) (memcpy mem dst off src (PGSIZE - src % PGSIZE))
            (off + (PGSIZE - src % PGSIZE)) (src + (PGSIZE - src % PGSIZE)) user'
          rwa [aligned] at later
    · exact refused_string user le_rfl some_part checked

end

theorem first_part {src : Nat} (small : src < 2 ^ 64) :
    word (roundDown (word (src + PGSIZE)) + 2 ^ 64 - src) = PGSIZE - src % PGSIZE := by
  unfold word roundDown PGSIZE
  omega

/-- `copy_string` is exact: it copies the strings that end within `maxn` bytes and are readable to their NUL,
it reads only what it has checked, and it keeps within `maxn` bytes of `dst`. -/
theorem copy_string_exact {mm : MmStruct} (user : mm.User) (mem dst : Nat → UInt8) (src : Nat)
    (small : src < 2 ^ 64) (maxn : Nat) :
    let copy := copyString (some mm) mem dst src maxn
    (copy.ret = true ↔ ∃ k < maxn, FirstNul mem src k ∧ ∀ i ≤ k, Readable mm (src + i)) ∧
      (copy.ret = true → ∀ k, FirstNul mem src k → ∀ i ≤ k, copy.dst i = mem (src + i)) ∧
      Guarded [] copy.accesses ∧ (∀ i, .write i ∈ copy.accesses → i < maxn) ∧ ∀ i, maxn ≤ i → copy.dst i = dst i := by
  intro copy
  have spec := copy_pieces_spec mem maxn dst 0 src user
  rw [← first_part small] at spec
  refine ⟨spec.ret_iff, fun ret k first i le => ?_, spec.guarded, fun i mem => ?_, fun i beyond => ?_⟩
  · have copied := spec.string ret k first i le
    rwa [Nat.zero_add] at copied
  · have inside := (spec.writes i mem).2
    rwa [Nat.zero_add] at inside
  · exact spec.outside i (Or.inr (by rwa [Nat.zero_add]))

theorem copy_string_touching : (copyString (some touching) (fun a => if a = 0x801003 then 0 else 65) (fun _ => 0) 0x800ffe 6).ret = true := by
  have exact_copy := copy_string_exact touching_user (fun a => if a = 0x801003 then 0 else 65) (fun _ => 0)
    0x800ffe (by decide) 6
  refine exact_copy.1.mpr ⟨5, by decide, ⟨rfl, by decide⟩, fun i le => ?_⟩
  exact permitted_read.mp (touching_permits 0x800ffe (by omega) (by omega))

end Ucore.Vmm
