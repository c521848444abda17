import Ucore.Tools.MksfsLoad

/- The names in the directories of an image, as the kernel reads them. -/
namespace Ucore.Mksfs
open Words Transitions Programs
variable {s s₀ t : SfsFs} {b f i k n slot : Nat} {ci : CacheInode} {role : Nat → Role} {fresh v u : Sfs} {name : Name}
  {es : List MkEvent} {entries : List (Nat × Name)} {kmalloc : Nat → Bool}

/- A string is read back up to its NUL. -/
theorem string_read (bytes : Nat → UInt8) (n : Nat) (same : ∀ i (inside : i < name.length), bytes i = name[i]) (clear : 0 ∉ name)
    (ends : bytes name.length = 0) (room : name.length < n) :
    ((List.range n).map bytes).takeWhile (· ≠ 0) = name := by
  induction name generalizing n bytes with
  | nil =>
    obtain ⟨m, rfl⟩ : ∃ m, n = m + 1 := ⟨n - 1, by simp at room; omega⟩
    have zero : bytes 0 = 0 := ends
    simp [List.range_succ_eq_map, zero]
  | cons c name ih =>
    obtain ⟨m, rfl⟩ : ∃ m, n = m + 1 := ⟨n - 1, by simp at room; omega⟩
    have first : bytes 0 = c := same 0 (by simp)
    have nonzero : c ≠ 0 := fun zero => clear (by simp [zero])
    have rest := ih (fun i => bytes (i + 1)) m (fun i inside => same (i + 1) (by simpa using inside))
      (fun mem => clear (List.mem_cons_of_mem _ mem)) ends (by simpa using room)
    rw [List.range_succ_eq_map, List.map_cons, List.map_map, List.takeWhile_cons, first, if_pos (by simpa using nonzero)]
    exact congrArg (c :: ·) rest

/- Of a name the first 252 bytes reach the disk. -/
theorem entry_block_read (old : DiskBlock) (fits : f < wordSize) (clear : 0 ∉ name) :
    bytesDiskEntry (entryBlock old f name) = ⟨f, name.take (sizeofName - 4)⟩ := by
  have ino : field (entryBlock old f name) 0 = f := by
    apply field_of_u32 fits
    intro j low
    unfold entryBlock entryBytes
    rw [if_pos (by unfold sizeofName; omega), if_pos (by omega), Nat.zero_add]
  unfold bytesDiskEntry
  rw [ino]
  congr 1
  have length := List.length_take_le (sizeofName - 4) name
  unfold sizeofName at length ⊢
  apply string_read
  · intro i inside
    rw [List.length_take] at inside
    unfold entryBlock entryBytes
    rw [if_pos (by unfold sizeofName; omega), if_neg (by omega), Nat.add_sub_cancel_left, if_pos (by omega),
      List.getElem_take, List.getD_eq_getElem]
  · exact fun mem => clear (List.mem_of_mem_take mem)
  · unfold entryBlock
    split_ifs with inside
    · unfold sizeofName at inside
      rw [List.length_take] at inside ⊢
      unfold entryBytes
      rw [if_neg (by omega), Nat.add_sub_cancel_left, if_neg (by omega), if_pos (by omega)]
    · rfl
  · unfold SFS_MAX_FNAME_LEN
    omega

theorem Opened.kind (opened : Opened role s t fresh v k ci) : ((loaded v k).inodes k).din.type = ci.inode.type := by
  rw [opened.din]
  rfl

/- A slot that the kernel can reach holds what `add_entry` has made of the entry. -/
theorem Opened.reads (opened : Opened role s t fresh v k ci) (is_dir : ci.inode.type = .dir)
    (lists : Lists s ci 0 entries) (clear : ∀ p ∈ entries, 0 ∉ p.2) (short : entries.length ≤ SFS_NDIRECT + SFS_BLK_NENTRY)
    (here : entries[i]? = some (f, name)) :
    sfsDirentReadNolock k i (loaded v k) = .ok (.ok ⟨f, name.take (sizeofName - 4)⟩, loaded v k) := by
  have inside : i < entries.length := (List.getElem?_eq_some_iff.mp here).1
  have mem : (f, name) ∈ entries := List.mem_of_getElem? here
  have count := lists.count
  have below : i < ((loaded v k).inodes k).din.blocks := by
    rw [opened.blocks]
    omega
  have maps := opened.maps (by omega)
  have load := load_below_run maps rfl below
  have inuse := (maps.map k rfl).below i below
  obtain ⟨c, known⟩ := Option.isSome_iff_exists.mp (lists.known f name mem).1
  have fits : f < wordSize := by
    have := known_inside opened.sound known
    have small := opened.sound.small
    unfold SFS_MAX_NBLKS at small
    unfold wordSize
    omega
  obtain ⟨old, block⟩ := lists.block i f name here
  have bytes : (loaded v k).disk (Ucore.pointer (loaded v k) k (.data i)) = entryBlock old f name := by
    change v.disk _ = _
    rw [opened.disk, opened.pointer (by omega) (by omega), closed_data opened.sound opened.closed opened.known (by omega),
      ← block, Nat.zero_add]
  have read : sfsRbuf sizeofDiskEntry (Ucore.pointer (loaded v k) k (.data i)) 0 (loaded v k) =
      .ok (.ok fun j => (loaded v k).disk (Ucore.pointer (loaded v k) k (.data i)) (0 + j), loaded v k) :=
    rbuf_run maps.volume inuse.1 inuse.2.1 (by decide) (by decide)
  rw [bytes] at read
  unfold sfsDirentReadNolock
  rw [run_bind inode_run]
  rw [run_check_bind ⟨opened.kind.trans is_dir, below⟩, run_bind load]
  dsimp only
  rw [run_bind (assert_inuse_run maps.volume inuse), run_bind read]
  dsimp only
  rw [← entry_block_read old fits (clear _ mem)]
  simp only [Nat.zero_add]
  rfl

/- The slots behind those the kernel can reach stop it. -/
theorem Opened.stops (opened : Opened role s t fresh v k ci) (is_dir : ci.inode.type = .dir) (inside : i < ci.nblks)
    (high : SFS_NDIRECT + SFS_BLK_NENTRY ≤ i) : sfsDirentReadNolock k i (loaded v k) = .error .indexOutOfRange := by
  have below : i < ((loaded v k).inodes k).din.blocks := by
    rw [opened.blocks]
    exact inside
  unfold sfsDirentReadNolock
  rw [run_bind inode_run]
  rw [run_check_bind ⟨opened.kind.trans is_dir, below⟩, run_bind_stop (load_high_stops below.le high)]

/- The loop of the search stops at the first slot with the name. -/
theorem scan_run (name : Name) (slot : Nat) (reads : ∀ j p, entries[j]? = some p → sfsDirentReadNolock k (slot + j) u = .ok (.ok ⟨p.1, p.2⟩, u))
    (numbers : ∀ p ∈ entries, p.1 ≠ 0) :
    (name ∉ entries.map Prod.snd → sfsDirentScan k name entries.length slot u = .ok (.error (-E_NOENT), u)) ∧
    ∀ i f, entries[i]? = some (f, name) → (entries.map Prod.snd).Nodup →
      sfsDirentScan k name entries.length slot u = .ok (.ok (f, slot + i), u) := by
  induction entries generalizing slot with
  | nil => exact ⟨fun _ => rfl, fun i f here => (nomatch here)⟩
  | cons p entries ih =>
    have first := reads 0 p rfl
    rw [Nat.add_zero] at first
    obtain ⟨absent, found⟩ := ih (slot + 1) (fun j q here => by
        rw [show slot + 1 + j = slot + (j + 1) by omega]
        exact reads (j + 1) q here) fun q mem => numbers q (List.mem_cons_of_mem _ mem)
    have passes : name ≠ p.2 → sfsDirentScan k name (p :: entries).length slot u =
        sfsDirentScan k name entries.length (slot + 1) u := by
      intro other
      rw [List.length_cons, sfsDirentScan, run_bind first]
      dsimp only
      rw [if_neg fun both => other both.2]
    constructor
    · intro missing
      rw [List.map_cons, List.mem_cons, not_or] at missing
      rw [passes missing.1]
      exact absent missing.2
    · intro i f here distinct
      rw [List.map_cons, List.nodup_cons] at distinct
      cases i with
      | zero =>
        cases here
        rw [List.length_cons, sfsDirentScan, run_bind first]
        dsimp only
        rw [if_pos ⟨numbers _ List.mem_cons_self, rfl⟩]
        rfl
      | succ i =>
        have there : entries[i]? = some (f, name) := here
        have other : name ≠ p.2 := by
          intro same
          exact distinct.1 (same ▸ List.mem_map_of_mem (List.mem_of_getElem? there))
        rw [passes other, found i f there distinct.2, show slot + 1 + i = slot + (i + 1) by omega]

theorem search_run {w : Vfs} {r : Except Int (Nat × Nat)} (at_work : w.sfs = u) (memory : w.memory 0 = true)
    (short : name.length ≤ SFS_MAX_FNAME_LEN) (scan : sfsDirentScan k name (u.inodes k).din.blocks 0 u = .ok (r, u)) :
    sfsDirentSearchNolock k name w = .ok (r, { w with memory := fun i => w.memory (i + 1) }) := by
  subst at_work
  have allocated : Ucore.kmalloc w = .ok (true, { w with memory := fun i => w.memory (i + 1) }) := by
    rw [← memory]
    rfl
  unfold sfsDirentSearchNolock
  rw [run_check_bind short, run_bind allocated]
  dsimp only
  rw [if_neg (by decide)]
  have inode : onSfs (sfsInode k) { w with memory := fun i => w.memory (i + 1) } =
      .ok (w.sfs.inodes k, { w with memory := fun i => w.memory (i + 1) }) := rfl
  rw [run_bind inode]
  unfold onSfs
  dsimp only
  rw [scan]

/-- The kernel reads each entry as it was made, and finds each name in its slot and no other name. -/
structure NamesAgree (u : Sfs) (k : Nat) (entries : List (Nat × Name)) : Prop where
  reads : ∀ i f name, entries[i]? = some (f, name) → sfsDirentReadNolock k i u = .ok (.ok ⟨f, name⟩, u)
  finds : ∀ i f name, entries[i]? = some (f, name) → ∀ w : Vfs, w.sfs = u → w.memory 0 = true →
    sfsDirentSearchNolock k name w = .ok (.ok (f, i), { w with memory := fun i => w.memory (i + 1) })
  misses : ∀ name : Name, name.length ≤ SFS_MAX_FNAME_LEN → name ∉ entries.map Prod.snd →
    ∀ w : Vfs, w.sfs = u → w.memory 0 = true →
    sfsDirentSearchNolock k name w = .ok (.error (-E_NOENT), { w with memory := fun i => w.memory (i + 1) })

theorem Opened.names_agree_iff (opened : Opened role s t fresh v k ci) (is_dir : ci.inode.type = .dir)
    (lists : Lists s ci 0 entries) (clear : ∀ p ∈ entries, 0 ∉ p.2) (distinct : (entries.map Prod.snd).Nodup) :
    NamesAgree (loaded v k) k entries ↔
      (∀ p ∈ entries, p.2.length ≤ sizeofName - 4) ∧ entries.length ≤ SFS_NDIRECT + SFS_BLK_NENTRY := by
  have count := lists.count
  rw [Nat.zero_add] at count
  constructor
  · intro agree
    have short : entries.length ≤ SFS_NDIRECT + SFS_BLK_NENTRY := by
      by_contra long
      have inside : SFS_NDIRECT + SFS_BLK_NENTRY < entries.length := by omega
      have here := List.getElem?_eq_getElem inside
      have read := agree.reads _ _ _ here
      rw [opened.stops is_dir (by omega) (Nat.le_refl _)] at read
      cases read
    refine ⟨fun p mem => ?_, short⟩
    obtain ⟨i, here⟩ := List.getElem?_of_mem mem
    have one := opened.reads is_dir lists clear short here
    rw [agree.reads i p.1 p.2 here] at one
    have same : p.2 = p.2.take (sizeofName - 4) := by
      injection one with pair
      injection pair with result
      injection result with entry
      injection entry
    rw [same]
    exact List.length_take_le _ _
  · rintro ⟨fitting, short⟩
    have reads : ∀ i f name, entries[i]? = some (f, name) →
        sfsDirentReadNolock k i (loaded v k) = .ok (.ok ⟨f, name⟩, loaded v k) := by
      intro i f name here
      rw [opened.reads is_dir lists clear short here, List.take_of_length_le (fitting _ (List.mem_of_getElem? here))]
    have numbers : ∀ p ∈ entries, p.1 ≠ 0 := by
      intro p mem zero
      obtain ⟨c, known⟩ := Option.isSome_iff_exists.mp (lists.known p.1 p.2 mem).1
      rcases (opened.sound.known p.1 c known).1 with root | allocated
      · rw [zero] at root
        cases root
      · exact allocated.nonzero zero
    have scan := fun name => scan_run (u := loaded v k) (k := k) name 0
      (fun j p here => by
        rw [Nat.zero_add]
        exact reads j p.1 p.2 here) numbers
    have blocks : ((loaded v k).inodes k).din.blocks = entries.length := by
      rw [opened.blocks, count]
    refine ⟨reads, fun i f name here w at_work memory => ?_, fun name fits missing w at_work memory => ?_⟩
    · refine search_run at_work memory (lists.known f name (List.mem_of_getElem? here)).2 ?_
      rw [blocks, (scan name).2 i f here distinct, Nat.zero_add]
    · refine search_run at_work memory fits ?_
      rw [blocks, (scan name).1 missing]

/- A run to the end, a mounted image, and an inode of it. -/
theorem opened_after {stSize : Nat} {image : Nat → DiskBlock} (start : createSfs stSize image = some s₀)
    (run : Run MkStep s₀ es s) (close : closeSfs s = some t) (memory : ∀ n < 5, kmalloc n = true)
    (disk : fresh.disk = t.image) (device : s.superBlocks ≤ fresh.dBlocks) (addressable : fresh.dBlocks < 1048576)
    (mount : sfsDoMount kmalloc SFS_BLKSIZE fresh = some (.ok v)) (known : s.inode k = some ci) :
    ∃ role, Opened role s t fresh v k ci := by
  obtain ⟨_, sound₀, _⟩ := create_ok start
  obtain ⟨role, sound, _⟩ := run_grows run sound₀
  obtain ⟨t', close', closed⟩ := close_run sound
  obtain rfl : t = t' := Option.some.inj (close.symm.trans close')
  have able := closed_mountable sound closed disk device
  obtain ⟨v', mount', mounted⟩ := mount_run kmalloc memory able
  have same := mount.symm.trans mount'
  injection same with same
  injection same with same
  subst same
  exact ⟨role, sound, closed, mounted, mounted_volume mounted able addressable, mounted.disk.trans disk, known⟩

/-- The directories of an image are read as they were made exactly when the names leave room for their NUL in what
`add_entry` writes and the kernel's inodes reach all entries. -/
theorem names_agree_exactly_when {stSize : Nat} {image : Nat → DiskBlock} (start : createSfs stSize image = some s₀)
    (run : Run MkStep s₀ es s) (close : closeSfs s = some t) (memory : ∀ n < 5, kmalloc n = true)
    (disk : fresh.disk = t.image) (device : s.superBlocks ≤ fresh.dBlocks) (addressable : fresh.dBlocks < 1048576)
    (mount : sfsDoMount kmalloc SFS_BLKSIZE fresh = some (.ok v)) (known : s.inode k = some ci)
    (is_dir : ci.inode.type = .dir) (strings : ∀ p ∈ listing k s₀ es, 0 ∉ p.2)
    (distinct : ((listing k s₀ es).map Prod.snd).Nodup) :
    NamesAgree (loaded v k) k (listing k s₀ es) ↔
      (∀ p ∈ listing k s₀ es, p.2.length ≤ 252) ∧ (listing k s₀ es).length ≤ 1036 := by
  obtain ⟨role, opened⟩ := opened_after start run close memory disk device addressable mount known
  obtain ⟨_, sound₀, root⟩ := create_ok start
  have lists := listing_holds run sound₀ known is_dir
  have empty : blocksAt s₀ k = 0 := by
    unfold blocksAt
    rw [root]
    by_cases here : k = SFS_BLKN_ROOT
    · rw [here, Function.update_self]
      rfl
    · rw [Function.update_of_ne here]
      rfl
  rw [empty] at lists
  exact opened.names_agree_iff is_dir lists strings distinct

/- An image of eight blocks, whose root directory has one entry: itself. -/
theorem one_entry_image (name : Name) (made : ((createSfs 32768 fun _ _ => 0).bind fun s => s.call (.entry 1 1 name)).isSome = true) :
    ∃ s₀ s t v ci, createSfs 32768 (fun _ _ => 0) = some s₀ ∧ Run MkStep s₀ [.entry 1 1 name] s ∧ closeSfs s = some t ∧
      sfsDoMount (fun _ => true) SFS_BLKSIZE (unmounted 8 t.image) = some (.ok v) ∧ s.superBlocks ≤ 8 ∧
      s.inode 1 = some ci ∧ ci.inode.type = .dir ∧ listing 1 s₀ [.entry 1 1 name] = [(1, name)] := by
  obtain ⟨s, done⟩ := Option.isSome_iff_exists.mp made
  obtain ⟨s₀, start, step⟩ := Option.bind_eq_some_iff.mp done
  have run : Run MkStep s₀ [.entry 1 1 name] s := .call step (.stop s)
  obtain ⟨_, sound₀, root⟩ := create_ok start
  obtain ⟨role, sound, grows⟩ := run_grows run sound₀
  obtain ⟨t, close, closed⟩ := close_run sound
  obtain ⟨ci, known, continues, _⟩ := grows.files 1 (newInode 0 .dir) (by rw [root]; rfl)
  have size : s.superBlocks = 8 := by
    have ninos : (createSfs 32768 fun _ _ => 0).map SfsFs.ninos = some 8 := rfl
    rw [start] at ninos
    rw [sound.super, grows.ninos]
    exact Option.some.inj ninos
  obtain ⟨v, mount, _⟩ := mount_run (fun _ => true) (fun _ _ => rfl)
    (closed_mountable sound closed (show (unmounted 8 t.image).disk = t.image from rfl) (Nat.le_of_eq size))
  refine ⟨s₀, s, t, v, ci, start, run, close, mount, Nat.le_of_eq size, known, continues.type, ?_⟩
  rw [listing, step]
  rfl

theorem letters_clear (n : Nat) : ∀ p ∈ [((1 : Nat), (List.replicate n 65 : Name))], (0 : UInt8) ∉ p.2 := by
  intro p mem zero
  rw [List.mem_singleton.mp mem] at zero
  exact absurd (List.eq_of_mem_replicate zero) (by decide)

/- A name of 252 bytes. -/
theorem long_name_agrees : ∃ v, NamesAgree (loaded v 1) 1 [(1, List.replicate 252 65)] := by
  obtain ⟨s₀, s, t, v, ci, start, run, close, mount, device, known, is_dir, list⟩ :=
    one_entry_image (List.replicate 252 65) (by decide +kernel)
  have agree := names_agree_exactly_when start run close (fun _ _ => rfl) rfl device (show 8 < 1048576 by decide) mount known
    is_dir (by rw [list]; exact letters_clear 252) (by rw [list]; exact List.nodup_singleton _)
  rw [list] at agree
  refine ⟨v, agree.mpr ⟨fun p mem => ?_, by decide⟩⟩
  rw [List.mem_singleton.mp mem]
  exact Nat.le_of_eq List.length_replicate

/- Of a name of 253 bytes the kernel reads 252. -/
theorem longer_name_is_cut :
    ∃ s₀ s t v ci, createSfs 32768 (fun _ _ => 0) = some s₀ ∧ Run MkStep s₀ [.entry 1 1 (List.replicate 253 65)] s ∧
      closeSfs s = some t ∧ sfsDoMount (fun _ => true) SFS_BLKSIZE (unmounted 8 t.image) = some (.ok v) ∧
      s.inode 1 = some ci ∧ ci.inode.type = .dir ∧
      listing 1 s₀ [.entry 1 1 (List.replicate 253 65)] = [(1, List.replicate 253 65)] ∧
      sfsDirentReadNolock 1 0 (loaded v 1) = .ok (.ok ⟨1, List.replicate 252 65⟩, loaded v 1) ∧
      ¬ NamesAgree (loaded v 1) 1 [(1, List.replicate 253 65)] := by
  obtain ⟨s₀, s, t, v, ci, start, run, close, mount, device, known, is_dir, list⟩ :=
    one_entry_image (List.replicate 253 65) (by decide +kernel)
  obtain ⟨role, opened⟩ := opened_after start run close (fun _ _ => rfl) rfl device (show 8 < 1048576 by decide) mount known
  obtain ⟨_, sound₀, root⟩ := create_ok start
  have lists := listing_holds run sound₀ known is_dir
  have empty : blocksAt s₀ 1 = 0 := by
    unfold blocksAt
    rw [root]
    rfl
  rw [list, empty] at lists
  have clear := letters_clear 253
  have read := opened.reads is_dir lists clear (by decide) (i := 0) rfl
  rw [List.take_replicate] at read
  refine ⟨s₀, s, t, v, ci, start, run, close, mount, known, is_dir, list, read, fun agree => ?_⟩
  have fits := ((opened.names_agree_iff is_dir lists clear (List.nodup_singleton _)).mp agree).1 _ (List.mem_singleton.mpr rfl)
  rw [List.length_replicate] at fits
  exact absurd fits (by decide)

end Ucore.Mksfs
