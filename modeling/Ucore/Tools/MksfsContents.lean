import Ucore.Tools.MksfsNames

/- The bytes of the regular files of an image, as the kernel reads them. -/
namespace Ucore.Mksfs
open Words Transitions Programs ByteFile
variable {s s₀ s₁ s₂ t u : SfsFs} {f i j k n real : Nat} {ci : CacheInode} {role : Nat → Role} {fresh v : Sfs}
  {name : Name} {es es' : List MkEvent} {content : List UInt8} {kmalloc : Nat → Bool}

theorem pieces_join (l : List UInt8) (c n : Nat) :
    ((List.range n).map fun i => (l.drop (c * i)).take c).flatten = l.take (c * n) := by
  induction n with
  | zero => simp
  | succ n ih =>
    rw [List.range_succ, List.map_append, List.flatten_append, ih, Nat.mul_succ, List.take_add]
    simp

theorem chunks_length (content : List UInt8) : (chunks content).length = blocksFor content.length := by
  unfold chunks
  rw [List.length_map, List.length_range]
  rfl

theorem chunks_join (content : List UInt8) : (chunks content).flatten = content := by
  unfold chunks
  rw [pieces_join]
  apply List.take_of_length_le
  unfold SFS_BLKSIZE
  omega

/- Byte `p` of the file is in the block `p / SFS_BLKSIZE`. -/
theorem chunk_byte {p : Nat} (inside : p < content.length) :
    ∃ chunk, (chunks content)[p / SFS_BLKSIZE]? = some chunk ∧ chunkBytes chunk (p % SFS_BLKSIZE) = content.getD p 0 := by
  have split := Nat.div_add_mod p SFS_BLKSIZE
  have low : p % SFS_BLKSIZE < SFS_BLKSIZE := Nat.mod_lt p (by decide)
  have block : p / SFS_BLKSIZE < (content.length + SFS_BLKSIZE - 1) / SFS_BLKSIZE := by
    unfold SFS_BLKSIZE
    omega
  refine ⟨(content.drop (SFS_BLKSIZE * (p / SFS_BLKSIZE))).take SFS_BLKSIZE, ?_, ?_⟩
  · unfold chunks
    rw [List.getElem?_map, List.getElem?_range block]
    rfl
  · unfold chunkBytes
    rw [List.getD_eq_getElem?_getD, List.getD_eq_getElem?_getD, List.getElem?_take_of_lt low, List.getElem?_drop, split]

/- Every block but the last is whole. -/
theorem chunks_whole (content : List UInt8) (j : Nat) (chunk : List UInt8) (here : (chunks content)[j]? = some chunk) :
    chunk.length ≤ SFS_BLKSIZE ∧ (j + 1 < (chunks content).length → chunk.length = SFS_BLKSIZE) := by
  rw [chunks_length]
  unfold chunks at here
  rw [List.getElem?_map] at here
  obtain ⟨i, there, rfl⟩ := Option.map_eq_some_iff.mp here
  obtain ⟨inside, rfl⟩ := List.getElem?_eq_some_iff.mp there
  rw [List.getElem_range, List.length_take, List.length_drop]
  unfold blocksFor SFS_BLKSIZE
  omega

/- A file that nobody extends keeps its blocks. -/
theorem Filled.later {touched : Nat → Prop} {role' : Nat → Role} {rest : List (List UInt8)} {file : CacheInode}
    (filled : Filled t rest file ci) (start : file.nblks = 0) (sound : MkSound role t) (known : t.inode f = some ci)
    (grows : Grows touched role role' t s) (clear : ¬ touched f) :
    ∃ ci', s.inode f = some ci' ∧ Filled s rest file ci' := by
  obtain ⟨ci', known', continues, same⟩ := grows.files f ci known
  obtain ⟨nblks, size⟩ := same clear
  refine ⟨ci', known', nblks.trans filled.nblks, fun small => size.trans (filled.size small),
    continues.type.trans filled.type, fun j chunk here => ?_⟩
  have inside : j < rest.length := (List.getElem?_eq_some_iff.mp here).1
  have count := filled.nblks
  rw [grows.content sound known known' (by omega)]
  exact filled.data j chunk here

/- The file of a source file that is met for the first time, at the end of the run. -/
theorem new_file_run {current : Nat} (sound : MkSound role s₁) (absent : searchCacheInode real s₁ = none)
    (step : MkStep s₁ (.file current name real content) s₂) (run : Run MkStep s₂ es s) :
    ∃ ci, s.inode s₁.nextIno = some ci ∧ Filled s (chunks content) (newInode real .file) ci := by
  obtain ⟨⟨f, u⟩, made, enter⟩ := Option.bind_eq_some_iff.mp step
  obtain ⟨role₁, sound', _, number, kinds⟩ := file_inode_ok (fun _ => False) sound made
  rw [absent] at number
  obtain rfl : f = s₁.nextIno := number
  obtain ⟨ci, known, filled⟩ : ∃ ci, u.inode s₁.nextIno = some ci ∧ Filled u (chunks content) (newInode real .file) ci := by
    rcases kinds with ⟨there, _⟩ | ⟨_, _, found, _⟩
    · rw [absent] at there
      cases there
    · exact found
  obtain ⟨dir, there, is_dir, _, role₂, _, sound₂, grows, _⟩ := add_entry_ok sound' enter
  obtain ⟨role₃, _, later⟩ := run_grows run sound₂
  have file_type : ci.inode.type = .file := filled.type
  have other : ¬ s₁.nextIno = current := by
    rintro rfl
    obtain rfl := Option.some.inj (there.symm.trans known)
    rw [is_dir] at file_type
    cases file_type
  obtain ⟨ci₂, known₂, filled₂⟩ := filled.later rfl sound' known grows other
  refine filled₂.later rfl sound₂ known₂ later ?_
  rintro ⟨c, here, is_dir'⟩
  obtain rfl := Option.some.inj (here.symm.trans known₂)
  rw [filled₂.type] at is_dir'
  cases is_dir'

/-- Every read that starts below the largest offset delivers the bytes of the file from there on. -/
def ReadsBack (w : Sfs) (k : Nat) (content : List UInt8) : Prop :=
  ∀ (offset len : Nat) (buf : DiskBlock), offset < SFS_MAX_FILE_SIZE → offset + len < 9223372036854775808 →
    sfsIoNolock k buf offset len false w = .ok ((0, min len (content.length - offset),
      fun j => if j < min len (content.length - offset) then content.getD (offset + j) 0 else buf j), w)

theorem filled_blocks (filled : Filled s (chunks content) (newInode real .file) ci) : ci.nblks = blocksFor content.length := by
  rw [filled.nblks, chunks_length]
  exact Nat.zero_add _

section
variable (opened : Opened role s t fresh v k ci) (filled : Filled s (chunks content) (newInode real .file) ci)
  (length : content.length ≤ SFS_MAX_FILE_SIZE)
include opened filled length

theorem filled_size : ((loaded v k).inodes k).din.size = content.length := by
  have size := filled.size (show 0 < wordSize by decide)
  rw [chunks_join] at size
  rw [opened.din]
  change ci.inode.size % wordSize = _
  rw [size, Nat.mod_mod]
  change (0 + content.length) % wordSize = _
  rw [Nat.zero_add]
  apply Nat.mod_eq_of_lt
  unfold SFS_MAX_FILE_SIZE at length
  unfold wordSize
  omega

theorem filled_represents (short : content.length ≤ maxMapped) : Represents (loaded v k) {k} := by
  have count := filled_blocks filled
  have few : ci.nblks ≤ SFS_NDIRECT + SFS_BLK_NENTRY := by
    rw [count]
    exact blocks_for_le.mpr short
  refine ⟨opened.maps few, ?_, ?_⟩
  · rintro _ rfl
    rw [opened.kind]
    exact filled.type
  · rintro _ rfl
    rw [opened.blocks, filled_size opened filled length, count]

omit length in
theorem filled_data (short : content.length ≤ maxMapped) {p : Nat} (inside : p < content.length) :
    fileData (loaded v k) k p = content.getD p 0 := by
  have count := filled_blocks filled
  have few : ci.nblks ≤ SFS_NDIRECT + SFS_BLK_NENTRY := by
    rw [count]
    exact blocks_for_le.mpr short
  have below : p / SFS_BLKSIZE < ci.nblks := by
    rw [count]
    unfold blocksFor SFS_BLKSIZE
    omega
  obtain ⟨chunk, here, byte⟩ := chunk_byte inside
  have block := filled.data _ chunk here
  rw [show (newInode real SfsType.file).nblks + p / SFS_BLKSIZE = p / SFS_BLKSIZE from Nat.zero_add _] at block
  rw [file_data_inside (mapped_block.mpr (by rw [opened.blocks]; exact below))]
  unfold fileByte
  rw [opened.pointer below (by omega)]
  change v.disk _ _ = _
  rw [opened.disk, closed_data opened.sound opened.closed opened.known below, block, byte]

/- The first byte that the kernel cannot map. -/
theorem filled_stops (long : maxMapped < content.length) (buf : DiskBlock) :
    sfsIoNolock k buf maxMapped 1 false (loaded v k) = .error .indexOutOfRange := by
  have count := filled_blocks filled
  have size := filled_size opened filled length
  have past := max_mapped_lt
  have no_dir : ((loaded v k).inodes k).din.type ≠ .dir := by
    rw [opened.kind, filled.type]
    change SfsType.file ≠ .dir
    decide
  have below : SFS_NDIRECT + SFS_BLK_NENTRY ≤ ((loaded v k).inodes k).din.blocks := by
    rw [opened.blocks, count]
    by_contra few
    have := blocks_for_le.mp (show blocksFor content.length ≤ SFS_NDIRECT + SFS_BLK_NENTRY by omega)
    unfold maxMapped at long
    omega
  have stops := load_high_stops below (Nat.le_refl _)
  have ends : i64 (((maxMapped : Nat) : Int) + ((1 : Nat) : Int)) = ((maxMapped + 1 : Nat) : Int) := by decide
  unfold sfsIoNolock
  rw [run_bind inode_run]
  dsimp only
  rw [run_check_bind no_dir, ends, size, if_neg (by omega), if_neg (by omega), if_neg (by omega), if_neg (by omega),
    if_neg (by omega)]
  have transfer : ∀ op, sfsTransfer k (SFS_NDIRECT + SFS_BLK_NENTRY) buf op (loaded v k) = .error .indexOutOfRange := by
    intro op
    unfold sfsTransfer
    exact run_bind_stop stops
  have range : sfsIoRange k buf maxMapped (maxMapped + 1) false (loaded v k) = .error .indexOutOfRange := by
    unfold sfsIoRange
    dsimp only
    rw [if_neg (by decide), show (maxMapped + 1) / SFS_BLKSIZE - maxMapped / SFS_BLKSIZE = 0 by decide,
      show maxMapped / SFS_BLKSIZE = SFS_NDIRECT + SFS_BLK_NENTRY by decide]
    unfold sfsIoBlocks
    rw [if_pos (by decide)]
    exact run_bind_stop (transfer _)
  rw [Int.toNat_natCast, Int.toNat_natCast]
  exact run_bind_stop range

theorem filled_reads_back_iff : ReadsBack (loaded v k) k content ↔ content.length ≤ maxMapped := by
  constructor
  · intro reads
    by_contra long
    have read := reads maxMapped 1 (fun _ => 0) max_mapped_lt (by decide)
    rw [filled_stops opened filled length (by omega)] at read
    cases read
  · intro short offset len buf start fits
    have size := filled_size opened filled length
    rw [io_read_run buf (filled_represents opened filled length short) rfl start fits]
    have count : (sfsFile (loaded v k) k).readable offset len = min len (content.length - offset) := by
      unfold ByteFile.File.readable sfsFile
      dsimp only
      rw [size]
      omega
    have bytes : (sfsFile (loaded v k) k).read buf offset len =
        fun j => if j < min len (content.length - offset) then content.getD (offset + j) 0 else buf j := by
      funext j
      unfold ByteFile.File.read
      rw [count]
      split_ifs with inside
      · exact filled_data opened filled short (by omega)
      · rfl
    rw [count, bytes]

end

/- With enough free blocks the tool takes every file that its inodes can hold. -/
theorem file_accepted {dir : CacheInode} (name : Name) (content : List UInt8) (sound : MkSound role s) (known : s.inode k = some dir)
    (is_dir : dir.inode.type = .dir) (entries : dir.nblks < SFS_LN_NBLKS) (short : name.length ≤ SFS_MAX_FNAME_LEN)
    (absent : searchCacheInode real s = none) (few : blocksFor content.length ≤ SFS_LN_NBLKS)
    (blocks : s.nextIno + 3 * blocksFor content.length + 4 ≤ s.ninos) :
    ∃ t, MkStep s (.file k name real content) t := by
  have room : s.nextIno < s.ninos := by omega
  have start := grew_inode_sound sound room real .file
  have first := grew_inode_grows (· = s.nextIno) sound real .file
  have there : (s.grewInode real .file).inode s.nextIno = some (newInode real .file) := Function.update_self ..
  have next : (s.grewInode real .file).nextIno = s.nextIno + 1 := rfl
  have ninos : (s.grewInode real .file).ninos = s.ninos := rfl
  have none_there : (newInode real .file).nblks = 0 := rfl
  have count := chunks_length content
  obtain ⟨u, loop, reached⟩ := open_file_total SFS_BLKSIZE start there (by omega) (by omega) (fun _ => rfl)
    (chunks_whole content)
  obtain ⟨role', ci, sound', grows, known', _, _⟩ := open_file_loop start there loop
  have more := first.trans grows
  obtain ⟨dir', here, continues, same⟩ := more.files k dir known
  have nblks := (same (known_not_new sound known)).1
  have after := grows.ninos
  obtain ⟨t, enter⟩ := add_entry_total (f := s.nextIno) sound' here (continues.type.trans is_dir) (by omega) short
    (by rw [known']; rfl) (by omega)
  refine ⟨t, Option.bind_eq_some_iff.mpr ⟨(s.nextIno, u), ?_, enter⟩⟩
  unfold fileInode
  rw [absent]
  refine Option.bind_eq_some_iff.mpr ⟨(s.nextIno, s.grewInode real .file), ?_,
    Option.bind_eq_some_iff.mpr ⟨u, loop, rfl⟩⟩
  unfold allocCacheInode sfsAllocIno
  rw [if_neg (not_not.mpr rfl), if_pos room]
  rfl

/- An image of 4096 blocks with one file. -/
theorem one_file_image (content : List UInt8) (few : blocksFor content.length ≤ 1037) :
    ∃ s₀ s t v, createSfs 16777216 (fun _ _ => 0) = some s₀ ∧ s₀.nextIno = 3 ∧ searchCacheInode 5 s₀ = none ∧
      MkStep s₀ (.file 1 [97] 5 content) s ∧ closeSfs s = some t ∧ s.superBlocks ≤ 4096 ∧
      sfsDoMount (fun _ => true) SFS_BLKSIZE (unmounted 4096 t.image) = some (.ok v) := by
  have made : (createSfs 16777216 fun _ _ => 0).map (fun s => (s.ninos, s.nextIno, searchCacheInode 5 s)) =
      some (4096, 3, none) := rfl
  obtain ⟨s₀, start, facts⟩ := Option.map_eq_some_iff.mp made
  obtain ⟨ninos, facts⟩ := Prod.mk.inj facts
  obtain ⟨next, absent⟩ := Prod.mk.inj facts
  obtain ⟨_, sound₀, root⟩ := create_ok start
  have known : s₀.inode 1 = some (newInode 0 .dir) := by
    rw [root]
    rfl
  have limit : 1037 ≤ SFS_LN_NBLKS := by decide
  obtain ⟨s, step⟩ := file_accepted [97] content sound₀ known rfl (by decide) (by decide) absent
    (by omega) (by omega)
  obtain ⟨role, sound, grows⟩ := step_grows sound₀ step
  obtain ⟨t, close, closed⟩ := close_run sound
  have size : s.superBlocks = 4096 := by
    rw [sound.super, grows.ninos, ninos]
  obtain ⟨v, mount, _⟩ := mount_run (fun _ => true) (fun _ _ => rfl)
    (closed_mountable sound closed (show (unmounted 4096 t.image).disk = t.image from rfl) (Nat.le_of_eq size))
  exact ⟨s₀, s, t, v, start, next, absent, step, close, Nat.le_of_eq size, mount⟩

/-- A file of an image is read back exactly when the kernel's inodes reach all its blocks. -/
theorem files_read_back_exactly_when {stSize current : Nat} {image : Nat → DiskBlock}
    (start : createSfs stSize image = some s₀) (before : Run MkStep s₀ es s₁) (absent : searchCacheInode real s₁ = none)
    (step : MkStep s₁ (.file current name real content) s₂) (after : Run MkStep s₂ es' s)
    (length : content.length ≤ SFS_MAX_FILE_SIZE) (close : closeSfs s = some t) (memory : ∀ n < 5, kmalloc n = true)
    (disk : fresh.disk = t.image) (device : s.superBlocks ≤ fresh.dBlocks) (addressable : fresh.dBlocks < 1048576)
    (mount : sfsDoMount kmalloc SFS_BLKSIZE fresh = some (.ok v)) :
    ReadsBack (loaded v s₁.nextIno) s₁.nextIno content ↔ content.length ≤ 1036 * SFS_BLKSIZE := by
  obtain ⟨_, sound₀, _⟩ := create_ok start
  obtain ⟨_, sound₁, _⟩ := run_grows before sound₀
  obtain ⟨ci, known, filled⟩ := new_file_run sound₁ absent step after
  have whole := run_append before (.call step after)
  obtain ⟨role, opened⟩ := opened_after start whole close memory disk device addressable mount known
  exact filled_reads_back_iff opened filled length

/- A file of three bytes. -/
theorem small_file_reads_back :
    ∃ s₀ v, createSfs 16777216 (fun _ _ => 0) = some s₀ ∧ ReadsBack (loaded v s₀.nextIno) s₀.nextIno [1, 2, 3] := by
  obtain ⟨s₀, s, t, v, start, _, absent, step, close, device, mount⟩ := one_file_image [1, 2, 3] (by decide)
  have reads := files_read_back_exactly_when start (.stop s₀) absent step (.stop s) (by decide) close (fun _ _ => rfl) rfl
    device (show 4096 < 1048576 by decide) mount
  exact ⟨s₀, v, start, reads.mpr (by decide)⟩

theorem long_file_stops (content : List UInt8) (long : content.length = 4243457) :
    ∃ s₀ s t v, createSfs 16777216 (fun _ _ => 0) = some s₀ ∧ s₀.nextIno = 3 ∧
      MkStep s₀ (.file 1 [97] 5 content) s ∧ closeSfs s = some t ∧
      sfsDoMount (fun _ => true) SFS_BLKSIZE (unmounted 4096 t.image) = some (.ok v) ∧
      (∀ buf, sfsIoNolock 3 buf 4243456 1 false (loaded v 3) = .error .indexOutOfRange) ∧
      ¬ ReadsBack (loaded v 3) 3 content := by
  obtain ⟨s₀, s, t, v, start, next, absent, step, close, device, mount⟩ := one_file_image content (by rw [long]; decide)
  obtain ⟨_, sound₀, _⟩ := create_ok start
  obtain ⟨ci, known, filled⟩ := new_file_run sound₀ absent step (.stop s)
  rw [next] at known
  obtain ⟨role, opened⟩ := opened_after start (.call step (.stop s)) close (fun _ _ => rfl) rfl device
    (show 4096 < 1048576 by decide) mount known
  have length : content.length ≤ SFS_MAX_FILE_SIZE := by
    rw [long]
    decide
  have past : maxMapped < content.length := by
    rw [long]
    decide
  refine ⟨s₀, s, t, v, start, next, step, close, mount, filled_stops opened filled length past, fun reads => ?_⟩
  have short := (filled_reads_back_iff opened filled length).mp reads
  omega

/- One byte more than the kernel's indirect block reaches. -/
theorem longer_file_stops :
    ∃ s₀ s t v, createSfs 16777216 (fun _ _ => 0) = some s₀ ∧ s₀.nextIno = 3 ∧
      MkStep s₀ (.file 1 [97] 5 (List.replicate 4243457 0)) s ∧ closeSfs s = some t ∧
      sfsDoMount (fun _ => true) SFS_BLKSIZE (unmounted 4096 t.image) = some (.ok v) ∧
      (∀ buf, sfsIoNolock 3 buf 4243456 1 false (loaded v 3) = .error .indexOutOfRange) ∧
      ¬ ReadsBack (loaded v 3) 3 (List.replicate 4243457 0) :=
  long_file_stops _ List.length_replicate

end Ucore.Mksfs
