import Ucore.Tools.MksfsAppend

/- The calls of the walk over the directories, one after the other: what has been written stays. -/
namespace Ucore.Mksfs
open Words Transitions
variable {s t u : SfsFs} {f g k b l n i j ino size len : Nat} {ci ci' file : CacheInode} {role role' role'' : Nat → Role}
  {touched touched' : Nat → Prop} {data : DiskBlock}

/-- A later state of a file. -/
structure Continues (s : SfsFs) (ci : CacheInode) (t : SfsFs) (ci' : CacheInode) : Prop where
  real : ci'.real = ci.real
  type : ci'.inode.type = ci.inode.type
  more : ci.nblks ≤ ci'.nblks
  blocks : ∀ i < ci.nblks, blockOf t ci' i = blockOf s ci i

/-- A later state of the image, where only the files in `touched` have become longer. -/
structure Grows (touched : Nat → Prop) (role role' : Nat → Role) (s t : SfsFs) : Prop where
  ninos : t.ninos = s.ninos
  next : s.nextIno ≤ t.nextIno
  roles : ∀ b, Allocated s b → role' b = role b
  image : ∀ b, Allocated s b → t.image b = s.image b
  files : ∀ f ci, s.inode f = some ci → ∃ ci', t.inode f = some ci' ∧ Continues s ci t ci' ∧
    (¬ touched f → ci'.nblks = ci.nblks ∧ ci'.inode.size = ci.inode.size)

theorem Grows.refl (touched : Nat → Prop) (role : Nat → Role) (s : SfsFs) : Grows touched role role s s :=
  ⟨rfl, Nat.le_refl _, fun _ _ => rfl, fun _ _ => rfl,
    fun _ ci known => ⟨ci, known, ⟨rfl, rfl, Nat.le_refl _, fun _ _ => rfl⟩, fun _ => ⟨rfl, rfl⟩⟩⟩

theorem Grows.allocated (grows : Grows touched role role' s t) (before : Allocated s b) : Allocated t b := by
  have next := grows.next
  unfold Allocated at before ⊢
  rw [grows.ninos]
  omega

theorem Continues.trans {ci'' : CacheInode} (first : Continues s ci t ci') (second : Continues t ci' u ci'') :
    Continues s ci u ci'' := by
  refine ⟨second.real.trans first.real, second.type.trans first.type, Nat.le_trans first.more second.more,
    fun i inside => ?_⟩
  exact (second.blocks i (Nat.lt_of_lt_of_le inside first.more)).trans (first.blocks i inside)

/- The second step may also touch files that only the first has made. -/
theorem Grows.trans' (first : Grows touched role role' s t) (second : Grows touched' role' role'' t u)
    (fewer : ∀ f ci, s.inode f = some ci → touched' f → touched f) : Grows touched role role'' s u := by
  refine ⟨second.ninos.trans first.ninos, Nat.le_trans first.next second.next, fun b allocated => ?_, fun b allocated => ?_,
    fun f ci known => ?_⟩
  · exact (second.roles b (first.allocated allocated)).trans (first.roles b allocated)
  · exact (second.image b (first.allocated allocated)).trans (first.image b allocated)
  · obtain ⟨c, known', continues, same⟩ := first.files f ci known
    obtain ⟨c', known'', continues', same'⟩ := second.files f c known'
    refine ⟨c', known'', continues.trans continues', fun clear => ?_⟩
    have clear' : ¬ touched' f := fun here => clear (fewer f ci known here)
    exact ⟨(same' clear').1.trans (same clear).1, (same' clear').2.trans (same clear).2⟩

theorem Grows.trans (first : Grows touched role role' s t) (second : Grows touched role' role'' t u) :
    Grows touched role role'' s u := first.trans' second fun _ _ _ here => here

/- A file that is not there yet counts as touched by nobody. -/
theorem Grows.only (grows : Grows touched role role' s t)
    (fewer : ∀ f ci, s.inode f = some ci → touched f → touched' f) : Grows touched' role role' s t := by
  refine ⟨grows.ninos, grows.next, grows.roles, grows.image, fun f ci known => ?_⟩
  obtain ⟨c, known', continues, same⟩ := grows.files f ci known
  exact ⟨c, known', continues, fun clear => same fun here => clear (fewer f ci known here)⟩

/- The buffer for entries is not looked at. -/
theorem Grows.of_buffer {entry : DiskBlock} (grows : Grows touched role role' { s with entry } t) :
    Grows touched role role' s t := by
  refine ⟨grows.ninos, grows.next, grows.roles, grows.image, fun f ci known => ?_⟩
  obtain ⟨c, known', continues, same⟩ := grows.files f ci known
  exact ⟨c, known', ⟨continues.real, continues.type, continues.more, continues.blocks⟩, same⟩

theorem known_small (sound : MkSound role s) (known : s.inode f = some ci) : f < s.nextIno := by
  have first := sound.first
  have two := two_le_first s.ninos
  rcases (sound.known f ci known).1 with root | allocated
  · rw [root]
    unfold SFS_BLKN_ROOT
    omega
  · exact allocated.2

/- The image and the buffer for entries are not looked at. -/
theorem image_sound (sound : MkSound role s) (image : Nat → DiskBlock) (entry : DiskBlock) :
    MkSound role { s with image, entry } := by
  refine ⟨sound.small, sound.super, sound.first, sound.room, sound.unused, fun f ci known => ?_, sound.listed, sound.cached⟩
  obtain ⟨place, here, ok⟩ := sound.known f ci known
  have frame : Frame role role s { s with image, entry } f :=
    ⟨rfl, Nat.le_refl _, fun _ _ => rfl, fun _ _ _ => rfl, fun _ mem => mem⟩
  exact ⟨place, here, frame_file frame ok⟩

theorem write_block_ok (done : writeBlock data len ino s = some t) :
    len ≤ SFS_BLKSIZE ∧ ino < s.ninos ∧
      t = { s with image := Function.update s.image ino fun i => if i < len then data i else 0 } := by
  unfold writeBlock at done
  split_ifs at done with fits
  exact ⟨fits.1, fits.2, (Option.some.inj done).symm⟩

/-- What `append_block` makes of the inode. -/
structure Longer (size : Nat) (file ci : CacheInode) : Prop where
  nblks : ci.nblks = file.nblks + 1
  size : ci.inode.size = u32 (file.inode.size + size)
  real : ci.real = file.real
  type : ci.inode.type = file.inode.type
  nlinks : ci.inode.nlinks = file.inode.nlinks

theorem append_ok (sound : MkSound role s) (known : s.inode f = some file) (allocated : Allocated s ino)
    (here : role ino = .data f file.nblks) (done : appendBlock f size ino s = some t) :
    ∃ role' ci, MkSound role' t ∧ Grows (· = f) role role' s t ∧ t.inode f = some ci ∧ Longer size file ci ∧
      blockOf t ci file.nblks = ino ∧ t.inodes = s.inodes ∧ t.entry = s.entry ∧ t.image = s.image := by
  unfold appendBlock at done
  obtain ⟨file', found, done⟩ := Option.bind_eq_some_iff.mp done
  obtain rfl : file = file' := Option.some.inj (known.symm.trans found)
  split_ifs at done with refused
  obtain ⟨⟨c, v⟩, pointer, rest⟩ := Option.bind_eq_some_iff.mp done
  obtain rfl := Option.some.inj rest
  have room : file.nblks < SFS_LN_NBLKS := by omega
  obtain ⟨same, role', w, sound', kept, poked, finish⟩ := pointer_ok sound known room allocated here pointer
  obtain ⟨_, _, ok⟩ := sound.known f file known
  obtain ⟨ci, is⟩ : ∃ ci, ci = { c with
      nblks := c.nblks + 1
      inode := { c.inode with size := u32 (c.inode.size + size), blocks := u32 (c.inode.blocks + 1) } } := ⟨_, rfl⟩
  rw [← is]
  have count : ci.nblks = file.nblks + 1 := by rw [is, ← same.nblks]
  have blocks : ci.inode.blocks = file.nblks + 1 := by
    rw [← grown_blocks ok room, ← same.blocks, is]
  obtain ⟨good, old, new⟩ := finish ci count blocks (by rw [is]; exact ⟨rfl, rfl, rfl, rfl, rfl⟩)
  have poke : v = { w with cache := v.cache } := poked.same
  have known' : w.inode f = some file := by rw [kept.inode, known]
  refine ⟨role', ci, poked_sound sound' known' poked good, ⟨?_, ?_, (kept.frame f).roles, fun b _ => ?_, fun g c' there => ?_⟩,
    Function.update_self .., ⟨count, ?_, ?_, ?_, ?_⟩, new, ?_, ?_, ?_⟩
  · change v.ninos = s.ninos
    rw [poke]
    exact (kept.frame f).ninos
  · change s.nextIno ≤ v.nextIno
    rw [poke]
    exact (kept.frame f).next
  · change v.image b = s.image b
    rw [poke, ← kept.image]
  · by_cases other : g = f
    · subst other
      obtain rfl : file = c' := Option.some.inj (known.symm.trans there)
      refine ⟨ci, Function.update_self .., ⟨?_, ?_, by omega, old⟩, fun clear => absurd rfl clear⟩
      · rw [is, ← same.real]
      · rw [is, ← same.type]
    · refine ⟨c', ?_, ⟨rfl, rfl, Nat.le_refl _, fun i inside => ?_⟩, fun _ => ⟨rfl, rfl⟩⟩
      · change Function.update v.inode f (some ci) g = some c'
        rw [Function.update_of_ne other, poke, ← there, ← kept.inode]
      · obtain ⟨_, _, before⟩ := sound.known g c' there
        have middle := frame_file (kept.frame g) before
        exact (frame_block (poked.frame other) middle inside).trans (frame_block (kept.frame g) before inside)
  · rw [is, ← same.size]
  · rw [is, ← same.real]
  · rw [is, ← same.type]
  · rw [is, ← same.nlinks]
  · change v.inodes = s.inodes
    rw [poke, ← kept.inodes]
  · change v.entry = s.entry
    rw [poke, ← kept.entry]
  · change v.image = s.image
    rw [poke, ← kept.image]

/- A new block with `len` bytes of `data` behind a file. -/
theorem put_block (sound : MkSound role s) (known : s.inode f = some file) {r : Nat × SfsFs}
    (alloc : sfsAllocIno s = some r) (write : writeBlock data len r.1 r.2 = some t)
    (append : appendBlock f size r.1 t = some u) :
    ∃ role' ci, MkSound role' u ∧ Grows (· = f) role role' s u ∧ u.inode f = some ci ∧ Longer size file ci ∧
      (u.image (blockOf u ci file.nblks) = fun i => if i < len then data i else 0) ∧ len ≤ SFS_BLKSIZE ∧
      u.inodes = s.inodes ∧ u.entry = s.entry := by
  obtain ⟨room, rfl⟩ := alloc_ino alloc
  obtain ⟨fits, _, rfl⟩ := write_block_ok write
  have taken := image_sound (took_sound sound room (.data f file.nblks))
    (Function.update s.image s.nextIno fun i => if i < len then data i else 0) s.entry
  obtain ⟨role', ci, sound', grows, known', longer, last, lists, entry, image⟩ :=
    append_ok taken known (new_allocated sound) (Function.update_self ..) append
  refine ⟨role', ci, sound', ⟨grows.ninos, Nat.le_of_succ_le grows.next, fun b allocated => ?_, fun b allocated => ?_,
    fun g c there => ?_⟩, known', longer, ?_, fits, lists, entry⟩
  · rw [grows.roles b (took_allocated allocated), Function.update_of_ne (not_new allocated)]
  · rw [grows.image b (took_allocated allocated)]
    exact Function.update_of_ne (not_new allocated) ..
  · obtain ⟨c', known'', continues, same⟩ := grows.files g c there
    exact ⟨c', known'', ⟨continues.real, continues.type, continues.more, continues.blocks⟩, same⟩
  · rw [last, image]
    exact Function.update_self ..

/-- The inode of `alloc_cache_inode`. -/
def newInode (real : Nat) (type : SfsType) : CacheInode where
  inode := { size := 0, type, nlinks := 0, blocks := 0, direct := fun _ => 0, indirect := 0, dbIndirect := 0 }
  real
  nblks := 0
  l1 := none
  l2 := none

theorem new_file_ok (role : Nat → Role) (s : SfsFs) (f real : Nat) (type : SfsType) :
    FileOk role s f (newInode real type) := by
  have none_there : ∀ {n}, ¬ n < (newInode real type).nblks := Nat.not_lt_zero _
  exact {
    count := Nat.zero_le _
    blocks := rfl
    data := fun _ inside => absurd inside none_there
    direct := fun _ _ => rfl
    noIndirect := fun _ => rfl
    indirect := fun more => absurd more none_there
    rest := fun more => absurd more none_there
    level1 := fun more => absurd more none_there
    noDouble := fun _ => rfl
    double := fun more => absurd more none_there
    second := fun _ more => absurd more none_there
    beyond := fun more => absurd more none_there
    level2 := fun more => absurd more none_there }

theorem hash_lt (val : Nat) : hash32 val < HASH_LIST_SIZE := by
  unfold hash32 HASH_LIST_SIZE wordSize
  omega

theorem mem_pushed {lists : Nat → List Nat} {h : Nat} :
    g ∈ Function.update lists h (n :: lists h) i ↔ i = h ∧ g = n ∨ g ∈ lists i := by
  by_cases here : i = h
  · subst here
    simp
  · simp [here]

theorem fresh_inode (sound : MkSound role s) : s.inode s.nextIno = none := by
  cases known : s.inode s.nextIno with
  | none => rfl
  | some ci => exact absurd rfl (known_not_new sound known)

/- The state after `alloc_cache_inode` with a new number. -/
def SfsFs.grewInode (s : SfsFs) (real : Nat) (type : SfsType) : SfsFs :=
  { s.took with
    inode := Function.update s.inode s.nextIno (some (newInode real type))
    inodes := Function.update s.inodes (hash32 real) (s.nextIno :: s.inodes (hash32 real)) }

theorem alloc_cache_inode {real : Nat} {type : SfsType} {r : Nat × SfsFs} (done : allocCacheInode real 0 type s = some r) :
    s.nextIno < s.ninos ∧ r = (s.nextIno, s.grewInode real type) := by
  unfold allocCacheInode at done
  rw [if_neg (not_not.mpr rfl)] at done
  obtain ⟨m, alloc, rest⟩ := Option.bind_eq_some_iff.mp done
  obtain ⟨room, rfl⟩ := alloc_ino alloc
  exact ⟨room, (Option.some.inj rest).symm⟩

theorem grew_inode_sound (sound : MkSound role s) (room : s.nextIno < s.ninos) (real : Nat) (type : SfsType) :
    MkSound (Function.update role s.nextIno .inode) (s.grewInode real type) := by
  have took := took_sound sound room .inode
  refine ⟨took.small, took.super, took.first, took.room, took.unused, fun f ci known => ?_, fun f => ?_, took.cached⟩
  · change Function.update s.inode s.nextIno (some (newInode real type)) f = some ci at known
    by_cases new : f = s.nextIno
    · subst new
      rw [Function.update_self] at known
      cases known
      exact ⟨.inr (new_allocated sound), Function.update_self .., new_file_ok ..⟩
    · rw [Function.update_of_ne new] at known
      obtain ⟨place, here, ok⟩ := took.known f ci known
      have frame : Frame (Function.update role s.nextIno .inode) (Function.update role s.nextIno .inode) s.took
          (s.grewInode real type) f :=
        ⟨rfl, Nat.le_refl _, fun _ _ => rfl, fun _ _ _ => rfl, fun _ mem => mem⟩
      exact ⟨place, here, frame_file frame ok⟩
  · change (Function.update s.inode s.nextIno (some (newInode real type)) f).isSome = true ↔
      ∃ i < HASH_LIST_SIZE, f ∈ Function.update s.inodes (hash32 real) (s.nextIno :: s.inodes (hash32 real)) i
    simp only [mem_pushed]
    by_cases new : f = s.nextIno
    · subst new
      rw [Function.update_self]
      exact ⟨fun _ => ⟨hash32 real, hash_lt real, .inl ⟨rfl, rfl⟩⟩, fun _ => rfl⟩
    · rw [Function.update_of_ne new, sound.listed f]
      constructor
      · rintro ⟨i, inside, mem⟩
        exact ⟨i, inside, .inr mem⟩
      · rintro ⟨i, inside, ⟨_, same⟩ | mem⟩
        · exact absurd same new
        · exact ⟨i, inside, mem⟩

theorem grew_inode_grows (touched : Nat → Prop) (sound : MkSound role s) (real : Nat) (type : SfsType) :
    Grows touched role (Function.update role s.nextIno .inode) s (s.grewInode real type) := by
  refine ⟨rfl, Nat.le_succ _, fun b allocated => Function.update_of_ne (not_new allocated) .., fun _ _ => rfl,
    fun f ci known => ⟨ci, ?_, ⟨rfl, rfl, Nat.le_refl _, fun _ _ => rfl⟩, fun _ => ⟨rfl, rfl⟩⟩⟩
  change Function.update s.inode s.nextIno (some (newInode real type)) f = some ci
  rw [Function.update_of_ne (known_not_new sound known), known]

/- Another link to the file `f`. -/
def linked (ci : CacheInode) : CacheInode :=
  { ci with inode := { ci.inode with nlinks := (ci.inode.nlinks + 1) % 65536 } }

theorem linked_sound (sound : MkSound role s) (known : s.inode f = some ci) : MkSound role (setInode f (linked ci) s) := by
  obtain ⟨_, _, ok⟩ := sound.known f ci known
  exact poked_sound sound known (Poked.refl role s f) ⟨ok.count, ok.blocks, ok.data, ok.direct, ok.noIndirect, ok.indirect,
    ok.rest, ok.level1, ok.noDouble, ok.double, ok.second, ok.beyond, ok.level2⟩

theorem linked_grows (touched : Nat → Prop) (role : Nat → Role) (known : s.inode f = some ci) :
    Grows touched role role s (setInode f (linked ci) s) := by
  refine ⟨rfl, Nat.le_refl _, fun _ _ => rfl, fun _ _ => rfl, fun g c there => ?_⟩
  by_cases same : g = f
  · subst same
    obtain rfl : ci = c := Option.some.inj (known.symm.trans there)
    exact ⟨linked ci, Function.update_self .., ⟨rfl, rfl, Nat.le_refl _, fun _ _ => rfl⟩, fun _ => ⟨rfl, rfl⟩⟩
  · refine ⟨c, ?_, ⟨rfl, rfl, Nat.le_refl _, fun _ _ => rfl⟩, fun _ => ⟨rfl, rfl⟩⟩
    change Function.update s.inode f (some (linked ci)) g = some c
    rw [Function.update_of_ne same, there]

/-- The block that `add_entry` writes. -/
def entryBlock (old : DiskBlock) (ino : Nat) (name : Name) : DiskBlock :=
  fun i => if i < sizeofName then entryBytes old ino name i else 0

/- An entry is put behind the entries of its directory. -/
theorem add_entry_ok {name : Name} (sound : MkSound role s) (done : addEntry k f name s = some t) :
    ∃ dir, s.inode k = some dir ∧ dir.inode.type = .dir ∧ name.length ≤ SFS_MAX_FNAME_LEN ∧
    ∃ role' ci, MkSound role' t ∧ Grows (· = k) role role' s t ∧ t.inode k = some ci ∧ ci.nblks = dir.nblks + 1 ∧
      t.image (blockOf t ci dir.nblks) = entryBlock s.entry f name ∧ t.inodes = s.inodes ∧ (t.inode f).isSome = true := by
  unfold addEntry at done
  obtain ⟨dir, known, done⟩ := Option.bind_eq_some_iff.mp done
  split_ifs at done with refused
  obtain ⟨is_dir, short⟩ := not_or.mp refused
  obtain ⟨⟨ino, v⟩, alloc, done⟩ := Option.bind_eq_some_iff.mp done
  obtain ⟨w, write, done⟩ := Option.bind_eq_some_iff.mp done
  obtain ⟨x, append, done⟩ := Option.bind_eq_some_iff.mp done
  obtain ⟨ci, target, done⟩ := Option.bind_eq_some_iff.mp done
  obtain rfl := Option.some.inj done
  have buffered := image_sound sound s.image (entryBytes s.entry f name)
  cases (alloc_ino alloc).2
  obtain ⟨role', c, sound', grows, known', longer, block, _, lists, _⟩ := put_block buffered known alloc write append
  have links := linked_grows (· = k) role' target
  obtain ⟨c', known'', continues, same⟩ := links.files k c known'
  refine ⟨dir, known, not_not.mp is_dir, Nat.le_of_not_lt short, role', c', linked_sound sound' target, ?_, known'', ?_,
    ?_, lists, ?_⟩
  · exact grows.of_buffer.trans links
  · by_cases here : k = f
    · subst here
      obtain rfl : ci = c := Option.some.inj (target.symm.trans known')
      obtain rfl : linked ci = c' := by
        have here : Function.update x.inode k (some (linked ci)) k = some c' := known''
        rw [Function.update_self] at here
        exact Option.some.inj here
      exact longer.nblks
    · have there : Function.update x.inode f (some (linked ci)) k = some c' := known''
      rw [Function.update_of_ne here, known'] at there
      obtain rfl := Option.some.inj there
      exact longer.nblks
  · change x.image (blockOf (setInode f (linked ci) x) c' dir.nblks) = entryBlock s.entry f name
    rw [continues.blocks _ (by rw [longer.nblks]; omega)]
    exact block
  · change (Function.update x.inode f (some (linked ci)) f).isSome = true
    rw [Function.update_self]
    rfl

/- The numbers in the hash lists are those of the files there are. -/
theorem same_files (sound : MkSound role s) (sound' : MkSound role' t) (lists : t.inodes = s.inodes) (g : Nat) :
    (t.inode g).isSome = (s.inode g).isSome := by
  rw [Bool.eq_iff_iff, sound.listed g, sound'.listed g, lists]

theorem file_data (sound : MkSound role s) (known : s.inode f = some ci) (inside : i < ci.nblks) :
    Allocated s (blockOf s ci i) ∧ role (blockOf s ci i) = .data f i := (sound.known f ci known).2.2.data i inside

/- What has been written to a file is still there later. -/
theorem Grows.content (grows : Grows touched role role' s t) (sound : MkSound role s) (known : s.inode f = some ci)
    (known' : t.inode f = some ci') (inside : i < ci.nblks) :
    t.image (blockOf t ci' i) = s.image (blockOf s ci i) := by
  obtain ⟨c, there, continues, _⟩ := grows.files f ci known
  obtain rfl : c = ci' := Option.some.inj (there.symm.trans known')
  rw [continues.blocks i inside]
  exact grows.image _ (file_data sound known inside).1

/-- A file behind which a list of blocks has been put. -/
structure Filled (t : SfsFs) (rest : List (List UInt8)) (file ci : CacheInode) : Prop where
  nblks : ci.nblks = file.nblks + rest.length
  size : file.inode.size < wordSize → ci.inode.size = (file.inode.size + rest.flatten.length) % wordSize
  type : ci.inode.type = file.inode.type
  data : ∀ j chunk, rest[j]? = some chunk → t.image (blockOf t ci (file.nblks + j)) = chunkBytes chunk

theorem chunk_padded (chunk : List UInt8) :
    (fun i => if i < chunk.length then chunkBytes chunk i else 0) = chunkBytes chunk := by
  funext i
  unfold chunkBytes
  split_ifs with inside
  · rfl
  · rw [List.getD_eq_default _ _ (Nat.le_of_not_lt inside)]

theorem open_file_loop {rest : List (List UInt8)} {last : Nat} (sound : MkSound role s) (known : s.inode f = some file)
    (done : openFileLoop f last rest s = some t) :
    ∃ role' ci, MkSound role' t ∧ Grows (· = f) role role' s t ∧ t.inode f = some ci ∧ Filled t rest file ci ∧
      t.inodes = s.inodes := by
  induction rest generalizing last role s file with
  | nil =>
    cases done
    refine ⟨role, file, sound, Grows.refl .., known, ⟨rfl, fun small => ?_, rfl, fun j chunk here => ?_⟩, rfl⟩
    · simp [Nat.mod_eq_of_lt small]
    · simp at here
  | cons chunk rest ih =>
    unfold openFileLoop at done
    split_ifs at done
    obtain ⟨⟨ino, v⟩, alloc, done⟩ := Option.bind_eq_some_iff.mp done
    obtain ⟨w, write, done⟩ := Option.bind_eq_some_iff.mp done
    obtain ⟨u, append, done⟩ := Option.bind_eq_some_iff.mp done
    obtain ⟨role₁, c, sound₁, grows₁, known₁, longer, block, _, lists₁, _⟩ := put_block sound known alloc write append
    obtain ⟨role₂, ci, sound₂, grows₂, known₂, filled, lists₂⟩ := ih sound₁ known₁ done
    refine ⟨role₂, ci, sound₂, grows₁.trans grows₂, known₂, ⟨?_, fun small => ?_, filled.type.trans longer.type,
      fun j bytes here => ?_⟩, lists₂.trans lists₁⟩
    · rw [filled.nblks, longer.nblks, List.length_cons]
      omega
    · have sum : ((file.inode.size : Int) + (chunk.length : Int)) = ((file.inode.size + chunk.length : Nat) : Int) := by
        omega
      have size := longer.size
      rw [sum, u32_mod] at size
      rw [filled.size (by rw [size]; exact Nat.mod_lt _ (by decide)), size, List.flatten_cons, List.length_append,
        Nat.mod_add_mod, Nat.add_assoc]
    · cases j with
      | zero =>
        obtain rfl : chunk = bytes := by simpa using here
        rw [Nat.add_zero, grows₂.content sound₁ known₁ known₂ (by rw [longer.nblks]; omega), block, chunk_padded]
      | succ j =>
        have back : file.nblks + (j + 1) = c.nblks + j := by
          rw [longer.nblks]
          omega
        rw [back]
        exact filled.data j bytes (by simpa using here)

/-- The file of `add_file`: one that is there, or a new one with the bytes of the source file. -/
theorem file_inode_ok {real : Nat} {content : List UInt8} (touched : Nat → Prop) (sound : MkSound role s)
    (done : fileInode real content s = some (n, t)) :
    ∃ role', MkSound role' t ∧ Grows touched role role' s t ∧ n = (searchCacheInode real s).getD s.nextIno ∧
      ((searchCacheInode real s).isSome = true ∧ t = s ∨ searchCacheInode real s = none ∧ s.inode n = none ∧
        (∃ ci, t.inode n = some ci ∧ Filled t (chunks content) (newInode real .file) ci) ∧
        ∀ g ≠ n, (t.inode g).isSome = (s.inode g).isSome) := by
  unfold fileInode at done
  cases search : searchCacheInode real s with
  | some m =>
    rw [search] at done
    cases done
    exact ⟨role, sound, Grows.refl .., rfl, .inl ⟨rfl, rfl⟩⟩
  | none =>
    rw [search] at done
    obtain ⟨⟨m, u⟩, alloc, done⟩ := Option.bind_eq_some_iff.mp done
    obtain ⟨v, loop, done⟩ := Option.bind_eq_some_iff.mp done
    cases done
    obtain ⟨room, same⟩ := alloc_cache_inode alloc
    cases same
    have start := grew_inode_sound sound room real .file
    have known : (s.grewInode real .file).inode s.nextIno = some (newInode real .file) := Function.update_self ..
    have fresh := fresh_inode sound
    obtain ⟨role', ci, sound', grows, known', filled, lists⟩ := open_file_loop start known loop
    refine ⟨role', sound', ?_, rfl, .inr ⟨rfl, fresh, ⟨ci, known', filled⟩, fun g other => ?_⟩⟩
    · refine ((grew_inode_grows (· = s.nextIno) sound real .file).trans grows).only fun f c there here => ?_
      subst here
      rw [fresh] at there
      cases there
    · rw [same_files start sound' lists g]
      change (Function.update s.inode s.nextIno (some (newInode real .file)) g).isSome = (s.inode g).isSome
      rw [Function.update_of_ne other]

theorem append_total (sound : MkSound role s) (known : s.inode f = some file) (few : file.nblks < SFS_LN_NBLKS)
    (blocks : s.nextIno + 2 ≤ s.ninos) (fits : size ≤ SFS_BLKSIZE) :
    ∃ t, appendBlock f size ino s = some t ∧ t.nextIno ≤ s.nextIno + 2 := by
  obtain ⟨ci, v, pointer, next⟩ := pointer_total ino sound known few blocks
  unfold appendBlock
  rw [known]
  dsimp only [Option.bind_eq_bind, Option.bind_some]
  rw [if_neg (by omega), pointer]
  exact ⟨_, rfl, next⟩

/- Three free blocks are enough for one more block of data. -/
theorem put_total (sound : MkSound role s) (known : s.inode f = some file) (few : file.nblks < SFS_LN_NBLKS)
    (blocks : s.nextIno + 3 ≤ s.ninos) (fits : len ≤ SFS_BLKSIZE) (data : DiskBlock) :
    ∃ t u, sfsAllocIno s = some (s.nextIno, s.took) ∧ writeBlock data len s.nextIno s.took = some t ∧
      appendBlock f len s.nextIno t = some u ∧ u.nextIno ≤ s.nextIno + 3 := by
  have room : s.nextIno < s.ninos := by omega
  have taken := image_sound (took_sound sound room (.data f file.nblks))
    (Function.update s.image s.nextIno fun i => if i < len then data i else 0) s.entry
  obtain ⟨u, append, next⟩ := append_total taken known few (show s.nextIno + 1 + 2 ≤ s.ninos by omega) fits
  have next : u.nextIno ≤ s.nextIno + 1 + 2 := next
  exact ⟨_, u, if_pos room, if_pos ⟨fits, room⟩, append, by omega⟩

theorem open_file_total {rest : List (List UInt8)} (last : Nat) (sound : MkSound role s) (known : s.inode f = some file)
    (few : file.nblks + rest.length ≤ SFS_LN_NBLKS) (blocks : s.nextIno + 3 * rest.length ≤ s.ninos)
    (full : rest ≠ [] → last = SFS_BLKSIZE)
    (whole : ∀ j chunk, rest[j]? = some chunk →
      chunk.length ≤ SFS_BLKSIZE ∧ (j + 1 < rest.length → chunk.length = SFS_BLKSIZE)) :
    ∃ t, openFileLoop f last rest s = some t ∧ t.nextIno ≤ s.nextIno + 3 * rest.length := by
  induction rest generalizing last role s file with
  | nil => exact ⟨s, rfl, Nat.le_add_right _ _⟩
  | cons chunk rest ih =>
    rw [List.length_cons] at few blocks
    obtain ⟨fits, first⟩ := whole 0 chunk rfl
    obtain ⟨w, u, alloc, write, append, next⟩ := put_total sound known (by omega) (by omega) fits (chunkBytes chunk)
    obtain ⟨role₁, ci, sound₁, grows, known₁, longer, _⟩ := put_block sound known alloc write append
    have ninos := grows.ninos
    obtain ⟨t, loop, last_next⟩ := ih chunk.length sound₁ known₁ (by rw [longer.nblks]; omega)
      (by omega) (fun more => first (by
        have := List.length_pos_of_ne_nil more
        rw [List.length_cons]
        omega)) fun j c here => by
          have one := whole (j + 1) c here
          rw [List.length_cons] at one
          exact ⟨one.1, fun inside => one.2 (by omega)⟩
    refine ⟨t, ?_, by rw [List.length_cons]; omega⟩
    unfold openFileLoop
    rw [if_neg (not_not.mpr (full (List.cons_ne_nil chunk rest)))]
    exact Option.bind_eq_some_iff.mpr ⟨_, alloc, Option.bind_eq_some_iff.mpr ⟨w, write, Option.bind_eq_some_iff.mpr
      ⟨u, append, loop⟩⟩⟩

theorem add_entry_total {dir : CacheInode} {name : Name} (sound : MkSound role s) (known : s.inode k = some dir)
    (is_dir : dir.inode.type = .dir) (few : dir.nblks < SFS_LN_NBLKS) (short : name.length ≤ SFS_MAX_FNAME_LEN)
    (target : (s.inode f).isSome = true) (blocks : s.nextIno + 3 ≤ s.ninos) : ∃ t, addEntry k f name s = some t := by
  have buffered := image_sound sound s.image (entryBytes s.entry f name)
  obtain ⟨w, u, alloc, write, append, _⟩ := put_total buffered known few blocks (show sizeofName ≤ SFS_BLKSIZE by decide)
    (entryBytes s.entry f name)
  obtain ⟨role₁, _, sound₁, _, _, _, _, _, lists, _⟩ := put_block buffered known alloc write append
  rw [← same_files buffered sound₁ lists f] at target
  obtain ⟨ci, there⟩ := Option.isSome_iff_exists.mp target
  refine ⟨setInode f (linked ci) u, Option.bind_eq_some_iff.mpr ⟨dir, known, ?_⟩⟩
  rw [if_neg (by simp [is_dir]; omega)]
  exact Option.bind_eq_some_iff.mpr ⟨_, alloc, Option.bind_eq_some_iff.mpr ⟨w, write, Option.bind_eq_some_iff.mpr
    ⟨u, append, Option.bind_eq_some_iff.mpr ⟨ci, there, rfl⟩⟩⟩⟩

/-- The directory `k` has one more entry. -/
def Entered (s t : SfsFs) (k f : Nat) (name : Name) : Prop :=
  ∃ dir ci old, s.inode k = some dir ∧ dir.inode.type = .dir ∧ name.length ≤ SFS_MAX_FNAME_LEN ∧ t.inode k = some ci ∧
    ci.nblks = dir.nblks + 1 ∧ t.image (blockOf t ci dir.nblks) = entryBlock old f name ∧ (t.inode f).isSome = true

/-- The directory that a call enters something into, with the number and the name. -/
def SfsFs.enters (s : SfsFs) : MkEvent → Option (Nat × Nat × Name)
  | .newDir _ => none
  | .entry current file name => some (current, file, name)
  | .file current name real _ => some (current, (searchCacheInode real s).getD s.nextIno, name)
  | .link current name _ _ => some (current, s.nextIno, name)

/-- What a call does: it makes at most one file, which is empty if it is a directory, and at most one entry. -/
structure Called (s : SfsFs) (e : MkEvent) (t : SfsFs) : Prop where
  entered : ∀ k f name, s.enters e = some (k, f, name) → Entered s t k f name
  fresh : ∀ g ci, s.inode g = none → t.inode g = some ci → ci.inode.type = .dir → ci.nblks = 0

/- An entry behind a step that makes at most the file `n`, which is no directory. -/
theorem enter_after {touched : Nat → Prop} {name : Name} (sound : MkSound role t) (grows : Grows touched role' role s t)
    (clear : ¬ touched k) (others : ∀ g ≠ n, (t.inode g).isSome = (s.inode g).isSome)
    (made : s.inode n = none → ∀ ci, t.inode n = some ci → ci.inode.type ≠ .dir)
    (done : addEntry k f name t = some u) :
    ∃ role'', MkSound role'' u ∧ Grows (· = k) role role'' t u ∧ Entered s u k f name ∧
      ∀ g ci, s.inode g = none → u.inode g = some ci → ci.inode.type ≠ .dir := by
  obtain ⟨dir, known, is_dir, short, role'', ci, sound', more, known', nblks, block, lists, target⟩ := add_entry_ok sound done
  have before : (s.inode k).isSome = true := by
    by_cases same : k = n
    · subst same
      cases there : s.inode k with
      | none => exact absurd is_dir (made there dir known)
      | some c => rfl
    · rw [← others k same, known]
      rfl
  obtain ⟨dir', there⟩ := Option.isSome_iff_exists.mp before
  obtain ⟨d, known₂, continues, same⟩ := grows.files k dir' there
  obtain rfl : dir = d := Option.some.inj (known.symm.trans known₂)
  have count := (same clear).1
  refine ⟨role'', sound', more, ⟨dir', ci, _, there, continues.type.symm.trans is_dir, short, known', by rw [nblks, count],
    by rw [← count]; exact block, target⟩, fun g c absent present => ?_⟩
  have in_t : (t.inode g).isSome = true := by
    rw [← same_files sound sound' lists g, present]
    rfl
  obtain rfl : g = n := by
    by_contra other
    rw [others g other, absent] at in_t
    cases in_t
  obtain ⟨c', middle⟩ := Option.isSome_iff_exists.mp in_t
  obtain ⟨c'', last, continues', _⟩ := more.files g c' middle
  obtain rfl : c'' = c := Option.some.inj (last.symm.trans present)
  rw [continues'.type]
  exact made absent c' middle

theorem no_inode_made (k : Nat) (s : SfsFs) : ∀ g ≠ k, (s.inode g).isSome = (s.inode g).isSome := fun _ _ => rfl

theorem call_ok {e : MkEvent} (sound : MkSound role s) (done : s.call e = some t) :
    ∃ role', MkSound role' t ∧ Grows (fun k => ∃ f name, s.enters e = some (k, f, name)) role role' s t ∧ Called s e t := by
  cases e with
  | newDir real =>
    change (if (searchCacheInode real s).isSome then none else (allocCacheInode real 0 .dir s).map Prod.snd) = some t at done
    split_ifs at done
    obtain ⟨r, alloc, rfl⟩ := Option.map_eq_some_iff.mp done
    obtain ⟨room, rfl⟩ := alloc_cache_inode alloc
    refine ⟨_, grew_inode_sound sound room real .dir, grew_inode_grows _ sound real .dir,
      ⟨fun k f name enters => (nomatch enters), fun g ci absent present _ => ?_⟩⟩
    change Function.update s.inode s.nextIno (some (newInode real .dir)) g = some ci at present
    by_cases new : g = s.nextIno
    · subst new
      rw [Function.update_self] at present
      cases present
      rfl
    · rw [Function.update_of_ne new, absent] at present
      cases present
  | entry current file name =>
    have grows := Grows.refl (fun _ => False) role s
    obtain ⟨role', sound', more, entered, fresh⟩ := enter_after (n := current) sound grows id (no_inode_made current s)
      (fun absent ci present => by rw [absent] at present; cases present) done
    refine ⟨role', sound', more.only fun f _ _ here => ⟨file, name, by rw [here]; rfl⟩, fun k f name' enters => ?_,
      fun g ci absent present is_dir => absurd is_dir (fresh g ci absent present)⟩
    cases enters
    exact entered
  | file current name real content =>
    obtain ⟨⟨f, u⟩, made, done⟩ := Option.bind_eq_some_iff.mp done
    obtain ⟨role₁, sound₁, grows, number, kinds⟩ := file_inode_ok (fun _ => False) sound made
    have others : ∀ g ≠ f, (u.inode g).isSome = (s.inode g).isSome := by
      rcases kinds with ⟨_, rfl⟩ | ⟨_, _, _, others⟩
      · exact no_inode_made f u
      · exact others
    have no_dir : s.inode f = none → ∀ ci, u.inode f = some ci → ci.inode.type ≠ .dir := by
      intro absent ci present is_dir
      rcases kinds with ⟨_, rfl⟩ | ⟨_, _, ⟨c, known, filled⟩, _⟩
      · rw [absent] at present
        cases present
      · obtain rfl := Option.some.inj (known.symm.trans present)
        rw [filled.type] at is_dir
        cases is_dir
    obtain ⟨role', sound', more, entered, fresh⟩ := enter_after sound₁ grows id others no_dir done
    refine ⟨role', sound', ?_, fun k f' name' enters => ?_,
      fun g ci absent present is_dir => absurd is_dir (fresh g ci absent present)⟩
    · exact (grows.only fun _ _ _ no => no.elim).trans (more.only fun f' _ _ here =>
        ⟨(searchCacheInode real s).getD s.nextIno, name, by rw [here]; rfl⟩)
    · cases enters
      rw [← number]
      exact entered
  | link current name real target =>
    obtain ⟨⟨f, u⟩, alloc, done⟩ := Option.bind_eq_some_iff.mp done
    obtain ⟨v, opened, enter⟩ := Option.bind_eq_some_iff.mp done
    obtain ⟨room, same⟩ := alloc_cache_inode alloc
    cases same
    obtain ⟨⟨ino, w⟩, taken, opened⟩ := Option.bind_eq_some_iff.mp opened
    dsimp only at opened
    split_ifs at opened
    obtain ⟨x, write, append⟩ := Option.bind_eq_some_iff.mp opened
    have start := grew_inode_sound sound room real .link
    have known : (s.grewInode real .link).inode s.nextIno = some (newInode real .link) := Function.update_self ..
    obtain ⟨role₁, c, sound₁, grows₁, known₁, longer, _, _, lists, _⟩ := put_block start known taken write append
    have fresh := fresh_inode sound
    have grows : Grows (fun _ => False) role role₁ s v := by
      refine ((grew_inode_grows (· = s.nextIno) sound real .link).trans grows₁).only fun f c there here => ?_
      subst here
      rw [fresh] at there
      cases there
    have others : ∀ g ≠ s.nextIno, (v.inode g).isSome = (s.inode g).isSome := by
      intro g other
      rw [same_files start sound₁ lists g]
      change (Function.update s.inode s.nextIno (some (newInode real .link)) g).isSome = (s.inode g).isSome
      rw [Function.update_of_ne other]
    have no_dir : s.inode s.nextIno = none → ∀ ci, v.inode s.nextIno = some ci → ci.inode.type ≠ .dir := by
      intro _ ci present is_dir
      obtain rfl := Option.some.inj (known₁.symm.trans present)
      rw [longer.type] at is_dir
      cases is_dir
    obtain ⟨role', sound', more, entered, fresh⟩ := enter_after sound₁ grows id others no_dir enter
    refine ⟨role', sound', ?_, fun k f' name' enters => ?_,
      fun g ci absent present is_dir => absurd is_dir (fresh g ci absent present)⟩
    · exact (grows.only fun _ _ _ no => no.elim).trans (more.only fun f' _ _ here =>
        ⟨s.nextIno, name, by rw [here]; rfl⟩)
    · cases enters
      exact entered

/- Where an entry was made there was a directory. -/
def IsDir (s : SfsFs) (k : Nat) : Prop := ∃ ci, s.inode k = some ci ∧ ci.inode.type = .dir

theorem step_grows {e : MkEvent} (sound : MkSound role s) (step : MkStep s e t) :
    ∃ role', MkSound role' t ∧ Grows (IsDir s) role role' s t := by
  obtain ⟨role', sound', grows, called⟩ := call_ok sound step
  refine ⟨role', sound', grows.only fun k ci known ⟨f, name, enters⟩ => ?_⟩
  obtain ⟨dir, _, _, there, is_dir, _⟩ := called.entered k f name enters
  exact ⟨dir, there, is_dir⟩

theorem run_grows {es : List MkEvent} (run : Run MkStep s es t) (sound : MkSound role s) :
    ∃ role', MkSound role' t ∧ Grows (IsDir s) role role' s t := by
  induction run generalizing role with
  | stop s => exact ⟨role, sound, Grows.refl ..⟩
  | call step _ ih =>
    obtain ⟨role₁, sound₁, first⟩ := step_grows sound step
    obtain ⟨role₂, sound₂, rest⟩ := ih sound₁
    refine ⟨role₂, sound₂, first.trans' rest fun f ci known ⟨c, there, is_dir⟩ => ?_⟩
    obtain ⟨c', there', continues, _⟩ := first.files f ci known
    obtain rfl : c' = c := Option.some.inj (there'.symm.trans there)
    exact ⟨ci, known, continues.type.symm.trans is_dir⟩

/- The image as `create_sfs` leaves it: its root directory is empty. -/
theorem create_ok {stSize : Nat} {image : Nat → DiskBlock} (done : createSfs stSize image = some s) :
    ∃ role, MkSound role s ∧ s.inode = Function.update (fun _ => none) SFS_BLKN_ROOT (some (newInode 0 .dir)) := by
  unfold createSfs at done
  obtain ⟨ninos, is⟩ : ∃ ninos, ninos = if u32 (stSize / SFS_BLKSIZE : Nat) > SFS_MAX_NBLKS then SFS_MAX_NBLKS
    else u32 (stSize / SFS_BLKSIZE : Nat) := ⟨_, rfl⟩
  rw [← is] at done
  have small : ninos ≤ SFS_MAX_NBLKS := by
    rw [is]
    split_ifs <;> omega
  dsimp only at done
  split_ifs at done with room
  obtain ⟨r, alloc, rfl⟩ := Option.map_eq_some_iff.mp done
  unfold allocCacheInode at alloc
  rw [if_pos (by decide)] at alloc
  cases alloc
  refine ⟨fun b => if b = SFS_BLKN_ROOT then .inode else .free, ⟨small, rfl, Nat.le_refl _, Nat.le_of_not_le room, rfl,
    fun f ci known => ?_, fun f => ?_, fun i b mem => by cases mem⟩, rfl⟩
  · change Function.update (fun _ => none) SFS_BLKN_ROOT (some (newInode 0 .dir)) f = some ci at known
    by_cases root : f = SFS_BLKN_ROOT
    · subst root
      rw [Function.update_self] at known
      cases known
      exact ⟨.inl rfl, if_pos rfl, new_file_ok ..⟩
    · rw [Function.update_of_ne root] at known
      cases known
  · change (Function.update (fun _ => none) SFS_BLKN_ROOT (some (newInode 0 .dir)) f).isSome = true ↔
      ∃ i < HASH_LIST_SIZE, f ∈ Function.update (fun _ => []) (hash32 0) [SFS_BLKN_ROOT] i
    by_cases root : f = SFS_BLKN_ROOT
    · subst root
      rw [Function.update_self]
      exact ⟨fun _ => ⟨hash32 0, hash_lt 0, by rw [Function.update_self]; exact List.mem_cons_self⟩, fun _ => rfl⟩
    · rw [Function.update_of_ne root]
      constructor
      · intro no
        cases no
      · rintro ⟨i, _, mem⟩
        by_cases here : i = hash32 0
        · subst here
          rw [Function.update_self] at mem
          exact absurd (List.mem_singleton.mp mem) root
        · rw [Function.update_of_ne here] at mem
          cases mem

/- The entries that the calls make in the directory `k`. -/
def listing (k : Nat) : SfsFs → List MkEvent → List (Nat × Name)
  | _, [] => []
  | s, e :: es =>
      (match s.enters e with
        | some (current, f, name) => if current = k then [(f, name)] else []
        | none => []) ++
      match s.call e with
        | some t => listing k t es
        | none => []

/-- The entries of a directory from the slot `base` on. -/
structure Lists (t : SfsFs) (dir : CacheInode) (base : Nat) (entries : List (Nat × Name)) : Prop where
  count : dir.nblks = base + entries.length
  block : ∀ i f name, entries[i]? = some (f, name) → ∃ old, t.image (blockOf t dir (base + i)) = entryBlock old f name
  known : ∀ f name, (f, name) ∈ entries → (t.inode f).isSome = true ∧ name.length ≤ SFS_MAX_FNAME_LEN

def blocksAt (s : SfsFs) (k : Nat) : Nat := (s.inode k).elim 0 CacheInode.nblks

theorem Grows.stays (grows : Grows touched role role' s t) (known : (s.inode f).isSome = true) :
    (t.inode f).isSome = true := by
  obtain ⟨ci, here⟩ := Option.isSome_iff_exists.mp known
  obtain ⟨ci', there, _⟩ := grows.files f ci here
  rw [there]
  rfl

theorem listing_holds {es : List MkEvent} {dir : CacheInode} (run : Run MkStep s es t) (sound : MkSound role s)
    (known : t.inode k = some dir) (is_dir : dir.inode.type = .dir) : Lists t dir (blocksAt s k) (listing k s es) := by
  induction run generalizing role with
  | stop s =>
    refine ⟨?_, fun i f name here => ?_, fun f name mem => (nomatch mem)⟩
    · unfold blocksAt
      rw [known]
      rfl
    · cases here
  | @call s u t e es step rest ih =>
    obtain ⟨role₁, sound₁, first, called⟩ := call_ok sound step
    obtain ⟨role₂, sound₂, later⟩ := run_grows rest sound₁
    have lists := ih sound₁ known
    have step : s.call e = some u := step
    have now : listing k s (e :: es) = (match s.enters e with
        | some (current, f, name) => if current = k then [(f, name)] else []
        | none => []) ++ listing k u es := by
      rw [listing, step]
    rw [now]
    by_cases enters : ∃ f name, s.enters e = some (k, f, name)
    · obtain ⟨f, name, here⟩ := enters
      obtain ⟨d, ci, old, before, _, short, after, nblks, block, target⟩ := called.entered k f name here
      have base : blocksAt u k = blocksAt s k + 1 := by
        unfold blocksAt
        rw [after, before]
        exact nblks
      have place : blocksAt s k = d.nblks := by
        unfold blocksAt
        rw [before]
        rfl
      rw [here]
      dsimp only
      rw [if_pos rfl]
      refine ⟨?_, fun i g other there => ?_, fun g other mem => ?_⟩
      · rw [lists.count, base, List.singleton_append, List.length_cons]
        omega
      · cases i with
        | zero =>
          cases there
          refine ⟨old, ?_⟩
          rw [Nat.add_zero, place, later.content sound₁ after known (by omega), block]
        | succ i =>
          obtain ⟨old', there'⟩ := lists.block i g other there
          refine ⟨old', ?_⟩
          rw [← there', base]
          congr 2
          omega
      · rcases List.mem_cons.mp mem with same | mem
        · cases same
          exact ⟨later.stays target, short⟩
        · exact lists.known g other mem
    · have none_here : (match s.enters e with
          | some (current, f, name) => if current = k then [(f, name)] else []
          | none => []) = ([] : List (Nat × Name)) := by
        cases there : s.enters e with
        | none => rfl
        | some entry =>
          obtain ⟨current, f, name⟩ := entry
          refine if_neg fun same => enters ⟨f, name, ?_⟩
          rw [there, same]
      have base : blocksAt u k = blocksAt s k := by
        unfold blocksAt
        cases before : s.inode k with
        | some d =>
          obtain ⟨d', after, _, same⟩ := first.files k d before
          rw [after]
          exact (same enters).1
        | none =>
          cases after : u.inode k with
          | none => rfl
          | some d =>
            obtain ⟨d', last, continues, _⟩ := later.files k d after
            obtain rfl : d' = dir := Option.some.inj (last.symm.trans known)
            exact called.fresh k d before after (continues.type.symm.trans is_dir)
      rw [none_here, List.nil_append, ← base]
      exact lists

end Ucore.Mksfs
