import Ucore.Fs.Namefile
import Ucore.Fs.PathPanics

/- `sfs_namefile` climbs to the root by `..`. What is not in memory is read on the way and goes
   again with its last reference. -/
namespace Ucore
open Programs ByteMemory

/-- The first name that a directory has for an inode number. -/
def entryName (s : Sfs) (p ino : Nat) : Option Name :=
  ((List.range (s.inodes p).din.blocks).find? fun slot => (direntAt s p slot).ino = ino).map fun slot => (direntAt s p slot).name

/-- Directories of the volume, in memory or only on the disk. -/
structure Directories (v : Vfs) (D : Set Nat) : Prop where
  maps : BlockMaps (wholeTree v) D
  dirs : ∀ k ∈ D, (nodeDin v k).type = .dir
  counts : ∀ k ∈ D, ∀ i, v.inodes (.sfs k) = some i → 0 < i.refCount
  onDisk : ∀ k ∈ D, v.inodes (.sfs k) = none → InUse v.sfs k ∧ (nodeDin v k).nlinks ≠ 0

/-- The names that lead from the root down to a directory: each `..` is the parent, and that of the root the root. -/
inductive PathTo (v : Vfs) (D : Set Nat) : Nat → List Name → Prop where
  | root (mem : SFS_BLKN_ROOT ∈ D) (up : findEntry (wholeTree v) SFS_BLKN_ROOT dotDot = some SFS_BLKN_ROOT) :
      PathTo v D SFS_BLKN_ROOT []
  | child {p k : Nat} {names : List Name} {name : Name} (parent : PathTo v D p names) (mem : k ∈ D) (other : k ≠ p)
      (up : findEntry (wholeTree v) k dotDot = some p) (named : entryName (wholeTree v) p k = some name) :
      PathTo v D k (names ++ [name])

theorem PathTo.mem {v : Vfs} {D : Set Nat} {k : Nat} {names : List Name} (under : PathTo v D k names) : k ∈ D := by
  cases under with
  | root mem _ => exact mem
  | child _ mem _ _ _ => exact mem

/-- Each name with a slash behind it. -/
def slashed (names : List Name) : List UInt8 := names.flatMap fun name => name ++ [47]

/- What is in memory of an inode with these references beyond those of `v`. -/
def heldInode (v : Vfs) (held : Multiset Node) (n : Node) : Option Inode :=
  match v.inodes n with
  | some i => some { i with refCount := i.refCount + held.count n }
  | none => if held.count n = 0 then none else some ⟨held.count n, 0, .sfsNodeDirops, 1⟩

/-- References beyond those of `v`, to directories some of which only they keep in memory. -/
structure Holding (v : Vfs) (held : Multiset Node) (t : Vfs) : Prop where
  sfs : t.sfs = { v.sfs with inodes := t.sfs.inodes }
  memory : ∀ j, t.memory j = true
  inodes : ∀ n, t.inodes n = heldInode v held n
  kept : ∀ k, v.inodes (.sfs k) ≠ none → t.sfs.inodes k = v.sfs.inodes k
  loaded : ∀ k, v.inodes (.sfs k) = none → held.count (.sfs k) ≠ 0 → t.sfs.inodes k = ⟨nodeDin v k, false⟩

section SameDir
variable {s : Sfs} {inodes : Nat → SfsInode} {D : Set Nat} {k : Nat}

theorem same_din_pointer (din : (inodes k).din = (s.inodes k).din) : pointer { s with inodes } k = pointer s k := by
  funext a
  cases a with
  | data i =>
    unfold pointer
    dsimp only
    rw [din]
    rfl
  | entries => exact congrArg SfsDiskInode.indirect din

theorem same_din_dirent (din : (inodes k).din = (s.inodes k).din) : direntAt { s with inodes } k = direntAt s k := by
  funext slot
  unfold direntAt
  rw [same_din_pointer din]

theorem same_din_entry (din : (inodes k).din = (s.inodes k).din) (name : Name) :
    findEntry { s with inodes } k name = findEntry s k name := by
  unfold findEntry isEntry
  rw [same_din_dirent din]
  dsimp only
  rw [din]

theorem same_din_name (din : (inodes k).din = (s.inodes k).din) (ino : Nat) :
    entryName { s with inodes } k ino = entryName s k ino := by
  unfold entryName
  rw [same_din_dirent din]
  dsimp only
  rw [din]

theorem same_din_maps (maps : BlockMaps s D) (mem : k ∈ D) (din : (inodes k).din = (s.inodes k).din) :
    BlockMaps { s with inodes } {k} := by
  have volume := maps.volume
  have map := maps.map k mem
  have same := same_din_pointer din
  refine ⟨⟨volume.device, volume.addressable, volume.words, volume.covered, volume.free, volume.counted⟩, ?_, ?_⟩
  · rintro g rfl
    constructor
    · exact din ▸ map.bounded
    · intro i below
      rw [same]
      exact map.below i (din ▸ below)
    · intro i high
      rw [same]
      exact map.above i (din ▸ high)
    · intro some
      have entries := map.entries (din ▸ some)
      dsimp only
      rw [din]
      exact entries
  · rintro f rfl g rfl a b va vb nonzero equal
    rw [same] at nonzero equal
    exact maps.unshared _ mem _ mem a b va vb nonzero equal

end SameDir

section Holding
variable {v t : Vfs} {D : Set Nat} {held : Multiset Node} {n : Node} {k p : Nat} {name : Name}

theorem held_nothing (memory : ∀ j, v.memory j = true) : Holding v 0 v := by
  refine ⟨rfl, memory, fun n => ?_, fun _ _ => rfl, fun k _ some => absurd (Multiset.count_zero _) some⟩
  unfold heldInode
  cases here : v.inodes n with
  | none => simp
  | some i => simp

theorem held_counts (here : Holding v 0 t) (n : Node) : t.inodes n = v.inodes n := by
  rw [here.inodes]
  unfold heldInode
  cases present : v.inodes n with
  | none => simp
  | some i => simp

theorem held_kmalloc (here : Holding v held t) : ∃ t', kmalloc t = .ok (true, t') ∧ Holding v held t' ∧ t'.sfs = t.sfs := by
  refine ⟨{ t with memory := fun i => t.memory (i + 1) }, ?_,
    ⟨here.sfs, fun j => here.memory (j + 1), here.inodes, here.kept, here.loaded⟩, rfl⟩
  rw [← here.memory 0]
  rfl

theorem held_with_inode {held' : Multiset Node} (here : Holding v held t) (others : ∀ m, m ≠ n → held'.count m = held.count m)
    (loaded : v.inodes n = none → held'.count n ≠ 0 → held.count n ≠ 0) :
    Holding v held' (t.withInode n (heldInode v held' n)) := by
  refine ⟨here.sfs, here.memory, fun m => ?_, here.kept, fun k absent counted => ?_⟩
  · by_cases same : m = n
    · subst m
      exact with_inode_self
    · rw [with_inode_other same, here.inodes m]
      unfold heldInode
      rw [others m same]
  · by_cases same : Node.sfs k = n
    · subst n
      exact here.loaded k absent (loaded absent counted)
    · exact here.loaded k absent (others _ same ▸ counted)

theorem held_one_more {i : Inode} (value : heldInode v held n = some i) :
    heldInode v (n ::ₘ held) n = some { i with refCount := i.refCount + 1 } := by
  unfold heldInode at value ⊢
  rw [Multiset.count_cons_self]
  cases known : v.inodes n with
  | some j =>
    rw [known] at value
    cases value
    rfl
  | none =>
    rw [known] at value
    dsimp only at value ⊢
    split_ifs at value
    cases value
    rfl

theorem held_positive {i : Inode} (counts : ∀ i, v.inodes n = some i → 0 < i.refCount) (value : heldInode v held n = some i) :
    0 < i.refCount := by
  unfold heldInode at value
  cases known : v.inodes n with
  | some j =>
    rw [known] at value
    cases value
    have := counts j known
    dsimp only
    omega
  | none =>
    rw [known] at value
    dsimp only at value
    split_ifs at value with counted
    cases value
    exact Nat.pos_of_ne_zero counted

theorem held_member (mem : n ∈ held) : ∃ i, heldInode v held n = some i := by
  have counted : held.count n ≠ 0 := Multiset.count_ne_zero.mpr mem
  unfold heldInode
  cases v.inodes n with
  | some j => exact ⟨_, rfl⟩
  | none => exact ⟨_, if_neg counted⟩

/- An inode in memory gets one reference more. -/
theorem held_inc {i : Inode} (here : Holding v held t) (value : heldInode v held n = some i) :
    ∃ t', inodeRefInc n t = .ok (i.refCount + 1, t') ∧ Holding v (n ::ₘ held) t' := by
  refine ⟨t.withInode n (heldInode v (n ::ₘ held) n), ?_, held_with_inode here (fun m ne => Multiset.count_cons_of_ne ne held) ?_⟩
  · unfold inodeRefInc
    rw [run_bind (inode_of_run ((here.inodes n).trans value)), held_one_more value]
    rfl
  · intro absent _ none
    unfold heldInode at value
    rw [absent] at value
    simp [none] at value

/- The inode in memory, or on the disk. -/
theorem held_din (here : Holding v held t) (mem : Node.sfs k ∈ held) : (t.sfs.inodes k).din = nodeDin v k := by
  cases known : v.inodes (.sfs k) with
  | none => rw [here.loaded k known (Multiset.count_ne_zero.mpr mem)]
  | some i =>
    rw [here.kept k (by simp [known])]
    unfold nodeDin
    rw [known]

theorem held_linked (here : Holding v held t) (mem : Node.sfs k ∈ held) :
    t.sfs = { wholeTree v with inodes := t.sfs.inodes } ∧ (t.sfs.inodes k).din = ((wholeTree v).inodes k).din :=
  ⟨here.sfs, held_din here mem⟩

theorem held_maps (dirs : Directories v D) (here : Holding v held t) (mem : k ∈ D) (held_k : Node.sfs k ∈ held) :
    BlockMaps t.sfs {k} := by
  obtain ⟨same, din⟩ := held_linked here held_k
  rw [same]
  exact same_din_maps dirs.maps mem din

theorem held_volume (dirs : Directories v D) (here : Holding v held t) : Volume t.sfs := by
  have volume := dirs.maps.volume
  rw [here.sfs]
  exact ⟨volume.device, volume.addressable, volume.words, volume.covered, volume.free, volume.counted⟩

/- The state once an inode has been read from the disk. -/
theorem held_adopt (here : Holding v held t) (absent : v.inodes (.sfs k) = none) :
    Holding v (.sfs k ::ₘ held)
      ({ t with sfs := { t.sfs with inodes := (Function.update t.sfs.inodes k ⟨nodeDin v k, false⟩) } }.withInode (.sfs k)
        (heldInode v (.sfs k ::ₘ held) (.sfs k))) := by
  refine ⟨?_, here.memory, fun m => ?_, fun g present => ?_, fun g none counted => ?_⟩
  · change ({ t.sfs with inodes := _ } : Sfs) = _
    rw [here.sfs]
    rfl
  · by_cases same : m = .sfs k
    · subst m
      exact with_inode_self
    · rw [with_inode_other same]
      refine (here.inodes m).trans ?_
      unfold heldInode
      rw [Multiset.count_cons_of_ne same]
  · have ne : g ≠ k := by
      rintro rfl
      exact present absent
    exact (Function.update_of_ne ne _ _).trans (here.kept g present)
  · by_cases same : g = k
    · subst g
      exact Function.update_self _ _ _
    · refine (Function.update_of_ne same _ _).trans (here.loaded g none ?_)
      rwa [Multiset.count_cons_of_ne (by simpa using same)] at counted

theorem held_read (dirs : Directories v D) (here : Holding v held t) (mem : k ∈ D) (absent : v.inodes (.sfs k) = none)
    (apart : held.count (.sfs k) = 0) : ∃ t', sfsReadInode k t = .ok (.ok (.sfs k), t') ∧ Holding v (.sfs k ::ₘ held) t' := by
  obtain ⟨inuse, linked⟩ := dirs.onDisk k mem absent
  have dir := dirs.dirs k mem
  obtain ⟨t₁, first, here₁, _⟩ := held_kmalloc here
  obtain ⟨t₂, second, here₂, _⟩ := held_kmalloc here₁
  have volume := held_volume dirs here₁
  have used : InUse t₁.sfs k := by
    rw [here₁.sfs]
    exact inuse
  have din : nodeDin v k = bytesDiskInode (v.sfs.disk k) := by
    unfold nodeDin
    rw [absent]
  have whole : (fun i => t₁.sfs.disk k (0 + i)) = v.sfs.disk k := by
    funext i
    rw [Nat.zero_add, here₁.sfs]
  have read : onSfs (sfsRbuf sizeofDiskInode k 0) t₁ = .ok (.ok (v.sfs.disk k), t₁) := by
    refine on_sfs_same ?_
    rw [rbuf_run volume used.1 used.2.1 (by decide) (by decide), whole]
  have value : heldInode v (.sfs k ::ₘ held) (.sfs k) = some ⟨1, 0, .sfsNodeDirops, 1⟩ := by
    unfold heldInode
    rw [absent, Multiset.count_cons_self, apart]
    rfl
  have adopted := held_adopt here₂ absent
  rw [din] at linked dir
  rw [value, din] at adopted
  refine ⟨_, ?_, adopted⟩
  unfold sfsReadInode
  rw [run_bind first, if_neg (by simp), run_bind (on_sfs_same (assert_inuse_run volume used)), run_bind read]
  dsimp only
  rw [run_check_bind linked, run_bind second, if_neg (by simp), dir]
  rfl

theorem held_load (dirs : Directories v D) (here : Holding v held t) (mem : k ∈ D) :
    ∃ t', sfsLoadInode k t = .ok (.ok (.sfs k), t') ∧ Holding v (.sfs k ::ₘ held) t' := by
  unfold sfsLoadInode
  cases value : heldInode v held (.sfs k) with
  | some i =>
    have counted := held_positive (dirs.counts k mem) value
    obtain ⟨t', inc, here'⟩ := held_inc here value
    refine ⟨t', ?_, here'⟩
    rw [run_get_bind, here.inodes, value]
    dsimp only
    unfold lookupSfsNolock
    rw [run_bind (show (do
        let refCount ← inodeRefInc (.sfs k)
        if refCount = 1 then
          let i ← inodeOf (.sfs k)
          setInode (.sfs k) (some { i with reclaimCount := i.reclaimCount + 1 })) t = .ok ((), t') by
      rw [run_bind inc, if_neg (by omega)]
      rfl)]
    rfl
  | none =>
    rw [run_get_bind, here.inodes, value]
    unfold heldInode at value
    cases absent : v.inodes (.sfs k) with
    | some i => simp [absent] at value
    | none =>
      rw [absent] at value
      dsimp only at value
      split_ifs at value with apart
      exact held_read dirs here mem absent apart

/- A reference goes, and with the last one what was read. -/
theorem held_dec (dirs : Directories v D) (here : Holding v (.sfs k ::ₘ held) t) (mem : k ∈ D) :
    ∃ c t', inodeRefDec (.sfs k) t = .ok (c, t') ∧ Holding v held t' := by
  obtain ⟨i, value⟩ := @held_member v _ _ (Multiset.mem_cons_self (Node.sfs k) held)
  have counted := held_positive (dirs.counts k mem) value
  have present : t.inodes (.sfs k) = some i := (here.inodes _).trans value
  have next : Holding v held (t.withInode (.sfs k) (heldInode v held (.sfs k))) :=
    held_with_inode here (fun m ne => (Multiset.count_cons_of_ne ne held).symm) fun _ _ => by simp
  cases rest : heldInode v held (.sfs k) with
  | some j =>
    have positive := held_positive (dirs.counts k mem) rest
    obtain rfl := Option.some.inj (value.symm.trans (held_one_more rest))
    have dec := not_last_run present counted (by dsimp only; omega)
    dsimp only at dec
    rw [Nat.add_sub_cancel] at dec
    rw [rest] at next
    exact ⟨_, _, dec, next⟩
  | none =>
    rw [rest] at next
    unfold heldInode at value rest
    cases absent : v.inodes (.sfs k) with
    | some j => simp [absent] at rest
    | none =>
      rw [absent] at value rest
      dsimp only at value rest
      split_ifs at rest with apart
      rw [Multiset.count_cons_self, apart, if_neg (by decide)] at value
      cases value
      have clean := here.loaded k absent (by simp)
      have linked := (dirs.onDisk k mem absent).2
      exact ⟨_, _, reclaim_clean_run present Nat.zero_lt_one (by decide) (by rw [clean]; exact linked) (by rw [clean]), next⟩

end Holding

section Climb
variable {v t : Vfs} {D : Set Nat} {held : Multiset Node} {k p : Nat} {name : Name}

theorem lookup_parent_run (dirs : Directories v D) (here : Holding v (.sfs k ::ₘ held) t) (mem : k ∈ D) (parent : p ∈ D)
    (up : findEntry (wholeTree v) k dotDot = some p) :
    ∃ t', sfsLookupOnce k dotDot t = .ok (.ok (.sfs p), t') ∧ Holding v (.sfs p ::ₘ .sfs k ::ₘ held) t' := by
  obtain ⟨t₁, first, here₁, _⟩ := held_kmalloc here
  have held_k : Node.sfs k ∈ (.sfs k ::ₘ held : Multiset Node) := Multiset.mem_cons_self _ _
  have maps := held_maps dirs here₁ mem held_k
  obtain ⟨linked, din⟩ := held_linked here₁ held_k
  have dir : (t₁.sfs.inodes k).din.type = .dir := by
    rw [din]
    exact dirs.dirs k mem
  obtain ⟨found, scanned, outcome⟩ := @dirent_scan_run _ _ k 0 dotDot maps rfl dir (t₁.sfs.inodes k).din.blocks (Nat.zero_add _).le
  have same : findEntry t₁.sfs k dotDot = some p := by
    rw [linked, same_din_entry din, up]
  unfold findEntry at same
  rw [List.range_eq_range'] at same
  obtain ⟨slot, searched, ino⟩ := Option.map_eq_some_iff.mp same
  rw [searched] at outcome
  obtain rfl := outcome
  obtain ⟨t₂, loaded, here₂⟩ := held_load dirs here₁ parent
  refine ⟨t₂, ?_, here₂⟩
  have search : sfsDirentSearchNolock k dotDot t = .ok (.ok ((direntAt t₁.sfs k slot).ino, slot), t₁) := by
    unfold sfsDirentSearchNolock
    rw [run_check_bind (by decide), run_bind first, if_neg (by simp),
      run_bind (show onSfs (sfsInode k) t₁ = .ok (t₁.sfs.inodes k, t₁) from rfl)]
    exact on_sfs_same scanned
  unfold sfsLookupOnce
  rw [run_bind search, ino]
  exact loaded

theorem findino_scan_run {s : Sfs} {ino : Nat} (maps : BlockMaps s D) (mem : p ∈ D) (dir : (s.inodes p).din.type = .dir)
    (count : Nat) {slot : Nat} (below : slot + count ≤ (s.inodes p).din.blocks) :
    ∃ r, sfsDirentFindino p ino count slot s = .ok (r, s) ∧
      match (List.range' slot count).find? (fun i => (direntAt s p i).ino = ino) with
      | some i => r = .ok (direntAt s p i)
      | none => r = .error (-E_NOENT) := by
  induction count generalizing slot with
  | zero => exact ⟨_, rfl, rfl⟩
  | succ count ih =>
    unfold sfsDirentFindino
    rw [run_bind (dirent_read_run maps mem dir (by omega)), List.range'_succ]
    dsimp only
    by_cases here : (direntAt s p slot).ino = ino
    · rw [if_pos here, List.find?_cons_of_pos (by simpa using here)]
      exact ⟨_, rfl, rfl⟩
    · rw [if_neg here, List.find?_cons_of_neg (by simpa using here)]
      exact ih (by omega)

theorem findino_run {ino : Nat} (dirs : Directories v D) (here : Holding v (.sfs p ::ₘ held) t) (mem : p ∈ D)
    (named : entryName (wholeTree v) p ino = some name) :
    ∃ entry, entry.name = name ∧ onSfs (sfsDirentFindinoNolock p ino) t = .ok (.ok entry, t) := by
  have held_p : Node.sfs p ∈ (.sfs p ::ₘ held : Multiset Node) := Multiset.mem_cons_self _ _
  have maps := held_maps dirs here mem held_p
  obtain ⟨linked, din⟩ := held_linked here held_p
  have dir : (t.sfs.inodes p).din.type = .dir := by
    rw [din]
    exact dirs.dirs p mem
  obtain ⟨r, scanned, outcome⟩ := @findino_scan_run _ p _ ino maps rfl dir (t.sfs.inodes p).din.blocks 0 (Nat.zero_add _).le
  have same : entryName t.sfs p ino = some name := by
    rw [linked, same_din_name din, named]
  unfold entryName at same
  rw [List.range_eq_range'] at same
  obtain ⟨slot, found, called⟩ := Option.map_eq_some_iff.mp same
  rw [found] at outcome
  obtain rfl := outcome
  refine ⟨_, called, on_sfs_same ?_⟩
  unfold sfsDirentFindinoNolock
  rw [run_bind inode_run]
  exact scanned

/-- What the loop answers and has written below `ptr`, from a directory under these names. -/
inductive Climbed (names : List Name) (ptr resid : Nat) (mem : KernelMemory) : Except Int (Nat × Nat) → KernelMemory → Prop where
  | fits (room : (slashed names).length ≤ resid) : Climbed names ptr resid mem
      (.ok (ptr - (slashed names).length, resid - (slashed names).length)) (put mem (ptr - (slashed names).length) (slashed names))
  | full {mem' : KernelMemory} (short : resid < (slashed names).length)
      (outside : ∀ a, a < ptr - resid ∨ ptr ≤ a → mem' a = mem a) : Climbed names ptr resid mem (.error (-E_NO_MEM)) mem'

theorem slashed_append (names : List Name) (name : Name) : slashed (names ++ [name]) = slashed names ++ (name ++ [47]) := by
  simp [slashed]

theorem slashed_child (names : List Name) (name : Name) :
    (slashed (names ++ [name])).length = (slashed names).length + (name.length + 1) := by
  rw [slashed_append, List.length_append, List.length_append]
  rfl

theorem slashed_length (names : List Name) : (slashed names).length = (names.map fun name => name.length + 1).sum := by
  induction names with
  | nil => rfl
  | cons name rest ih =>
    have split : slashed (name :: rest) = name ++ [47] ++ slashed rest := by simp [slashed]
    rw [split, List.length_append, ih]
    simp

/- A name and its slash. -/
theorem put_slash {mem : KernelMemory} {ptr : Nat} :
    Function.update (put mem ptr name) (ptr + name.length) (some 47) = put mem ptr (name ++ [47]) := by
  rw [← put_append]
  funext a
  by_cases here : a = ptr + name.length
  · subst a
    rw [Function.update_self]
    simp [put]
  · rw [Function.update_of_ne here]
    refine (put_outside ?_).symm
    rw [List.length_singleton]
    omega

theorem climbed_root {ptr resid : Nat} {mem : KernelMemory} : Climbed [] ptr resid mem (.ok (ptr, resid)) mem := by
  have here : Climbed [] ptr resid mem (.ok (ptr, resid)) (put mem ptr []) := .fits (Nat.zero_le _)
  rwa [put_nil] at here

/- The names further up are written below the name of a directory. -/
theorem climbed_child {names : List Name} {ptr resid : Nat} {mem mem' : KernelMemory} {r : Except Int (Nat × Nat)}
    (room : name.length + 1 ≤ resid) (inside : resid ≤ ptr)
    (above : Climbed names (ptr - (name.length + 1)) (resid - (name.length + 1))
      (put mem (ptr - (name.length + 1)) (name ++ [47])) r mem') :
    Climbed (names ++ [name]) ptr resid mem r mem' := by
  have whole := slashed_child names name
  cases above with
  | fits more =>
    have all : Climbed (names ++ [name]) ptr resid mem _ _ := .fits (by omega)
    have start : ptr - (slashed (names ++ [name])).length + (slashed names).length = ptr - (name.length + 1) := by omega
    have written : put mem (ptr - (slashed (names ++ [name])).length) (slashed (names ++ [name])) =
        put (put mem (ptr - (name.length + 1)) (name ++ [47])) (ptr - (slashed (names ++ [name])).length) (slashed names) := by
      rw [← put_comm start.le, ← start, put_append, ← slashed_append]
    rw [written] at all
    rw [show ptr - (name.length + 1) - (slashed names).length = ptr - (slashed (names ++ [name])).length by omega,
      show resid - (name.length + 1) - (slashed names).length = resid - (slashed (names ++ [name])).length by omega]
    exact all
  | full short outside =>
    refine .full (by omega) fun a apart => ?_
    have later : (name ++ [47]).length = name.length + 1 := List.length_append
    rw [outside a (by omega), put_outside (by omega)]

/- The round at the root gives both references back. -/
theorem climb_root_run (dirs : Directories v D) (mem : k ∈ D) (up : findEntry (wholeTree v) k dotDot = some k)
    (here : Holding v (.sfs k ::ₘ 0) t) : ∃ w, Holding v 0 w ∧ ∀ (fuel ptr resid : Nat) (bytes : KernelMemory),
      sfsNamefileLoop (fuel + 1) (.sfs k) ptr resid bytes t = .ok (some (.ok (ptr, resid), bytes), w) := by
  obtain ⟨t₁, looked, here₁⟩ := lookup_parent_run dirs here mem mem up
  obtain ⟨c, t₂, first, here₂⟩ := held_dec dirs here₁ mem
  obtain ⟨c', w, second, here₃⟩ := held_dec dirs here₂ mem
  refine ⟨w, here₃, fun fuel ptr resid bytes => ?_⟩
  unfold sfsNamefileLoop
  rw [run_bind (show sfsInfo (.sfs k) t = .ok (k, t) from rfl), run_bind looked]
  dsimp only
  rw [run_bind first, if_pos rfl, run_bind second]
  rfl

/- A round below the root goes to the parent, and finds the name there. -/
theorem climb_step_run (dirs : Directories v D) (mem : k ∈ D) (parent : p ∈ D) (other : k ≠ p)
    (up : findEntry (wholeTree v) k dotDot = some p) (named : entryName (wholeTree v) p k = some name)
    (here : Holding v (.sfs k ::ₘ 0) t) : ∃ w, Holding v (.sfs p ::ₘ 0) w ∧ ∀ (fuel ptr resid : Nat) (bytes : KernelMemory),
      sfsNamefileLoop (fuel + 1) (.sfs k) ptr resid bytes t =
        (if name.length + 1 > resid then sfsNamefileFailed (.sfs p) (-E_NO_MEM) bytes
        else sfsNamefileLoop fuel (.sfs p) (ptr - (name.length + 1)) (resid - (name.length + 1))
          (put bytes (ptr - (name.length + 1)) (name ++ [47]))) w := by
  obtain ⟨t₁, looked, here₁⟩ := lookup_parent_run dirs here mem parent up
  rw [Multiset.cons_swap] at here₁
  obtain ⟨c, w, dec, here₂⟩ := held_dec dirs here₁ mem
  obtain ⟨entry, called, found⟩ := findino_run dirs here₂ parent named
  have dir : (w.sfs.inodes p).din.type = .dir := by
    rw [held_din here₂ (Multiset.mem_cons_self (Node.sfs p) 0)]
    exact dirs.dirs p parent
  have apart : ¬ Node.sfs k = .sfs p := fun same => other (Node.sfs.inj same)
  refine ⟨w, here₂, fun fuel ptr resid bytes => ?_⟩
  rw [sfsNamefileLoop, run_bind (show sfsInfo (.sfs k) t = .ok (k, t) from rfl), run_bind looked]
  dsimp only
  rw [run_bind dec, if_neg apart, run_bind (show sfsInfo (.sfs p) w = .ok (p, w) from rfl),
    run_bind (show onSfs (sfsInode p) w = .ok (w.sfs.inodes p, w) from rfl), run_check_bind ⟨other, dir⟩, run_bind found]
  dsimp only
  rw [called, Nat.add_sub_cancel, put_slash]

/- By induction on the tree: the loop holds the directory it is in, and nothing else. -/
theorem namefile_loop_run {names : List Name} (dirs : Directories v D) (under : PathTo v D k names) :
    ∀ {t : Vfs} {fuel ptr resid : Nat} {mem : KernelMemory}, Holding v (.sfs k ::ₘ 0) t → names.length < fuel → resid ≤ ptr →
      ∃ r mem' w, sfsNamefileLoop fuel (.sfs k) ptr resid mem t = .ok (some (r, mem'), w) ∧ Holding v 0 w ∧
        Climbed names ptr resid mem r mem' := by
  induction under with
  | root mem up =>
    intro t fuel ptr resid bytes here enough inside
    obtain ⟨fuel, rfl⟩ : ∃ m, fuel = m + 1 := Nat.exists_eq_add_one.mpr (Nat.zero_lt_of_lt enough)
    obtain ⟨w, held, ends⟩ := climb_root_run dirs mem up here
    exact ⟨_, _, w, ends fuel ptr resid bytes, held, climbed_root⟩
  | @child p k names name parent mem other up named ih =>
    intro t fuel ptr resid bytes here enough inside
    obtain ⟨fuel, rfl⟩ : ∃ m, fuel = m + 1 := Nat.exists_eq_add_one.mpr (Nat.zero_lt_of_lt enough)
    obtain ⟨t₁, here₁, goes⟩ := climb_step_run dirs mem parent.mem other up named here
    rw [goes]
    by_cases short : name.length + 1 > resid
    · obtain ⟨c, w, failed, held⟩ := held_dec dirs here₁ parent.mem
      refine ⟨_, _, w, ?_, held, .full ?_ fun _ _ => rfl⟩
      · rw [if_pos short]
        unfold sfsNamefileFailed
        rw [run_bind failed]
        rfl
      · have whole := slashed_child names name
        omega
    · rw [List.length_append, List.length_singleton] at enough
      obtain ⟨r, mem', w, ran, held, climbed⟩ := @ih t₁ fuel (ptr - (name.length + 1)) (resid - (name.length + 1))
        (put bytes (ptr - (name.length + 1)) (name ++ [47])) here₁ (by omega) (by omega)
      rw [if_neg short]
      exact ⟨r, mem', w, ran, held, climbed_child (by omega) inside climbed⟩

/- The path has been moved behind the first slash. -/
theorem path_in_place {names : List Name} {base ptr resid : Nat} {mem : KernelMemory} (start : ptr = base + resid)
    (room : (slashed names).length + 2 ≤ resid) :
    let placed := memmove (base + 1) (ptr - (slashed names).length) (slashed names).length
      (put mem (ptr - (slashed names).length) (slashed names))
    let mem' := Function.update (Function.update placed base (some 47)) (base + 1 + (slashed names).length) (some 0)
    Has mem' base ([47] ++ slashed names ++ [0]) ∧ ∀ a, a < base ∨ base + resid ≤ a → mem' a = mem a := by
  dsimp only
  rw [memmove_moves, moved_put put_has]
  constructor
  · intro j inside
    rw [List.length_append, List.length_append, List.length_singleton, List.length_singleton] at inside
    have front : ([47] ++ slashed names).length = 1 + (slashed names).length := List.length_append
    by_cases last : j = 1 + (slashed names).length
    · subst j
      rw [← Nat.add_assoc, Function.update_self, List.getElem?_append_right front.le, front, Nat.sub_self]
      rfl
    · rw [Function.update_of_ne (by omega), List.getElem?_append_left (by omega)]
      by_cases first : j = 0
      · subst j
        exact Function.update_self _ _ _
      · have behind : [(47 : UInt8)].length ≤ j := by
          rw [List.length_singleton]
          omega
        have written := @put_has _ (put mem (ptr - (slashed names).length) (slashed names)) (base + 1) (slashed names) (j - 1)
          (by omega)
        rw [Function.update_of_ne (by omega), List.getElem?_append_right behind, List.length_singleton, ← written]
        congr 1
        omega
  · intro a outside
    rw [Function.update_of_ne (by omega), Function.update_of_ne (by omega), put_outside (by omega), put_outside (by omega)]

theorem no_memory_error : -E_NO_MEM ≠ 0 := by decide

/-- The path is built where it fits, every inode keeps its references, and nothing is written beside the buffer. -/
theorem namefile_right {names : List Name} {fuel : Nat} {i : Inode} (dirs : Directories v D) (under : PathTo v D k names)
    (here : v.inodes (.sfs k) = some i) (memory : ∀ j, v.memory j = true) (enough : names.length < fuel) (iob : Iobuf)
    (mem : KernelMemory) : ∃ ret iob' mem' w, sfsNamefile fuel (.sfs k) iob mem v = .ok (some (ret, iob', mem'), w) ∧
      (ret = 0 ∨ ret = -E_NO_MEM) ∧
      (ret = 0 ↔ 2 < iob.ioResid ∧ (names.map fun name => name.length + 1).sum ≤ iob.ioResid - 2) ∧
      (ret = 0 → Has mem' iob.ioBase ([47] ++ slashed names ++ [0])) ∧
      (∀ a, a < iob.ioBase ∨ iob.ioBase + iob.ioResid ≤ a → mem' a = mem a) ∧
      ∀ n, refCountOf w n = refCountOf v n := by
  unfold sfsNamefile
  by_cases small : iob.ioResid ≤ 2
  · rw [if_pos small]
    exact ⟨_, _, _, v, rfl, .inr rfl, ⟨fun zero => absurd zero no_memory_error, fun large => absurd large.1 (by omega)⟩,
      fun zero => absurd zero no_memory_error, fun _ _ => rfl, fun _ => rfl⟩
  have start := held_nothing memory
  obtain ⟨t₁, first, here₁, _⟩ := held_kmalloc start
  have value : heldInode v 0 (.sfs k) = some i := (start.inodes _).symm.trans here
  obtain ⟨t₂, inc, here₂⟩ := held_inc here₁ value
  obtain ⟨r, written, w, ran, held, climbed⟩ := @namefile_loop_run _ _ _ names dirs under t₂ fuel (iob.ioBase + iob.ioResid)
    (iob.ioResid - 2) mem here₂ enough (by omega)
  have counts : ∀ n, refCountOf w n = refCountOf v n := by
    intro n
    unfold refCountOf
    rw [held_counts held]
  have total := slashed_length names
  rw [if_neg small, run_bind first, if_neg (by simp), run_bind inc, run_bind ran]
  cases climbed with
  | full short outside =>
    refine ⟨_, _, _, w, rfl, .inr rfl, ⟨fun zero => absurd zero no_memory_error, fun fits => absurd fits.2 (by omega)⟩,
      fun zero => absurd zero no_memory_error, fun a beside => outside a (by omega), counts⟩
  | fits room =>
    have alen : iob.ioResid - (iob.ioResid - 2 - (slashed names).length) - 2 = (slashed names).length := by omega
    obtain ⟨path, beside⟩ := @path_in_place names iob.ioBase _ iob.ioResid mem rfl (by omega)
    dsimp only
    rw [alen]
    have skipped : iobufSkip iob (slashed names).length w = .ok (⟨iob.ioBase + (slashed names).length,
        iob.ioOffset + (slashed names).length, iob.ioResid - (slashed names).length⟩, w) := by
      unfold iobufSkip
      rw [run_check_bind (by omega)]
      rfl
    rw [run_bind skipped]
    exact ⟨0, _, _, w, rfl, .inl rfl, ⟨fun _ => ⟨by omega, by omega⟩, fun _ => rfl⟩, fun _ => path, beside, counts⟩

end Climb

def twoEntryDir (first second : Nat) : SfsDiskInode :=
  { size := 8192, type := .dir, nlinks := 1, blocks := 2, direct := fun i => if i = 0 then first else if i = 1 then second else 0,
    indirect := 0 }

/-- The root has its `..` and a directory `a` in block 4, and that its own `..`. -/
def linkedLevels : Sfs where
  blocks := 8
  unusedBlocks := 1
  superDirty := false
  freemap := { nbits := 32, nwords := 1, map := fun _ => 0x80 }
  dBlocks := 8
  disk := fun b =>
    if b = 1 then diskInodeBytes (twoEntryDir 2 3)
    else if b = 2 then diskEntryBytes ⟨1, dotDot⟩
    else if b = 3 then diskEntryBytes ⟨4, [97]⟩
    else if b = 4 then diskInodeBytes (oneEntryDir 5)
    else if b = 5 then diskEntryBytes ⟨1, dotDot⟩
    else fun _ => 0
  inodes := fun _ => { din := oneEntryDir 5, dirty := false }

/- Only the directory `a` is in memory. -/
def childOnly : Vfs where
  sfs := linkedLevels
  inodes := fun n => if n = .sfs 4 then some ⟨1, 0, .sfsNodeDirops, 1⟩ else none
  bootfs := some (.sfs 1)
  procs := {0}
  files := fun _ => ⟨some (.sfs 4), fun _ => ⟨.none, false, false, 0, none, 0⟩, 1⟩
  current := 0
  memory := fun _ => true
  keyboard := []

theorem child_only_root : nodeDin childOnly 1 = twoEntryDir 2 3 := by
  have direct : ∀ i, (twoEntryDir 2 3).direct i ≤ 3 ∧ (2 ≤ i → (twoEntryDir 2 3).direct i = 0) := by
    intro i
    unfold twoEntryDir
    dsimp only
    split_ifs <;> omega
  have read : bytesDiskInode (diskInodeBytes (twoEntryDir 2 3)) = twoEntryDir 2 3 :=
    disk_inode_of_bytes (by decide) (by decide) (by decide) (fun i => lt_of_le_of_lt (direct i).1 (by decide))
      (fun i high => (direct i).2 (le_trans (by decide) high)) (by decide) fun _ _ => rfl
  exact read

/- The three blocks of the two directories. -/
theorem linked_pointer {k : Nat} {a : Slot} (mem : k = 1 ∨ k = 4) (nonzero : pointer (wholeTree childOnly) k a ≠ 0) :
    (k = 1 ∧ a = .data 0 ∧ pointer (wholeTree childOnly) k a = 2) ∨ (k = 1 ∧ a = .data 1 ∧ pointer (wholeTree childOnly) k a = 3) ∨
      (k = 4 ∧ a = .data 0 ∧ pointer (wholeTree childOnly) k a = 5) := by
  have din : ∀ k, ((wholeTree childOnly).inodes k).din = nodeDin childOnly k := fun _ => rfl
  rcases mem with rfl | rfl
  · cases a with
    | data i =>
      unfold pointer at nonzero ⊢
      dsimp only at nonzero ⊢
      rw [din, child_only_root] at nonzero ⊢
      by_cases first : i = 0
      · subst i
        exact .inl ⟨rfl, rfl, rfl⟩
      · by_cases second : i = 1
        · subst i
          exact .inr (.inl ⟨rfl, rfl, rfl⟩)
        · simp [twoEntryDir, first, second] at nonzero
    | entries =>
      unfold pointer at nonzero
      dsimp only at nonzero
      rw [din, child_only_root] at nonzero
      exact absurd rfl nonzero
  · cases a with
    | data i =>
      by_cases first : i = 0
      · subst i
        exact .inr (.inr ⟨rfl, rfl, rfl⟩)
      · refine absurd ?_ nonzero
        change (if i < SFS_NDIRECT then if i = 0 then 5 else 0 else 0) = 0
        rw [if_neg first, ite_self]
    | entries => exact absurd rfl nonzero

theorem linked_maps : BlockMaps (wholeTree childOnly) {1, 4} := by
  have volume : Volume (wholeTree childOnly) := by constructor <;> decide
  have din : ((wholeTree childOnly).inodes 1).din = twoEntryDir 2 3 := child_only_root
  have null : ∀ k, k = 1 ∨ k = 4 → ∀ i, ((wholeTree childOnly).inodes k).din.blocks ≤ i →
      pointer (wholeTree childOnly) k (.data i) = 0 := by
    intro k mem i high
    by_contra nonzero
    rcases linked_pointer mem nonzero with ⟨rfl, same, _⟩ | ⟨rfl, same, _⟩ | ⟨rfl, same, _⟩
    · cases same
      rw [din] at high
      exact absurd high (by decide)
    · cases same
      rw [din] at high
      exact absurd high (by decide)
    · cases same
      exact absurd high (by decide)
  refine ⟨volume, ?_, ?_⟩
  · rintro k (rfl | rfl)
    · have first : pointer (wholeTree childOnly) 1 (.data 0) = 2 := by
        unfold pointer
        dsimp only
        rw [din]
        rfl
      have second : pointer (wholeTree childOnly) 1 (.data 1) = 3 := by
        unfold pointer
        dsimp only
        rw [din]
        rfl
      refine ⟨by rw [din]; decide, fun i below => ?_, fun i high _ => null 1 (.inl rfl) i high, fun some => ?_⟩
      · rw [din] at below
        have two : i < 2 := below
        obtain rfl | rfl : i = 0 ∨ i = 1 := by omega
        · rw [first]
          decide
        · rw [second]
          decide
      · rw [din] at some
        exact absurd rfl some
    · refine ⟨by decide, fun i below => ?_, fun i high _ => null 4 (.inr rfl) i high, fun some => absurd rfl some⟩
      have one : i < 1 := below
      obtain rfl : i = 0 := by omega
      change InUse (wholeTree childOnly) 5
      decide
  · intro f memf g memg a b _ _ nonzero same
    have other : pointer (wholeTree childOnly) g b ≠ 0 := same ▸ nonzero
    rcases linked_pointer memf nonzero with ⟨rfl, rfl, left⟩ | ⟨rfl, rfl, left⟩ | ⟨rfl, rfl, left⟩ <;>
      rcases linked_pointer memg other with ⟨rfl, rfl, right⟩ | ⟨rfl, rfl, right⟩ | ⟨rfl, rfl, right⟩ <;>
      first | exact ⟨rfl, rfl⟩ | omega

theorem linked_directories : Directories childOnly {1, 4} := by
  refine ⟨linked_maps, ?_, ?_, ?_⟩
  · rintro k (rfl | rfl)
    · rw [child_only_root]
      rfl
    · rfl
  · rintro k (rfl | rfl) i here
    · cases here
    · cases here
      decide
  · rintro k (rfl | rfl) absent
    · rw [child_only_root]
      exact ⟨by decide, by decide⟩
    · cases absent

theorem linked_under : PathTo childOnly {1, 4} 4 [[97]] :=
  .child (.root (.inl rfl) (by decide +kernel)) (.inr rfl) (by decide) (by decide +kernel) (by decide +kernel)

/- The root is read on the way, and the path is `/a/`. -/
theorem path_of_child : ∃ ret iob' mem' w, sfsNamefile 2 (.sfs 4) ⟨0, 0, 4⟩ (fun _ => none) childOnly = .ok (some (ret, iob', mem'), w) ∧
    ret = 0 ∧ Has mem' 0 [47, 97, 47, 0] := by
  obtain ⟨ret, iob', mem', w, ran, _, right, path, _⟩ := @namefile_right _ _ _ _ 2 _ linked_directories linked_under rfl (fun _ => rfl)
    (by decide) ⟨0, 0, 4⟩ fun _ => none
  have fits : ret = 0 := right.mpr (by decide)
  exact ⟨ret, iob', mem', w, ran, fits, path fits⟩

end Ucore
