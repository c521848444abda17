import Ucore.Fs.Sfs.BmapLoad
import Ucore.Fs.File
import Ucore.Fs.Sfs.SfsEntries

/- What a path names component by component, and what lookup makes of it. -/
namespace Ucore
open Programs

def deviceNode (name : Name) : Option Node :=
  if name = disk0Name then some (.sfs SFS_BLKN_ROOT)
  else if name = stdoutName then some (.dev .stdout)
  else if name = stdinName then some (.dev .stdin)
  else none

/-- The inode that a path starts from, and its components as they are written. -/
def startOf (v : Vfs) (path : Name) : Option (Node × Name) :=
  let pwd := (v.files v.current).pwd
  let front := path.takeWhile fun c => !isColon c && !isSlash c
  match path.drop front.length with
  | [] => pwd.map fun n => (n, path)
  | c :: rest =>
      let subpath := rest.dropWhile isSlash
      if front ≠ [] then
        if isColon c then (deviceNode front).map fun n => (n, subpath)
        else pwd.map fun n => (n, path)
      else if isSlash c then v.bootfs.map fun n => (n, subpath)
      else pwd.map fun _ => (.sfs SFS_BLKN_ROOT, subpath)

/- An inode that is not in memory is as it is on disk. -/
def nodeDin (v : Vfs) (k : Nat) : SfsDiskInode :=
  match v.inodes (.sfs k) with
  | some _ => (v.sfs.inodes k).din
  | none => bytesDiskInode (v.sfs.disk k)

def wholeTree (v : Vfs) : Sfs := { v.sfs with inodes := fun k => ⟨nodeDin v k, false⟩ }

/-- One component. A device has no entries. -/
def lookIn (v : Vfs) (n : Node) (name : Name) : Except Int Node :=
  match n with
  | .dev _ => .error (-E_NOENT)
  | .sfs k =>
      if (nodeDin v k).type ≠ .dir then .error (-E_NOTDIR)
      else
        match findEntry (wholeTree v) k name with
        | none => .error (-E_NOENT)
        | some ino => .ok (.sfs ino)

def walk (v : Vfs) (n : Node) (names : List Name) : Except Int Node := names.foldlM (lookIn v) n

def refCountOf (v : Vfs) (n : Node) : Nat := ((v.inodes n).map Inode.refCount).getD 0

/-- A directory tree on the volume, with the inodes of it that are in memory. -/
structure DirTree (v : Vfs) (D : Set Nat) : Prop where
  maps : BlockMaps v.sfs D
  dirs : ∀ k ∈ D, (v.sfs.inodes k).din.type = .dir ∧ ∃ i, v.inodes (.sfs k) = some i
  kinds : ∀ k i, v.inodes (.sfs k) = some i → sfsGetOps (v.sfs.inodes k).din.type = some i.inOps
  devs : ∀ d, ∃ i, v.inodes (.dev d) = some i ∧ i.inOps = .devNodeOps
  counts : ∀ n i, v.inodes n = some i → 0 < i.refCount ∧ i.openCount ≤ i.refCount ∧ i.refCount + 1 < MAX_INODE_COUNT
  boot : v.bootfs = some (.sfs SFS_BLKN_ROOT) ∧ SFS_BLKN_ROOT ∈ D
  pwd : ∀ n, (v.files v.current).pwd = some n → ∃ k ∈ D, n = .sfs k
  entries : ∀ k ∈ D, ∀ slot < (v.sfs.inodes k).din.blocks, (direntAt v.sfs k slot).ino ≠ 0 →
    47 ∉ (direntAt v.sfs k slot).name ∧ InUse v.sfs (direntAt v.sfs k slot).ino ∧
      (v.inodes (.sfs (direntAt v.sfs k slot).ino) = none →
        let din := bytesDiskInode (v.sfs.disk (direntAt v.sfs k slot).ino)
        din.nlinks ≠ 0 ∧ (din.type = .dir ∨ din.type = .file))

/-- A mounted volume with what is in memory of it. A link that is not in memory is as on disk. -/
structure VfsMounted (v : Vfs) (D : Set Nat) : Prop where
  maps : BlockMaps v.sfs D
  dirs : ∀ k ∈ D, (v.sfs.inodes k).din.type = .dir ∧ ∃ i, v.inodes (.sfs k) = some i
  kinds : ∀ k i, v.inodes (.sfs k) = some i → sfsGetOps (v.sfs.inodes k).din.type = some i.inOps
  devs : ∀ d, ∃ i, v.inodes (.dev d) = some i ∧ i.inOps = .devNodeOps
  counts : ∀ n i, v.inodes n = some i → 0 < i.refCount ∧ i.openCount ≤ i.refCount ∧ i.refCount + 1 < MAX_INODE_COUNT
  boot : v.bootfs = some (.sfs SFS_BLKN_ROOT) ∧ SFS_BLKN_ROOT ∈ D
  pwd : ∀ n, (v.files v.current).pwd = some n → ∃ k ∈ D, n = .sfs k
  entries : ∀ k ∈ D, ∀ slot < (v.sfs.inodes k).din.blocks, (direntAt v.sfs k slot).ino ≠ 0 →
    InUse v.sfs (direntAt v.sfs k slot).ino ∧ (v.inodes (.sfs (direntAt v.sfs k slot).ino) = none →
      (bytesDiskInode (v.sfs.disk (direntAt v.sfs k slot).ino)).nlinks ≠ 0)

theorem DirTree.mounted {v : Vfs} {D : Set Nat} (tree : DirTree v D) : VfsMounted v D where
  maps := tree.maps
  dirs := tree.dirs
  kinds := tree.kinds
  devs := tree.devs
  counts := tree.counts
  boot := tree.boot
  pwd := tree.pwd
  entries k mem slot below nonzero :=
    have entry := tree.entries k mem slot below nonzero
    ⟨entry.2.1, fun absent => (entry.2.2 absent).1⟩

/-- What is above the inodes is as before. -/
structure Frame (v t : Vfs) : Prop where
  bootfs : t.bootfs = v.bootfs
  procs : t.procs = v.procs
  files : t.files = v.files
  current : t.current = v.current

instance : IsPreorder Vfs Frame where
  refl _ := ⟨rfl, rfl, rfl, rfl⟩
  trans _ _ _ first second :=
    ⟨second.bootfs.trans first.bootfs, second.procs.trans first.procs,
      second.files.trans first.files, second.current.trans first.current⟩

def Vfs.withInode (v : Vfs) (n : Node) (i : Option Inode) : Vfs :=
  { v with inodes := Function.update v.inodes n i }

/-- Nothing but counts of references and the memory used so far: `held` are references beyond those of `v`. -/
structure More (v : Vfs) (held : Multiset Node) (used : Nat) (t : Vfs) : Prop where
  frame : Frame v t
  sfs : t.sfs = v.sfs
  memory : t.memory = fun i => v.memory (i + used)
  inodes : ∀ m, t.inodes m = (v.inodes m).map fun i => { i with refCount := i.refCount + held.count m }

section Counts
variable {v t : Vfs} {held : Multiset Node} {used : Nat} {n : Node} {i : Inode}

theorem with_inode_frame {i : Option Inode} : Frame v (v.withInode n i) := ⟨rfl, rfl, rfl, rfl⟩

theorem with_inode_self {i : Option Inode} : (v.withInode n i).inodes n = i := by
  simp [Vfs.withInode]

theorem with_inode_other {i : Option Inode} {m : Node} (ne : m ≠ n) :
    (v.withInode n i).inodes m = v.inodes m := by
  simp [Vfs.withInode, ne]

theorem more_refl : More v 0 0 v := ⟨refl_of Frame v, rfl, rfl, fun m => by simp⟩

theorem more_inode (more : More v held used t) (present : v.inodes n = some i) :
    inodeOf n t = .ok ({ i with refCount := i.refCount + held.count n }, t) := by
  have here := more.inodes n
  rw [present] at here
  unfold inodeOf
  rw [run_get_bind, here]
  rfl

theorem more_with_inode {held' : Multiset Node} (more : More v held used t) (present : v.inodes n = some i)
    (others : ∀ m, m ≠ n → held'.count m = held.count m) :
    More v held' used (t.withInode n (some { i with refCount := i.refCount + held'.count n })) := by
  refine ⟨trans_of Frame more.frame with_inode_frame, more.sfs, more.memory, fun m => ?_⟩
  by_cases same : m = n
  · subst m
    rw [with_inode_self, present]
    rfl
  · rw [with_inode_other same, more.inodes m, others m same]

theorem ref_inc_run (more : More v held used t) (present : v.inodes n = some i) :
    ∃ t', inodeRefInc n t = .ok (i.refCount + held.count n + 1, t') ∧ More v (n ::ₘ held) used t' := by
  refine ⟨_, ?_, @more_with_inode _ _ _ _ n _ (n ::ₘ held) more present fun m ne => Multiset.count_cons_of_ne ne held⟩
  unfold inodeRefInc
  rw [run_bind (more_inode more present), Multiset.count_cons_self, ← Nat.add_assoc]
  rfl

/- What `v` has of the inode stays, so that it is not reclaimed. -/
theorem ref_dec_run (more : More v (n ::ₘ held) used t) (present : v.inodes n = some i) (counted : 0 < i.refCount) :
    ∃ t', inodeRefDec n t = .ok (i.refCount + held.count n, t') ∧ More v held used t' := by
  refine ⟨_, ?_, @more_with_inode _ _ _ _ n _ held more present fun m ne => (Multiset.count_cons_of_ne ne held).symm⟩
  unfold inodeRefDec
  rw [run_bind (more_inode more present), Multiset.count_cons_self]
  dsimp only
  rw [run_check_bind (by omega), ← Nat.add_assoc, Nat.add_sub_cancel]
  rw [run_bind (show setInode n _ t = .ok ((), t.withInode n _) from rfl), if_neg (by omega)]
  rfl

theorem vop_op_run {op : Vop} (more : More v held used t) (present : v.inodes n = some i) (has : op ∈ i.inOps.ops)
    (opens : i.openCount ≤ i.refCount) (few : i.refCount + held.count n < MAX_INODE_COUNT) :
    vopOp n op t = .ok (i.inOps, t) := by
  unfold vopOp
  rw [run_bind (more_inode more present), run_check_bind has, run_check_bind (by dsimp only; omega),
    run_check_bind (by dsimp only; omega)]
  rfl

theorem kmalloc_run (more : More v held used t) :
    ∃ t', kmalloc t = .ok (v.memory used, t') ∧ More v held (used + 1) t' := by
  refine ⟨{ t with memory := fun i => t.memory (i + 1) }, ?_,
    ⟨more.frame.bootfs, more.frame.procs, more.frame.files, more.frame.current⟩, more.sfs, ?_, more.inodes⟩
  · have first := congrFun more.memory 0
    rw [Nat.zero_add] at first
    rw [← first]
    rfl
  · funext i
    rw [more.memory]
    change v.memory (i + 1 + used) = v.memory (i + (used + 1))
    rw [Nat.add_assoc, Nat.add_comm 1]

end Counts

section Start
variable {v t : Vfs} {D : Set Nat} {n : Node} {k : Nat} {path subpath : Name}

theorem tree_present (tree : VfsMounted v D) (mem : k ∈ D) : ∃ i, v.inodes (.sfs k) = some i ∧ 0 < i.refCount := by
  obtain ⟨_, i, present⟩ := tree.dirs k mem
  exact ⟨i, present, (tree.counts _ _ present).1⟩

theorem load_present_run {held : Multiset Node} {used : Nat} {i : Inode} (more : More v held used t)
    (present : v.inodes (.sfs k) = some i) (counted : 0 < i.refCount) :
    ∃ t', sfsLoadInode k t = .ok (.ok (.sfs k), t') ∧ More v (.sfs k ::ₘ held) used t' := by
  have here := more.inodes (.sfs k)
  rw [present] at here
  obtain ⟨t', inc, more'⟩ := ref_inc_run more present
  refine ⟨t', ?_, more'⟩
  unfold sfsLoadInode
  rw [run_get_bind, here]
  dsimp only [Option.map_some]
  unfold lookupSfsNolock
  rw [run_bind (show (do
      let refCount ← inodeRefInc (.sfs k)
      if refCount = 1 then
        let i ← inodeOf (.sfs k)
        setInode (.sfs k) (some { i with reclaimCount := i.reclaimCount + 1 })) t = .ok ((), t') by
    rw [run_bind inc, if_neg (by omega)]
    rfl)]
  rfl

theorem get_root_run (tree : VfsMounted v D) {held : Multiset Node} (more : More v held 0 t) :
    ∃ t', sfsGetRoot t = .ok (.sfs SFS_BLKN_ROOT, t') ∧ More v (.sfs SFS_BLKN_ROOT ::ₘ held) 0 t' := by
  obtain ⟨i, present, counted⟩ := tree_present tree tree.boot.2
  obtain ⟨t', loaded, more'⟩ := load_present_run more present counted
  refine ⟨t', ?_, more'⟩
  unfold sfsGetRoot
  rw [run_bind loaded]
  rfl

theorem get_vfs_root_run (tree : VfsMounted v D) {name : Name} (here : deviceNode name = some n) :
    ∃ t, vfsGetRoot name v = .ok (.ok n, t) ∧ More v {n} 0 t := by
  unfold vfsGetRoot
  unfold deviceNode at here
  split_ifs at here ⊢ with first second third
  · cases here
    obtain ⟨t, ran, more⟩ := get_root_run tree more_refl
    exact ⟨t, by rw [run_bind ran]; rfl, more⟩
  · cases here
    obtain ⟨i, present, _⟩ := tree.devs .stdout
    obtain ⟨t, ran, more⟩ := ref_inc_run more_refl present
    exact ⟨t, by rw [run_bind ran]; rfl, more⟩
  · cases here
    obtain ⟨i, present, _⟩ := tree.devs .stdin
    obtain ⟨t, ran, more⟩ := ref_inc_run more_refl present
    exact ⟨t, by rw [run_bind ran]; rfl, more⟩

theorem get_curdir_run (tree : VfsMounted v D) (here : (v.files v.current).pwd = some n) :
    ∃ t, vfsGetCurdir v = .ok (.ok n, t) ∧ More v {n} 0 t := by
  obtain ⟨k, mem, rfl⟩ := tree.pwd n here
  obtain ⟨i, present, _⟩ := tree_present tree mem
  obtain ⟨t, ran, more⟩ := ref_inc_run more_refl present
  refine ⟨t, ?_, more⟩
  unfold vfsGetCurdir
  rw [run_bind (show curFiles v = .ok (v.files v.current, v) from rfl), here]
  dsimp only
  rw [run_bind ran]
  rfl

theorem get_bootfs_run (tree : VfsMounted v D) : ∃ t, vfsGetBootfs v = .ok (.ok (.sfs SFS_BLKN_ROOT), t) ∧
    More v {.sfs SFS_BLKN_ROOT} 0 t := by
  obtain ⟨i, present, _⟩ := tree_present tree tree.boot.2
  obtain ⟨t, ran, more⟩ := ref_inc_run more_refl present
  refine ⟨t, ?_, more⟩
  unfold vfsGetBootfs
  rw [run_get_bind, tree.boot.1]
  dsimp only
  rw [run_bind ran]
  rfl

theorem get_cur_root_run (tree : VfsMounted v D) (here : (v.files v.current).pwd = some n) :
    ∃ t, vfsGetCurRoot v = .ok (.ok (.sfs SFS_BLKN_ROOT), t) ∧ More v {.sfs SFS_BLKN_ROOT} 0 t := by
  obtain ⟨t, curdir, more⟩ := get_curdir_run tree here
  obtain ⟨k, mem, rfl⟩ := tree.pwd n here
  obtain ⟨i, present, counted⟩ := tree_present tree mem
  obtain ⟨t', root, more'⟩ := get_root_run tree more
  have swapped : (.sfs SFS_BLKN_ROOT ::ₘ {.sfs k} : Multiset Node) = .sfs k ::ₘ {.sfs SFS_BLKN_ROOT} :=
    Multiset.cons_swap _ _ _
  obtain ⟨t'', dec, more''⟩ := ref_dec_run (swapped ▸ more') present counted
  refine ⟨t'', ?_, more''⟩
  unfold vfsGetCurRoot
  rw [run_bind curdir]
  dsimp only
  rw [run_bind (show sfsInfo (.sfs k) t = .ok (k, t) from rfl), run_bind root, run_bind dec]
  rfl

theorem with_subpath_run {m : VfsM (Except Int Node)} (ran : m v = .ok (.ok n, t)) :
    withSubpath subpath m v = .ok (.ok (n, subpath), t) := by
  unfold withSubpath
  rw [run_bind ran]
  rfl

theorem get_device_run (tree : VfsMounted v D) (here : startOf v path = some (n, subpath)) :
    ∃ t, getDevice path v = .ok (.ok (n, subpath), t) ∧ More v {n} 0 t := by
  unfold startOf at here
  unfold getDevice
  dsimp only at here ⊢
  have relative : ((v.files v.current).pwd.map fun m => (m, path)) = some (n, subpath) →
      ∃ t, withSubpath path vfsGetCurdir v = .ok (.ok (n, subpath), t) ∧ More v {n} 0 t := by
    intro here
    obtain ⟨m, pwd, same⟩ := Option.map_eq_some_iff.mp here
    cases same
    obtain ⟨t, ran, more⟩ := get_curdir_run tree pwd
    exact ⟨t, with_subpath_run ran, more⟩
  cases rest : path.drop (path.takeWhile fun c => !isColon c && !isSlash c).length with
  | nil =>
    rw [rest] at here
    exact relative here
  | cons c tail =>
    rw [rest] at here
    dsimp only at here ⊢
    by_cases front : (path.takeWhile fun c => !isColon c && !isSlash c) ≠ []
    · rw [if_pos front] at here ⊢
      by_cases colon : isColon c = true
      · rw [if_pos colon] at here ⊢
        obtain ⟨m, device, same⟩ := Option.map_eq_some_iff.mp here
        cases same
        obtain ⟨t, ran, more⟩ := get_vfs_root_run tree device
        exact ⟨t, with_subpath_run ran, more⟩
      · rw [if_neg colon] at here ⊢
        exact relative here
    · rw [if_neg front] at here ⊢
      by_cases slash : isSlash c = true
      · rw [if_pos slash] at here ⊢
        obtain ⟨m, boot, same⟩ := Option.map_eq_some_iff.mp here
        cases same
        obtain rfl := Option.some.inj (tree.boot.1.symm.trans boot)
        obtain ⟨t, ran, more⟩ := get_bootfs_run tree
        exact ⟨t, with_subpath_run ran, more⟩
      · rw [if_neg slash] at here ⊢
        obtain ⟨m, pwd, same⟩ := Option.map_eq_some_iff.mp here
        cases same
        obtain ⟨t, ran, more⟩ := get_cur_root_run tree pwd
        exact ⟨t, with_subpath_run ran, more⟩

end Start

section Search
variable {s : Sfs} {D : Set Nat} {k slot : Nat} {name : Name}

theorem dirent_read_run (maps : BlockMaps s D) (mem : k ∈ D) (dir : (s.inodes k).din.type = .dir)
    (below : slot < (s.inodes k).din.blocks) : sfsDirentReadNolock k slot s = .ok (.ok (direntAt s k slot), s) := by
  have inuse := (maps.map k mem).below slot below
  have bytes : (fun i => s.disk (pointer s k (.data slot)) (0 + i)) = s.disk (pointer s k (.data slot)) := by
    funext i
    rw [Nat.zero_add]
  unfold sfsDirentReadNolock
  rw [run_bind inode_run, run_check_bind ⟨dir, below⟩, run_bind (load_below_run maps mem below)]
  dsimp only
  rw [run_bind (assert_inuse_run maps.volume inuse),
    run_bind (rbuf_run maps.volume inuse.1 inuse.2.1 (by decide) (by decide)), bytes]
  rfl

theorem dirent_scan_run (maps : BlockMaps s D) (mem : k ∈ D) (dir : (s.inodes k).din.type = .dir) (count : Nat)
    (below : slot + count ≤ (s.inodes k).din.blocks) : ∃ r, sfsDirentScan k name count slot s = .ok (r, s) ∧
      match (List.range' slot count).find? (isEntry s k name) with
      | some i => r = .ok ((direntAt s k i).ino, i)
      | none => r = .error (-E_NOENT) := by
  induction count generalizing slot with
  | zero => exact ⟨_, rfl, rfl⟩
  | succ count ih =>
    unfold sfsDirentScan
    rw [run_bind (dirent_read_run maps mem dir (by omega)), List.range'_succ]
    dsimp only
    by_cases here : (direntAt s k slot).ino ≠ 0 ∧ name = (direntAt s k slot).name
    · have found : isEntry s k name slot = true := decide_eq_true here
      rw [if_pos here, List.find?_cons_of_pos found]
      exact ⟨_, rfl, rfl⟩
    · have other : ¬ isEntry s k name slot = true := fun found => here (of_decide_eq_true found)
      rw [if_neg here, List.find?_cons_of_neg other]
      exact ih (by omega)

end Search

/-- What `sfs_lookup_once` answers. -/
def lookupAnswer (v : Vfs) (k : Nat) (name : Name) : Except Int Node :=
  if v.memory 0 = false then .error (-E_NO_MEM)
  else
    match findEntry v.sfs k name with
    | none => .error (-E_NOENT)
    | some ino =>
        if (v.inodes (.sfs ino)).isSome ∨ v.memory 1 = true ∧ v.memory 2 = true then .ok (.sfs ino)
        else .error (-E_NO_MEM)

/-- The reference that goes to the caller. -/
def given : Except Int Node → Multiset Node
  | .ok n => {n}
  | .error _ => 0

/-- The counts are those of `v`, and `held` and what is given. -/
def Gives (v : Vfs) (held : Multiset Node) (r : Except Int Node) (t : Vfs) : Prop :=
  ∃ u used, refCountOf u = refCountOf v ∧ (∀ m i, v.inodes m = some i → u.inodes m = some i) ∧
    (∀ n ∈ given r, ∃ i, u.inodes n = some i) ∧ More u (given r + held) used t

/-- The same volume, with the same inodes as they are in memory or on disk. -/
structure SameTree (v t : Vfs) : Prop where
  frame : Frame v t
  sfs : t.sfs = { v.sfs with inodes := t.sfs.inodes }
  present : ∀ k i, v.inodes (.sfs k) = some i → t.sfs.inodes k = v.sfs.inodes k ∧ ∃ j, t.inodes (.sfs k) = some j
  dins : ∀ k, nodeDin t k = nodeDin v k

/-- No name leads to an inode that is to be loaded and that no table of operations is for. -/
def Loads (v : Vfs) (k : Nat) (name : Name) : Prop :=
  ∀ ino, findEntry v.sfs k name = some ino → v.inodes (.sfs ino) = none → v.memory 1 = true → v.memory 2 = true →
    (bytesDiskInode (v.sfs.disk ino)).type = .dir ∨ (bytesDiskInode (v.sfs.disk ino)).type = .file

/- An inode that nothing refers to yet. -/
def Vfs.adopt (v : Vfs) (ino : Nat) (din : SfsDiskInode) (inOps : InodeOps) : Vfs :=
  { v with
    sfs := { v.sfs with inodes := (Function.update v.sfs.inodes ino ⟨din, false⟩) }
    inodes := (Function.update v.inodes (.sfs ino) (some ⟨0, 0, inOps, 1⟩)) }

/-- What lookup has in memory beside `v`: the inode it answers, if it is read from the disk. -/
inductive Found (v : Vfs) : Except Int Node → Vfs → Prop where
  | missing {e : Int} : Found v (.error e) v
  | present {n : Node} {i : Inode} (here : v.inodes n = some i) : Found v (.ok n) v
  | read {ino : Nat} {inOps : InodeOps} (absent : v.inodes (.sfs ino) = none)
      (linked : (bytesDiskInode (v.sfs.disk ino)).nlinks ≠ 0)
      (ops : sfsGetOps (bytesDiskInode (v.sfs.disk ino)).type = some inOps) :
      Found v (.ok (.sfs ino)) (v.adopt ino (bytesDiskInode (v.sfs.disk ino)) inOps)

/-- Lookup changes the counts and what is in memory. -/
def Leaves (v : Vfs) (held : Multiset Node) (r : Except Int Node) (t : Vfs) : Prop :=
  ∃ u used, Found v r u ∧ More u (given r + held) used t

section Load
variable {v t : Vfs} {D : Set Nat} {held : Multiset Node} {n : Node} {k used : Nat} {name : Name} {r : Except Int Node}

theorem more_same_tree (more : More v held used t) : SameTree v t := by
  have there (k : Nat) : (t.inodes (.sfs k)).isSome = (v.inodes (.sfs k)).isSome := by
    rw [more.inodes, Option.isSome_map]
  refine ⟨more.frame, by rw [more.sfs], fun k i here => ⟨by rw [more.sfs], ?_⟩, fun k => ?_⟩
  · exact Option.isSome_iff_exists.mp ((there k).trans (Option.isSome_iff_exists.mpr ⟨i, here⟩))
  · have both := there k
    unfold nodeDin
    rw [more.sfs]
    cases here : v.inodes (.sfs k) with
    | none =>
      have gone : t.inodes (.sfs k) = none := by simpa [here] using both
      rw [gone]
    | some i =>
      rw [here] at both
      obtain ⟨j, other⟩ := Option.isSome_iff_exists.mp both
      rw [other]

theorem same_tree_trans {u : Vfs} (first : SameTree v u) (second : SameTree u t) : SameTree v t := by
  refine ⟨trans_of Frame first.frame second.frame, by rw [second.sfs, first.sfs], fun k i here => ?_,
    fun k => (second.dins k).trans (first.dins k)⟩
  obtain ⟨same, j, there⟩ := first.present k i here
  obtain ⟨same', there'⟩ := second.present k j there
  exact ⟨same'.trans same, there'⟩

theorem leaves_nothing {e : Int} (more : More v held used t) : Leaves v held (.error e) t :=
  ⟨v, used, .missing, by rwa [given, zero_add]⟩

theorem adopt_same_tree {ino : Nat} {inOps : InodeOps} (absent : v.inodes (.sfs ino) = none) :
    SameTree v (v.adopt ino (bytesDiskInode (v.sfs.disk ino)) inOps) := by
  unfold Vfs.adopt
  refine ⟨⟨rfl, rfl, rfl, rfl⟩, rfl, fun k i here => ?_, fun k => ?_⟩
  · have ne : k ≠ ino := by
      rintro rfl
      rw [absent] at here
      cases here
    dsimp only
    rw [Function.update_of_ne ne, Function.update_of_ne (by simpa using ne)]
    exact ⟨rfl, i, here⟩
  · unfold nodeDin
    dsimp only
    by_cases same : k = ino
    · subst k
      rw [Function.update_self, Function.update_self, absent]
    · rw [Function.update_of_ne same, Function.update_of_ne (by simpa using same)]

theorem on_sfs_same {α : Type} {m : SfsM α} {a : α} (ran : m t.sfs = .ok (a, t.sfs)) : onSfs m t = .ok (a, t) := by
  unfold onSfs
  rw [ran]

theorem get_ops_some {type : SfsType} (kind : type = .dir ∨ type = .file) : ∃ inOps, sfsGetOps type = some inOps := by
  rcases kind with rfl | rfl
  · exact ⟨_, rfl⟩
  · exact ⟨_, rfl⟩

/- The counts of an inode that has been read. -/
theorem more_adopt {ino : Nat} {din : SfsDiskInode} {inOps : InodeOps} (apart : Node.sfs ino ∉ held)
    (more : More v held used t) : More (v.adopt ino din inOps) (.sfs ino ::ₘ held) used
      ({ t with sfs := { t.sfs with inodes := (Function.update t.sfs.inodes ino ⟨din, false⟩) } }.withInode (.sfs ino)
        (some { refCount := 1, openCount := 0, inOps, reclaimCount := 1 })) := by
  refine ⟨⟨more.frame.bootfs, more.frame.procs, more.frame.files, more.frame.current⟩, ?_, more.memory, fun m => ?_⟩
  · unfold Vfs.adopt Vfs.withInode
    dsimp only
    rw [more.sfs]
  · by_cases same : m = .sfs ino
    · subst m
      rw [with_inode_self, Multiset.count_cons_self, Multiset.count_eq_zero.mpr apart]
      simp [Vfs.adopt]
    · rw [with_inode_other same, Multiset.count_cons_of_ne same]
      simpa [Vfs.adopt, same] using more.inodes m

/- The inode on the disk, read into memory. -/
theorem disk_inode_read {ino : Nat} (volume : Volume v.sfs) (inuse : InUse v.sfs ino) (more : More v held used t) :
    onSfs (sfsAssertInuse ino) t = .ok ((), t) ∧ onSfs (sfsRbuf sizeofDiskInode ino 0) t = .ok (.ok (v.sfs.disk ino), t) := by
  have whole : (fun i => v.sfs.disk ino (0 + i)) = v.sfs.disk ino := by
    funext i
    rw [Nat.zero_add]
  refine ⟨on_sfs_same ?_, on_sfs_same ?_⟩
  · rw [more.sfs, assert_inuse_run volume inuse]
  · rw [more.sfs, rbuf_run volume inuse.1 inuse.2.1 (by decide) (by decide), whole]

theorem read_inode_run {ino : Nat} (volume : Volume v.sfs) (inuse : InUse v.sfs ino)
    (linked : (bytesDiskInode (v.sfs.disk ino)).nlinks ≠ 0)
    (kind : v.memory used = true → v.memory (used + 1) = true →
      (bytesDiskInode (v.sfs.disk ino)).type = .dir ∨ (bytesDiskInode (v.sfs.disk ino)).type = .file)
    (absent : v.inodes (.sfs ino) = none) (apart : Node.sfs ino ∉ held) (more : More v held used t) :
    ∃ t', sfsReadInode ino t = .ok
        (if v.memory used = true ∧ v.memory (used + 1) = true then .ok (.sfs ino) else .error (-E_NO_MEM), t') ∧
      Leaves v held (if v.memory used = true ∧ v.memory (used + 1) = true then .ok (.sfs ino) else .error (-E_NO_MEM)) t' := by
  obtain ⟨t₁, first, more₁⟩ := kmalloc_run more
  unfold sfsReadInode
  rw [run_bind first]
  cases memory : v.memory used with
  | false =>
    refine ⟨t₁, rfl, ?_⟩
    simpa using leaves_nothing more₁
  | true =>
    obtain ⟨t₂, second, more₂⟩ := kmalloc_run more₁
    obtain ⟨inuse', read⟩ := disk_inode_read volume inuse more₁
    rw [if_neg (by simp), run_bind inuse', run_bind read]
    dsimp only
    rw [run_check_bind linked, run_bind second]
    cases memory' : v.memory (used + 1) with
    | false =>
      refine ⟨t₂, rfl, ?_⟩
      simpa using leaves_nothing more₂
    | true =>
      obtain ⟨inOps, ops⟩ := get_ops_some (kind memory memory')
      rw [if_neg (by simp), ops, if_pos ⟨rfl, rfl⟩]
      have adopted : More (v.adopt ino (bytesDiskInode (v.sfs.disk ino)) inOps) (.sfs ino ::ₘ held) (used + 1 + 1) _ :=
        more_adopt apart more₂
      exact ⟨_, rfl, _, used + 1 + 1, .read absent linked ops, adopted⟩

/- The search is the scan of all slots. -/
theorem dirent_searched {t₁ : Vfs} {found : Except Int (Nat × Nat)} (short : name.length ≤ SFS_MAX_FNAME_LEN)
    (memory : v.memory 0 = true) (first : kmalloc t = .ok (v.memory 0, t₁)) (more : More v held 1 t₁)
    (scanned : sfsDirentScan k name (v.sfs.inodes k).din.blocks 0 v.sfs = .ok (found, v.sfs)) :
    sfsDirentSearchNolock k name t = .ok (found, t₁) := by
  have inode : onSfs (sfsInode k) t₁ = .ok (v.sfs.inodes k, t₁) := by
    rw [← more.sfs]
    rfl
  unfold sfsDirentSearchNolock
  rw [run_check_bind short, run_bind first, memory, if_neg (by simp), run_bind inode]
  exact on_sfs_same (by rw [more.sfs]; exact scanned)

/- The inodes that are not in memory are not held. -/
theorem lookup_once_run (tree : VfsMounted v D) (mem : k ∈ D) (short : name.length ≤ SFS_MAX_FNAME_LEN) (more : More v held 0 t)
    (apart : ∀ ino, v.inodes (.sfs ino) = none → Node.sfs ino ∉ held) (loads : v.memory 0 = true → Loads v k name) :
    ∃ t', sfsLookupOnce k name t = .ok (lookupAnswer v k name, t') ∧ Leaves v held (lookupAnswer v k name) t' := by
  obtain ⟨t₁, first, more₁⟩ := kmalloc_run more
  unfold sfsLookupOnce lookupAnswer
  cases memory : v.memory 0 with
  | false =>
    have searched : sfsDirentSearchNolock k name t = .ok (.error (-E_NO_MEM), t₁) := by
      unfold sfsDirentSearchNolock
      rw [run_check_bind short, run_bind first, memory]
      rfl
    rw [run_bind searched, if_pos rfl]
    exact ⟨t₁, rfl, leaves_nothing more₁⟩
  | true =>
    obtain ⟨found, scanned, outcome⟩ := @dirent_scan_run _ _ _ 0 name tree.maps mem (tree.dirs k mem).1
      (v.sfs.inodes k).din.blocks (Nat.zero_add _).le
    have searched := dirent_searched short memory first more₁ scanned
    rw [run_bind searched, if_neg (by simp)]
    rw [← List.range_eq_range'] at outcome
    have loads := loads memory
    unfold Loads findEntry at loads
    unfold findEntry
    cases slot : (List.range (v.sfs.inodes k).din.blocks).find? (isEntry v.sfs k name) with
    | none =>
      rw [slot] at outcome
      obtain rfl := outcome
      exact ⟨t₁, rfl, leaves_nothing more₁⟩
    | some i =>
      rw [slot] at outcome
      obtain rfl := outcome
      have matched := List.find?_some slot
      have below := List.mem_range.mp (List.mem_of_find?_eq_some slot)
      have nonzero : (direntAt v.sfs k i).ino ≠ 0 := (of_decide_eq_true matched).1
      obtain ⟨inuse, onDisk⟩ := tree.entries k mem i below nonzero
      dsimp only [Option.map_some]
      cases here : v.inodes (.sfs (direntAt v.sfs k i).ino) with
      | some j =>
        obtain ⟨t₂, loaded, more₂⟩ := load_present_run more₁ here (tree.counts _ _ here).1
        rw [if_pos (.inl rfl)]
        exact ⟨t₂, loaded, v, _, .present here, more₂⟩
      | none =>
        have kind := loads (direntAt v.sfs k i).ino (by rw [slot]; rfl) here
        obtain ⟨t₂, read, leaves⟩ := read_inode_run tree.maps.volume inuse (onDisk here) kind here (apart _ here) more₁
        have absent : t₁.inodes (.sfs (direntAt v.sfs k i).ino) = none := by
          rw [more₁.inodes, here]
          rfl
        have loaded : sfsLoadInode (direntAt v.sfs k i).ino t₁ = sfsReadInode (direntAt v.sfs k i).ino t₁ := by
          unfold sfsLoadInode
          rw [run_get_bind, absent]
        rw [loaded, read]
        simp only [Option.isSome_none, Bool.false_eq_true, false_or]
        exact ⟨t₂, rfl, leaves⟩

theorem found_kept {u : Vfs} (found : Found v r u) {m : Node} {i : Inode} (here : v.inodes m = some i) :
    u.inodes m = some i := by
  cases found with
  | missing => exact here
  | present _ => exact here
  | read absent linked ops =>
    refine (Function.update_of_ne ?_ _ _).trans here
    rintro rfl
    rw [absent] at here
    cases here

theorem leaves_same_tree (leaves : Leaves v held r t) : SameTree v t := by
  obtain ⟨u, used, found, more⟩ := leaves
  refine same_tree_trans ?_ (more_same_tree more)
  cases found with
  | missing => exact more_same_tree more_refl
  | present _ => exact more_same_tree more_refl
  | read absent linked ops => exact adopt_same_tree absent

theorem leaves_drop {i : Inode} (leaves : Leaves v (n ::ₘ held) r t) (present : v.inodes n = some i) (counted : 0 < i.refCount) :
    ∃ c t', inodeRefDec n t = .ok (c, t') ∧ Leaves v held r t' := by
  obtain ⟨u, used, found, more⟩ := leaves
  rw [Multiset.add_cons] at more
  obtain ⟨t', dec, more'⟩ := ref_dec_run more (found_kept found present) counted
  exact ⟨_, t', dec, u, used, found, more'⟩

theorem sfs_lookup_run (tree : VfsMounted v D) (mem : k ∈ D) (short : name.length ≤ SFS_MAX_FNAME_LEN) (named : name ≠ [])
    (first : name.head? ≠ some 47) (more : More v {.sfs k} 0 t) (loads : v.memory 0 = true → Loads v k name) :
    ∃ t', sfsLookup (.sfs k) name t = .ok (lookupAnswer v k name, t') ∧ Leaves v {.sfs k} (lookupAnswer v k name) t' := by
  obtain ⟨i, present, counted⟩ := tree_present tree mem
  obtain ⟨t₁, inc, more₁⟩ := ref_inc_run more present
  have inode : onSfs (sfsInode k) t₁ = .ok (v.sfs.inodes k, t₁) := by
    rw [← more₁.sfs]
    rfl
  obtain ⟨t₂, found, leaves⟩ := lookup_once_run tree mem short more₁ (fun ino absent held => by
    have same : Node.sfs ino = .sfs k := by simpa using held
    rw [same, present] at absent
    cases absent) loads
  obtain ⟨c, t₃, dec, leaves'⟩ := leaves_drop leaves present counted
  refine ⟨t₃, ?_, leaves'⟩
  unfold sfsLookup
  rw [run_check_bind ⟨named, first⟩, run_bind inc, run_bind (show sfsInfo (.sfs k) t₁ = .ok (k, t₁) from rfl),
    run_bind inode, if_neg (not_not.mpr (tree.dirs k mem).1), run_bind found, run_bind dec]
  rfl

theorem tree_dirops {i : Inode} (tree : VfsMounted v D) (mem : k ∈ D) (present : v.inodes (.sfs k) = some i) :
    i.inOps = .sfsNodeDirops := by
  have kind := tree.kinds k i present
  rw [(tree.dirs k mem).1] at kind
  exact (Option.some.inj kind).symm

end Load

section Paths
variable {v : Vfs} {D : Set Nat} {n : Node} {k : Nat} {path subpath name : Name}

theorem dropped_head {s : Name} : (s.dropWhile isSlash).head? ≠ some 47 := by
  intro head
  have := List.head?_dropWhile_not isSlash s
  rw [head] at this
  simp [isSlash] at this

theorem start_head (here : startOf v path = some (n, subpath)) : subpath.head? ≠ some 47 := by
  by_cases slash : path.head? = some 47
  · obtain ⟨tail, rfl⟩ : ∃ tail, path = 47 :: tail := by
      cases path with
      | nil => cases slash
      | cons c tail =>
        cases slash
        exact ⟨tail, rfl⟩
    have rest : subpath = tail.dropWhile isSlash := by
      simp only [startOf, isSlash, isColon, List.takeWhile_cons] at here
      simp at here
      exact here.2.symm
    rw [rest]
    exact dropped_head
  · unfold startOf at here
    dsimp only at here
    have relative : ((v.files v.current).pwd.map fun m => (m, path)) = some (n, subpath) → subpath.head? ≠ some 47 := by
      intro same
      obtain ⟨m, _, same⟩ := Option.map_eq_some_iff.mp same
      cases same
      exact slash
    have absolute : ∀ {start : Option Node} {f : Node → Node} {tail : Name},
        (start.map fun m => (f m, tail.dropWhile isSlash)) = some (n, subpath) → subpath.head? ≠ some 47 := by
      intro start f tail same
      obtain ⟨m, _, same⟩ := Option.map_eq_some_iff.mp same
      cases same
      exact dropped_head
    split at here
    · exact relative here
    · split_ifs at here
      · exact absolute (f := id) here
      · exact relative here
      · exact absolute (f := id) here
      · exact absolute (f := fun _ => .sfs SFS_BLKN_ROOT) here

/- Where paths start is a directory or a device. -/
theorem start_in_tree (tree : VfsMounted v D) (here : startOf v path = some (.sfs k, subpath)) : k ∈ D := by
  unfold startOf at here
  dsimp only at here
  have from_pwd : ∀ {f : Node → Name}, ((v.files v.current).pwd.map fun m => (m, f m)) = some (.sfs k, subpath) → k ∈ D := by
    intro f same
    obtain ⟨m, pwd, same⟩ := Option.map_eq_some_iff.mp same
    obtain ⟨k', mem, rfl⟩ := tree.pwd m pwd
    cases same
    exact mem
  split at here
  · exact from_pwd (f := fun _ => path) here
  · split_ifs at here
    · obtain ⟨m, device, same⟩ := Option.map_eq_some_iff.mp here
      cases same
      unfold deviceNode at device
      split_ifs at device
      · cases device
        exact tree.boot.2
      · cases device
      · cases device
    · exact from_pwd (f := fun _ => path) here
    · obtain ⟨m, boot, same⟩ := Option.map_eq_some_iff.mp here
      cases same
      cases tree.boot.1.symm.trans boot
      exact tree.boot.2
    · obtain ⟨m, _, same⟩ := Option.map_eq_some_iff.mp here
      cases same
      exact tree.boot.2

section Lookup
variable {t : Vfs} {r : Except Int Node}

theorem vfs_lookup_of (started : getDevice path v = .ok (.ok (n, subpath), t)) (named : subpath ≠ []) {t' : Vfs}
    (looked : vopLookup n subpath t = .ok (r, t')) (leaves : Leaves v {n} r t') {i : Inode} (present : v.inodes n = some i)
    (counted : 0 < i.refCount) : ∃ w, vfsLookup path v = .ok (r, w) ∧ Leaves v 0 r w := by
  obtain ⟨c, w, dec, leaves'⟩ := @leaves_drop _ _ 0 _ _ _ leaves present counted
  refine ⟨w, ?_, leaves'⟩
  unfold vfsLookup
  rw [run_bind started]
  dsimp only
  rw [if_pos named, run_bind looked, run_bind dec]
  rfl

theorem vfs_lookup_start (tree : VfsMounted v D) (here : startOf v path = some (n, [])) :
    ∃ w, vfsLookup path v = .ok (.ok n, w) ∧ Leaves v 0 (.ok n) w := by
  obtain ⟨t, started, more⟩ := get_device_run tree here
  have there : ∃ i, v.inodes n = some i := by
    cases n with
    | dev d =>
      obtain ⟨i, present, _⟩ := tree.devs d
      exact ⟨i, present⟩
    | sfs k => exact (tree.dirs k (start_in_tree tree here)).2
  obtain ⟨i, present⟩ := there
  refine ⟨t, ?_, v, 0, .present present, by rwa [add_zero]⟩
  unfold vfsLookup
  rw [run_bind started]
  rfl

theorem vfs_lookup_device (tree : VfsMounted v D) {d : Device} (here : startOf v path = some (.dev d, subpath)) (named : subpath ≠ []) :
    ∃ w, vfsLookup path v = .ok (.error (-E_NOENT), w) ∧ Leaves v 0 (.error (-E_NOENT)) w := by
  obtain ⟨t, started, more⟩ := get_device_run tree here
  obtain ⟨i, present, ops⟩ := tree.devs d
  obtain ⟨counted, opens, few⟩ := tree.counts _ _ present
  have op := @vop_op_run _ _ _ _ _ _ .vopLookup more present (by rw [ops]; decide) opens (by simpa using few)
  refine @vfs_lookup_of _ _ _ _ _ _ started named t ?_ (leaves_nothing more) _ present counted
  unfold vopLookup
  rw [run_bind op, ops]
  dsimp only
  unfold devLookup
  rw [if_pos named]
  rfl

theorem vop_lookup_dir (tree : VfsMounted v D) (mem : k ∈ D) (more : More v {.sfs k} 0 t) :
    vopLookup (.sfs k) subpath t = sfsLookup (.sfs k) subpath t := by
  obtain ⟨_, i, present⟩ := tree.dirs k mem
  obtain ⟨counted, opens, few⟩ := tree.counts _ _ present
  have ops := tree_dirops tree mem present
  unfold vopLookup
  rw [run_bind (@vop_op_run _ _ _ _ _ _ .vopLookup more present (by rw [ops]; decide) opens (by simpa using few)), ops]

theorem vfs_lookup_dir (tree : VfsMounted v D) (here : startOf v path = some (.sfs k, subpath)) (named : subpath ≠ [])
    (short : subpath.length ≤ SFS_MAX_FNAME_LEN) (loads : v.memory 0 = true → Loads v k subpath) :
    ∃ w, vfsLookup path v = .ok (lookupAnswer v k subpath, w) ∧ Leaves v 0 (lookupAnswer v k subpath) w := by
  obtain ⟨t, started, more⟩ := get_device_run tree here
  have mem := start_in_tree tree here
  obtain ⟨i, present, counted⟩ := tree_present tree mem
  obtain ⟨t', looked, leaves⟩ := sfs_lookup_run tree mem short named (start_head here) more loads
  exact vfs_lookup_of started named ((vop_lookup_dir tree mem more).trans looked) leaves present counted

/- A rest of more than 255 characters fails an assertion. -/
theorem vfs_lookup_long (tree : VfsMounted v D) (here : startOf v path = some (.sfs k, subpath)) (named : subpath ≠ [])
    (long : ¬ subpath.length ≤ SFS_MAX_FNAME_LEN) : vfsLookup path v = .error .assertion := by
  obtain ⟨t, started, more⟩ := get_device_run tree here
  have mem := start_in_tree tree here
  obtain ⟨i, present, _⟩ := tree_present tree mem
  obtain ⟨t₁, inc, more₁⟩ := ref_inc_run more present
  have inode : onSfs (sfsInode k) t₁ = .ok (v.sfs.inodes k, t₁) := by
    rw [← more₁.sfs]
    rfl
  have searched : sfsLookupOnce k subpath t₁ = .error .assertion := by
    unfold sfsLookupOnce sfsDirentSearchNolock
    exact run_bind_stop (run_check_stop long)
  have looked : sfsLookup (.sfs k) subpath t = .error .assertion := by
    unfold sfsLookup
    rw [run_check_bind ⟨named, start_head here⟩, run_bind inc,
      run_bind (show sfsInfo (.sfs k) t₁ = .ok (k, t₁) from rfl), run_bind inode,
      if_neg (not_not.mpr (tree.dirs k mem).1)]
    exact run_bind_stop searched
  unfold vfsLookup
  rw [run_bind started]
  dsimp only
  rw [if_pos named]
  exact run_bind_stop ((vop_lookup_dir tree mem more).trans looked)

end Lookup

end Paths

/- `struct sfs_disk_entry` as it lies in memory. -/
def diskEntryBytes (entry : SfsDiskEntry) : DiskBlock := fun i =>
  if i < 4 then u32Bytes entry.ino i else entry.name.getD (i - 4) 0

def oneEntryDir (block : Nat) : SfsDiskInode :=
  { size := 4096, type := .dir, nlinks := 1, blocks := 1, direct := fun i => if i = 0 then block else 0, indirect := 0 }

def plainFile : SfsDiskInode := { size := 0, type := .file, nlinks := 1, blocks := 0, direct := fun _ => 0, indirect := 0 }

/-- The root has a directory `a` in block 4, and that a file `b` in block 6. -/
def twoLevels : Sfs where
  blocks := 8
  unusedBlocks := 1
  superDirty := false
  freemap := { nbits := 32, nwords := 1, map := fun _ => 0x80 }
  dBlocks := 8
  disk := fun b =>
    if b = 3 then diskEntryBytes ⟨4, [97]⟩
    else if b = 4 then diskInodeBytes (oneEntryDir 5)
    else if b = 5 then diskEntryBytes ⟨6, [98]⟩
    else if b = 6 then diskInodeBytes plainFile
    else fun _ => 0
  inodes := fun _ => { din := oneEntryDir 3, dirty := false }

/- Only the root is in memory. -/
def rootOnly : Vfs where
  sfs := twoLevels
  inodes := fun n =>
    if n = .sfs 1 then some ⟨2, 0, .sfsNodeDirops, 1⟩
    else if n = .dev .stdin ∨ n = .dev .stdout then some ⟨1, 0, .devNodeOps, 1⟩
    else none
  bootfs := some (.sfs 1)
  procs := {0}
  files := fun _ => ⟨some (.sfs 1), fun _ => ⟨.none, false, false, 0, none, 0⟩, 1⟩
  current := 0
  memory := fun _ => true
  keyboard := []

/- An inode with one block, its first. -/
theorem one_block_maps {s : Sfs} {k b : Nat} (volume : Volume s) (blocks : (s.inodes k).din.blocks = 1)
    (direct : (s.inodes k).din.direct = fun i => if i = 0 then b else 0) (indirect : (s.inodes k).din.indirect = 0)
    (inuse : InUse s b) : BlockMaps s {k} := by
  have null : ∀ i, i ≠ 0 → pointer s k (.data i) = 0 := by
    intro i ne
    simp [pointer, direct, indirect, ne]
  have first : ∀ a : Slot, pointer s k a ≠ 0 → a = .data 0 := by
    intro a nonzero
    cases a with
    | data i =>
      by_cases zero : i = 0
      · rw [zero]
      · exact absurd (null i zero) nonzero
    | entries => exact absurd indirect nonzero
  refine ⟨volume, ?_, ?_⟩
  · rintro g rfl
    refine ⟨by rw [blocks]; decide, fun i below => ?_, fun i high _ => ?_, fun some => absurd indirect some⟩
    · rw [blocks, Nat.lt_one_iff] at below
      subst below
      simpa [pointer, direct, SFS_NDIRECT] using inuse
    · rw [blocks] at high
      exact null i (Nat.pos_iff_ne_zero.mp high)
  · rintro f rfl g rfl a c _ _ nonzero same
    exact ⟨rfl, (first a nonzero).trans (first c (same ▸ nonzero)).symm⟩

end Ucore
