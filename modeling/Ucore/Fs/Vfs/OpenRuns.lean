import Ucore.Fs.Vfs.PathLookup
import Ucore.Fs.Descriptors

/- What `vfs_open` does once lookup has answered, on a mounted volume. -/
namespace Ucore
open Programs

/-- The rest of the path is too long for the assertion on names, or leads to an inode that is to be loaded
and has no operations. -/
def LookupStops (v : Vfs) (path : Name) : Prop :=
  ∃ k subpath, startOf v path = some (.sfs k, subpath) ∧ subpath ≠ [] ∧
    (SFS_MAX_FNAME_LEN < subpath.length ∨ v.memory 0 = true ∧ ¬ Loads v k subpath)

/-- What lookup answers, where it does. -/
def pathAnswer (v : Vfs) (path : Name) : Except Int Node :=
  match startOf v path with
  | none => .error (if pathLeft path = path then -E_NOENT else -E_NO_DEV)
  | some (n, subpath) =>
      if subpath = [] then .ok n
      else
        match n with
        | .dev _ => .error (-E_NOENT)
        | .sfs k => lookupAnswer v k subpath

/- The inode is a directory of `D`, or one that an entry of `D` has. -/
def NamedIn (v : Vfs) (D : Set Nat) (r : Except Int Node) : Prop :=
  ∀ ino, r = .ok (.sfs ino) → ino ∈ D ∨ ∃ k ∈ D, ∃ name, findEntry v.sfs k name = some ino

section Lookup
variable {v t : Vfs} {D : Set Nat} {held : Multiset Node} {n : Node} {k used : Nat} {path subpath name : Name}
  {r : Except Int Node}

theorem get_curdir_none (no : (v.files v.current).pwd = none) : vfsGetCurdir v = .ok (.error (-E_NOENT), v) := by
  unfold vfsGetCurdir
  rw [run_bind (show curFiles v = .ok (v.files v.current, v) from rfl), no]
  rfl

theorem with_subpath_error {m : VfsM (Except Int Node)} {e : Int} (ran : m v = .ok (.error e, v)) :
    withSubpath subpath m v = .ok (.error e, v) := by
  unfold withSubpath
  rw [run_bind ran]
  rfl

/- A path without a device name is left as it is. -/
theorem path_left_plain (plain : path.takeWhile (fun c => !isColon c && !isSlash c) = [] ∨
    (path.drop (path.takeWhile fun c => !isColon c && !isSlash c).length).head? ≠ some 58) : pathLeft path = path := by
  unfold pathLeft
  dsimp only
  rw [if_neg]
  rintro ⟨named, colon⟩
  exact plain.elim named fun other => other colon

theorem path_left_device {tail : Name} {c : UInt8} (named : path.takeWhile (fun c => !isColon c && !isSlash c) ≠ [])
    (rest : path.drop (path.takeWhile fun c => !isColon c && !isSlash c).length = c :: tail) (colon : isColon c = true) :
    pathLeft path ≠ path := by
  unfold pathLeft
  dsimp only
  rw [if_pos ⟨named, by rw [rest]; exact congrArg some (of_decide_eq_true colon)⟩]
  intro whole
  rw [whole, List.drop_length] at rest
  cases rest

/- Where a path starts nowhere, there is no current directory, or no such device. -/
theorem get_device_none (boot : v.bootfs ≠ none) (nowhere : startOf v path = none) :
    getDevice path v = .ok (.error (if pathLeft path = path then -E_NOENT else -E_NO_DEV), v) := by
  unfold startOf at nowhere
  unfold getDevice
  dsimp only at nowhere ⊢
  split at nowhere
  · rename_i rest
    rw [if_pos (path_left_plain (.inr (by rw [rest]; nofun))), rest]
    exact with_subpath_error (get_curdir_none (Option.map_eq_none_iff.mp nowhere))
  · rename_i c tail rest
    split_ifs at nowhere with named colon slash
    · have unknown := Option.map_eq_none_iff.mp nowhere
      rw [if_neg (path_left_device named rest colon), rest]
      dsimp only
      rw [if_pos named, if_pos colon]
      unfold deviceNode at unknown
      split_ifs at unknown with first second third
      refine with_subpath_error ?_
      unfold vfsGetRoot
      rw [if_neg first, if_neg second, if_neg third]
      rfl
    · have other : c ≠ 58 := fun same => colon (decide_eq_true same)
      rw [if_pos (path_left_plain (.inr (by rw [rest]; simpa using other))), rest]
      dsimp only
      rw [if_pos named, if_neg colon]
      exact with_subpath_error (get_curdir_none (Option.map_eq_none_iff.mp nowhere))
    · exact absurd (Option.map_eq_none_iff.mp nowhere) boot
    · rw [if_pos (path_left_plain (.inl (not_not.mp named))), rest]
      dsimp only
      rw [if_neg named, if_neg slash]
      refine with_subpath_error ?_
      unfold vfsGetCurRoot
      rw [run_bind (get_curdir_none (Option.map_eq_none_iff.mp nowhere))]
      rfl

theorem get_ops_none {type : SfsType} (other : ¬ (type = .dir ∨ type = .file)) : sfsGetOps type = none := by
  cases type with
  | dir => exact absurd (.inl rfl) other
  | file => exact absurd (.inr rfl) other
  | link | inval => rfl

/- The panic of `sfs_get_ops`. -/
theorem read_inode_stop {ino : Nat} (volume : Volume v.sfs) (inuse : InUse v.sfs ino)
    (linked : (bytesDiskInode (v.sfs.disk ino)).nlinks ≠ 0) (more : More v held used t) (memory : v.memory used = true)
    (memory' : v.memory (used + 1) = true)
    (other : ¬ ((bytesDiskInode (v.sfs.disk ino)).type = .dir ∨ (bytesDiskInode (v.sfs.disk ino)).type = .file)) :
    sfsReadInode ino t = .error .assertion := by
  obtain ⟨t₁, first, more₁⟩ := kmalloc_run more
  obtain ⟨t₂, second, more₂⟩ := kmalloc_run more₁
  obtain ⟨inuse', read⟩ := disk_inode_read volume inuse more₁
  unfold sfsReadInode
  rw [run_bind first, memory, if_neg (by simp), run_bind inuse', run_bind read]
  dsimp only
  rw [run_check_bind linked, run_bind second, memory', if_neg (by simp), get_ops_none other]
  rfl

theorem lookup_once_stop (mounted : VfsMounted v D) (mem : k ∈ D) (short : name.length ≤ SFS_MAX_FNAME_LEN) (more : More v held 0 t)
    (memory : v.memory 0 = true) (stuck : ¬ Loads v k name) : sfsLookupOnce k name t = .error .assertion := by
  unfold Loads at stuck
  push Not at stuck
  obtain ⟨ino, entry, absent, memory₁, memory₂, other⟩ := stuck
  obtain ⟨t₁, first, more₁⟩ := kmalloc_run more
  obtain ⟨found, scanned, outcome⟩ := @dirent_scan_run _ _ _ 0 name mounted.maps mem (mounted.dirs k mem).1
    (v.sfs.inodes k).din.blocks (Nat.zero_add _).le
  have searched := dirent_searched short memory first more₁ scanned
  rw [← List.range_eq_range'] at outcome
  obtain ⟨slot, matched, rfl⟩ := Option.map_eq_some_iff.mp entry
  rw [matched] at outcome
  obtain rfl := outcome
  have below := List.mem_range.mp (List.mem_of_find?_eq_some matched)
  have isHere := List.find?_some matched
  have nonzero : _ ∧ _ := of_decide_eq_true isHere
  obtain ⟨inuse, linked⟩ := mounted.entries k mem slot below nonzero.1
  have absent₁ : t₁.inodes (.sfs (direntAt v.sfs k slot).ino) = none := by
    rw [more₁.inodes, absent]
    rfl
  have loaded : sfsLoadInode (direntAt v.sfs k slot).ino t₁ = sfsReadInode (direntAt v.sfs k slot).ino t₁ := by
    unfold sfsLoadInode
    rw [run_get_bind, absent₁]
  unfold sfsLookupOnce
  rw [run_bind searched]
  dsimp only
  rw [loaded]
  exact read_inode_stop mounted.maps.volume inuse (linked absent) more₁ memory₁ memory₂ fun kind => kind.elim other.1 other.2

theorem vfs_lookup_stop (mounted : VfsMounted v D) (here : startOf v path = some (.sfs k, subpath)) (named : subpath ≠ [])
    (short : subpath.length ≤ SFS_MAX_FNAME_LEN) (memory : v.memory 0 = true) (stuck : ¬ Loads v k subpath) :
    vfsLookup path v = .error .assertion := by
  obtain ⟨t, started, more⟩ := get_device_run mounted here
  have mem := start_in_tree mounted here
  obtain ⟨i, present, _⟩ := tree_present mounted mem
  obtain ⟨t₁, inc, more₁⟩ := ref_inc_run more present
  have inode : onSfs (sfsInode k) t₁ = .ok (v.sfs.inodes k, t₁) := by
    rw [← more₁.sfs]
    rfl
  have looked : sfsLookup (.sfs k) subpath t = .error .assertion := by
    unfold sfsLookup
    rw [run_check_bind ⟨named, start_head here⟩, run_bind inc,
      run_bind (show sfsInfo (.sfs k) t₁ = .ok (k, t₁) from rfl), run_bind inode, if_neg (not_not.mpr (mounted.dirs k mem).1)]
    exact run_bind_stop (lookup_once_stop mounted mem short more₁ memory stuck)
  unfold vfsLookup
  rw [run_bind started]
  dsimp only
  rw [if_pos named]
  exact run_bind_stop ((vop_lookup_dir mounted mem more).trans looked)

theorem lookup_answer_named (mem : k ∈ D) : NamedIn v D (lookupAnswer v k name) := by
  intro ino answer
  unfold lookupAnswer at answer
  split_ifs at answer
  cases entry : findEntry v.sfs k name with
  | none =>
    rw [entry] at answer
    cases answer
  | some ino' =>
    rw [entry] at answer
    dsimp only at answer
    split_ifs at answer
    cases answer
    exact .inr ⟨k, mem, name, entry⟩

theorem path_answer_start {start : Node × Name} (here : startOf v path = some start) :
    pathAnswer v path = if start.2 = [] then .ok start.1
      else match start.1 with
        | .dev _ => .error (-E_NOENT)
        | .sfs k => lookupAnswer v k start.2 := by
  unfold pathAnswer
  rw [here]

/-- Every lookup stops in an assertion or a panic, or answers. -/
theorem vfs_lookup_total (mounted : VfsMounted v D) (path : Name) :
    (LookupStops v path ∧ vfsLookup path v = .error .assertion) ∨
      (¬ LookupStops v path ∧ ∃ w, vfsLookup path v = .ok (pathAnswer v path, w) ∧ Leaves v 0 (pathAnswer v path) w ∧
        NamedIn v D (pathAnswer v path)) := by
  cases here : startOf v path with
  | none =>
    have goes : ¬ LookupStops v path := by
      rintro ⟨k, subpath, there, -⟩
      rw [here] at there
      cases there
    have answer : pathAnswer v path = .error (if pathLeft path = path then -E_NOENT else -E_NO_DEV) := by
      unfold pathAnswer
      rw [here]
    have started := get_device_none (by rw [mounted.boot.1]; exact Option.some_ne_none _) here
    rw [answer]
    refine .inr ⟨goes, v, ?_, leaves_nothing more_refl, nofun⟩
    unfold vfsLookup
    rw [run_bind started]
    rfl
  | some start =>
    obtain ⟨n, subpath⟩ := start
    rw [path_answer_start here]
    by_cases named : subpath = []
    · subst named
      have goes : ¬ LookupStops v path := by
        rintro ⟨k, subpath, there, named, -⟩
        rw [here] at there
        cases there
        exact named rfl
      obtain ⟨w, ran, leaves⟩ := vfs_lookup_start mounted here
      refine .inr ⟨goes, w, ran, leaves, fun ino same => .inl ?_⟩
      cases same
      exact start_in_tree mounted here
    · rw [if_neg named]
      cases n with
      | dev d =>
        have goes : ¬ LookupStops v path := by
          rintro ⟨k, subpath, there, -⟩
          rw [here] at there
          cases there
        obtain ⟨w, ran, leaves⟩ := vfs_lookup_device mounted here named
        exact .inr ⟨goes, w, ran, leaves, nofun⟩
      | sfs k =>
        by_cases short : subpath.length ≤ SFS_MAX_FNAME_LEN
        · by_cases stuck : v.memory 0 = true ∧ ¬ Loads v k subpath
          · exact .inl ⟨⟨k, subpath, here, named, .inr stuck⟩, vfs_lookup_stop mounted here named short stuck.1 stuck.2⟩
          · have goes : ¬ LookupStops v path := by
              rintro ⟨k, subpath, there, -, long | missed⟩
              · rw [here] at there
                cases there
                exact absurd long (not_lt.mpr short)
              · rw [here] at there
                cases there
                exact stuck missed
            obtain ⟨w, ran, leaves⟩ := vfs_lookup_dir mounted here named short fun memory => by
              by_contra missed
              exact stuck ⟨memory, missed⟩
            exact .inr ⟨goes, w, ran, leaves, lookup_answer_named (start_in_tree mounted here)⟩
        · exact .inl ⟨⟨k, subpath, here, named, .inl (not_le.mp short)⟩, vfs_lookup_long mounted here named short⟩

end Lookup

/-- An inode that operations can be done on. -/
structure Usable (v : Vfs) (n : Node) (w : Vfs) (i : Inode) : Prop where
  here : w.inodes n = some i
  opens : i.openCount ≤ i.refCount
  few : i.refCount < MAX_INODE_COUNT
  kind : match n with
    | .dev _ => i.inOps = .devNodeOps
    | .sfs k => (w.sfs.inodes k).din.type = (nodeDin v k).type ∧ sfsGetOps (nodeDin v k).type = some i.inOps

/-- An inode that lookup has answered: its reference is not that of an open file. -/
structure Ready (v : Vfs) (n : Node) (w : Vfs) (i : Inode) : Prop extends Usable v n w i where
  spare : i.openCount < i.refCount

section Open
variable {v w : Vfs} {D : Set Nat} {n : Node} {k : Nat} {i : Inode} {openFlags : Nat}

theorem leaves_ready (mounted : VfsMounted v D) (leaves : Leaves v 0 (.ok n) w) : ∃ i, Ready v n w i := by
  obtain ⟨u, used, found, more⟩ := leaves
  have one : (given (.ok n) + 0).count n = 1 := by
    rw [add_zero]
    exact Multiset.count_singleton_self n
  cases found with
  | present here =>
    rename_i i
    obtain ⟨counted, opens, few⟩ := mounted.counts n i here
    refine ⟨{ i with refCount := i.refCount + 1 }, ⟨?_, opens.trans (Nat.le_succ _), few, ?_⟩, Nat.lt_succ_of_le opens⟩
    · rw [more.inodes, here, one]
      rfl
    · cases n with
      | dev d =>
        obtain ⟨j, there, ops⟩ := mounted.devs d
        rw [here] at there
        cases there
        exact ops
      | sfs k =>
        dsimp only
        unfold nodeDin
        rw [here, more.sfs]
        exact ⟨rfl, mounted.kinds k i here⟩
  | read absent linked ops =>
    rename_i ino inOps
    refine ⟨⟨1, 0, inOps, 1⟩, ⟨?_, Nat.zero_le 1, (by decide : 1 < MAX_INODE_COUNT), ?_⟩, Nat.zero_lt_one⟩
    · rw [more.inodes, one]
      unfold Vfs.adopt
      dsimp only
      rw [Function.update_self]
      rfl
    · dsimp only
      unfold nodeDin
      rw [absent, more.sfs]
      refine ⟨?_, ops⟩
      unfold Vfs.adopt
      dsimp only
      rw [Function.update_self]

theorem inode_of_run (here : w.inodes n = some i) : inodeOf n w = .ok (i, w) := by
  unfold inodeOf
  rw [run_get_bind, here]
  rfl

theorem inode_op {op : Vop} (here : w.inodes n = some i) (opens : i.openCount ≤ i.refCount) (few : i.refCount < MAX_INODE_COUNT)
    (has : op ∈ i.inOps.ops) : vopOp n op w = .ok (i.inOps, w) := by
  unfold vopOp
  rw [run_bind (inode_of_run here), run_check_bind has, run_check_bind opens, run_check_bind ⟨few, by omega⟩]
  rfl

theorem inode_no_op {op : Vop} (here : w.inodes n = some i) (lacks : op ∉ i.inOps.ops) : vopOp n op w = .error (.nullOp op) := by
  unfold vopOp
  rw [run_bind (inode_of_run here)]
  exact run_check_stop lacks

theorem usable_op {op : Vop} (usable : Usable v n w i) (has : op ∈ i.inOps.ops) : vopOp n op w = .ok (i.inOps, w) :=
  inode_op usable.here usable.opens usable.few has

/- The table of an inode of the volume. -/
theorem usable_table (usable : Usable v (.sfs k) w i) :
    ((nodeDin v k).type = .dir ∧ i.inOps = .sfsNodeDirops) ∨ ((nodeDin v k).type = .file ∧ i.inOps = .sfsNodeFileops) := by
  have kind : _ ∧ _ := usable.kind
  obtain ⟨-, kind⟩ := kind
  cases type : (nodeDin v k).type with
  | dir =>
    rw [type] at kind
    exact .inl ⟨rfl, (Option.some.inj kind).symm⟩
  | file =>
    rw [type] at kind
    exact .inr ⟨rfl, (Option.some.inj kind).symm⟩
  | link | inval =>
    rw [type] at kind
    cases kind

theorem usable_open (usable : Usable v n w i) : vopOpen n openFlags w = .ok (nodeOpen (wholeTree v) n openFlags, w) := by
  unfold vopOpen
  cases n with
  | dev d =>
    have ops : i.inOps = .devNodeOps := usable.kind
    rw [run_bind (usable_op usable (by rw [ops]; decide)), ops]
    dsimp only
    unfold devOpen nodeOpen
    split_ifs
    · rfl
    · rfl
  | sfs k =>
    unfold nodeOpen wholeTree
    rcases usable_table usable with ⟨type, ops⟩ | ⟨type, ops⟩
    · rw [run_bind (usable_op usable (by rw [ops]; decide)), ops]
      dsimp only
      rw [type, if_pos rfl]
      rfl
    · rw [run_bind (usable_op usable (by rw [ops]; decide)), ops]
      dsimp only
      rw [type, if_neg (by decide)]
      rfl

/- An inode that is clean loses its only reference: it goes, or another reclaim is under way. -/
theorem reclaim_clean_run {ino reclaims : Nat} {inOps : InodeOps} (here : w.inodes (.sfs ino) = some ⟨1, 0, inOps, reclaims⟩)
    (counted : 0 < reclaims) (node : inOps ≠ .devNodeOps) (linked : (w.sfs.inodes ino).din.nlinks ≠ 0)
    (clean : (w.sfs.inodes ino).dirty = false) :
    inodeRefDec (.sfs ino) w =
      .ok (0, w.withInode (.sfs ino) (if reclaims = 1 then none else some ⟨0, 0, inOps, reclaims - 1⟩)) := by
  let w₁ := w.withInode (.sfs ino) (some ⟨0, 0, inOps, reclaims⟩)
  let w₂ := w.withInode (.sfs ino) (some ⟨0, 0, inOps, reclaims - 1⟩)
  have again (a b : Option Inode) : (w.withInode (.sfs ino) a).withInode (.sfs ino) b = w.withInode (.sfs ino) b := by
    unfold Vfs.withInode
    dsimp only
    rw [Function.update_idem]
  have inode : onSfs (sfsInode ino) w₂ = .ok (w.sfs.inodes ino, w₂) := rfl
  have flushed : sfsReclaimFlush (.sfs ino) ino w₂ = .ok (0, w₂) := by
    unfold sfsReclaimFlush
    rw [run_bind inode]
    dsimp only
    rw [if_neg linked, run_bind run_pure, if_neg (by decide), run_bind inode, clean]
    rfl
  have freed : onSfs (sfsFreeInode ino) w₂ = .ok ((), w₂) := by
    have linked₂ : (w₂.sfs.inodes ino).din.nlinks ≠ 0 := linked
    refine on_sfs_same ?_
    unfold sfsFreeInode
    rw [run_bind inode_run, if_neg linked₂]
    rfl
  have killed : inodeKill (.sfs ino) w₂ = .ok ((), w.withInode (.sfs ino) none) := by
    unfold inodeKill
    rw [run_bind (inode_of_run with_inode_self), run_check_bind rfl, run_check_bind rfl,
      ← again (some ⟨0, 0, inOps, reclaims - 1⟩) none]
    rfl
  have reclaimed : ∃ ret, sfsReclaim (.sfs ino) w₁ =
      .ok (ret, w.withInode (.sfs ino) (if reclaims = 1 then none else some ⟨0, 0, inOps, reclaims - 1⟩)) := by
    unfold sfsReclaim
    rw [run_bind (show sfsInfo (.sfs ino) w₁ = .ok (ino, w₁) from rfl), run_bind (inode_of_run with_inode_self),
      run_check_bind counted]
    have set : setInode (.sfs ino) (some ⟨0, 0, inOps, reclaims - 1⟩) w₁ = .ok ((), w₂) :=
      congrArg (fun v => Except.ok ((), v)) (again _ _)
    change ∃ ret, (setInode (.sfs ino) (some ⟨0, 0, inOps, reclaims - 1⟩) >>= _) w₁ = _
    rw [run_bind set]
    dsimp only
    by_cases last : reclaims = 1
    · have unreferred : ¬ (reclaims - 1 ≠ 0 ∨ (0 : Nat) ≠ 0) := by omega
      rw [if_neg unreferred, run_bind flushed, if_neg (by decide), run_bind freed, run_bind killed, if_pos last]
      exact ⟨0, rfl⟩
    · have busy : reclaims - 1 ≠ 0 ∨ (0 : Nat) ≠ 0 := by omega
      rw [if_pos busy, if_neg last]
      exact ⟨_, rfl⟩
  obtain ⟨ret, reclaimed⟩ := reclaimed
  have has : .vopReclaim ∈ inOps.ops := by
    cases inOps with
    | sfsNodeDirops | sfsNodeFileops => decide
    | devNodeOps => exact absurd rfl node
  have op : vopOp (.sfs ino) .vopReclaim w₁ = .ok (inOps, w₁) :=
    inode_op with_inode_self (Nat.le_refl 0) (by decide : 0 < MAX_INODE_COUNT) has
  have dispatched : vopReclaim (.sfs ino) w₁ =
      .ok (ret, w.withInode (.sfs ino) (if reclaims = 1 then none else some ⟨0, 0, inOps, reclaims - 1⟩)) := by
    unfold vopReclaim
    rw [run_bind op]
    cases inOps with
    | sfsNodeDirops | sfsNodeFileops => exact reclaimed
    | devNodeOps => exact absurd rfl node
  unfold inodeRefDec
  rw [run_bind (inode_of_run here), run_check_bind Nat.zero_lt_one]
  change (setInode (.sfs ino) (some ⟨0, 0, inOps, reclaims⟩) >>= _) w = _
  rw [run_bind (show setInode (.sfs ino) (some ⟨0, 0, inOps, reclaims⟩) w = .ok ((), w₁) from rfl),
    if_pos (show (1 : Nat) - 1 = 0 from rfl), run_bind dispatched]
  rfl

theorem same_tree_gone (same : SameTree v w) (absent : v.inodes (.sfs k) = none) : SameTree v (w.withInode (.sfs k) none) := by
  refine ⟨trans_of Frame same.frame with_inode_frame, same.sfs, fun g i here => ?_, fun g => ?_⟩
  · obtain ⟨inode, j, there⟩ := same.present g i here
    have ne : Node.sfs g ≠ .sfs k := by
      intro equal
      rw [equal, absent] at here
      cases here
    exact ⟨inode, j, (with_inode_other ne).trans there⟩
  · have other := same.dins g
    unfold nodeDin at other ⊢
    by_cases here : g = k
    · subst g
      rw [with_inode_self, absent]
      dsimp only
      rw [show (w.withInode (.sfs k) none).sfs = w.sfs from rfl, same.sfs]
    · rw [with_inode_other (by simpa using here)]
      exact other

/- The reference that lookup gives is dropped at once. -/
theorem release_run (mounted : VfsMounted v D) (leaves : Leaves v 0 (.ok n) w) :
    ∃ c t, inodeRefDec n w = .ok (c, t) ∧ SameTree v t := by
  have same := leaves_same_tree leaves
  obtain ⟨u, used, found, more⟩ := leaves
  cases found with
  | present here =>
    have held : given (.ok n) + 0 = n ::ₘ 0 := by
      rw [add_zero]
      rfl
    obtain ⟨t, dec, more'⟩ := ref_dec_run (held ▸ more) here (mounted.counts _ _ here).1
    exact ⟨_, t, dec, more_same_tree more'⟩
  | read absent linked ops =>
    rename_i ino inOps
    have one : (given (.ok (.sfs ino)) + 0).count (.sfs ino) = 1 := by
      rw [add_zero]
      exact Multiset.count_singleton_self _
    have here : w.inodes (.sfs ino) = some ⟨1, 0, inOps, 1⟩ := by
      rw [more.inodes, one]
      unfold Vfs.adopt
      dsimp only
      rw [Function.update_self]
      rfl
    have loaded : w.sfs.inodes ino = ⟨bytesDiskInode (v.sfs.disk ino), false⟩ := by
      rw [more.sfs]
      exact Function.update_self _ _ _
    have node : inOps ≠ .devNodeOps := by
      cases type : (bytesDiskInode (v.sfs.disk ino)).type with
      | dir | file =>
        rw [type] at ops
        cases ops
        decide
      | link | inval =>
        rw [type] at ops
        cases ops
    exact ⟨_, _, reclaim_clean_run here Nat.zero_lt_one node (by rw [loaded]; exact linked) (by rw [loaded]),
      same_tree_gone same absent⟩

end Open
end Ucore
