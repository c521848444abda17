import Ucore.Fs.Vfs.OpenRuns
import Ucore.Fs.DescriptorCalls

/- What an open does to the files of a mounted volume. -/
namespace Ucore
open Programs

/-- The blocks of the files that names lead to are mapped as they should be. -/
structure Stored (v : Vfs) (D : Set Nat) : Prop extends VfsMounted v D where
  files : ∀ k ∈ D, ∀ name ino, findEntry v.sfs k name = some ino → (nodeDin v ino).type = .file →
    BlockMaps (wholeTree v) {ino} ∧ (nodeDin v ino).blocks = blocksFor (nodeDin v ino).size

def hasMode (openFlags : Nat) (write : Bool) : Prop := ∃ readable, accessMode openFlags = some (readable, write)

/-- Lookup stops, or a name is to be created, which no inode can. -/
def NodeStops (v : Vfs) (path : Name) (openFlags : Nat) : Prop :=
  LookupStops v path ∨
    hasFlag openFlags O_CREAT = true ∧ pathAnswer v path = .error (-E_NOENT) ∧ startOf v (pathLeft path) ≠ none

/-- A directory is to be truncated, which it cannot be. -/
def DirStops (v : Vfs) (path : Name) (openFlags : Nat) : Prop :=
  hasFlag openFlags O_CREAT = true ∧ hasFlag openFlags O_EXCL = false ∧
    ∃ k, pathAnswer v path = .ok (.sfs k) ∧ (nodeDin v k).type = .dir ∧ sfsOpendir openFlags = 0

def OpenStops (v : Vfs) (path : Name) (openFlags : Nat) : Prop :=
  (∃ readable writable, accessMode openFlags = some (readable, writable) ∧ (hasFlag openFlags O_TRUNC = true → writable = true)) ∧
    (NodeStops v path openFlags ∨ DirStops v path openFlags)

/-- The path leads to a file with bytes, which is opened with `O_CREAT` and neither `O_EXCL` nor `O_TRUNC`. -/
def Clobbers (v : Vfs) (path : Name) (openFlags : Nat) : Prop :=
  accessMode openFlags ≠ none ∧ hasFlag openFlags O_CREAT = true ∧ hasFlag openFlags O_EXCL = false ∧
    hasFlag openFlags O_TRUNC = false ∧ ¬ LookupStops v path ∧
    ∃ k, pathAnswer v path = .ok (.sfs k) ∧ (nodeDin v k).type = .file ∧ (nodeDin v k).size ≠ 0

/-- What an open comes to. Only the last case changes a file. -/
inductive Opened (v : Vfs) (path : Name) (openFlags : Nat) : Except VfsStop (Except Int Node × Vfs) → Prop where
  | stops {reason : VfsStop} (why : OpenStops v path openFlags) : Opened v path openFlags (.error reason)
  | fails {e : Int} {w : Vfs} (goes : ¬ OpenStops v path openFlags) (kept : ¬ Clobbers v path openFlags) (same : SameTree v w) :
      Opened v path openFlags (.ok (.error e, w))
  | keeps {n : Node} {i : Inode} {w : Vfs} (goes : ¬ OpenStops v path openFlags) (kept : ¬ Clobbers v path openFlags)
      (same : SameTree v w) (usable : Usable v n w i) : Opened v path openFlags (.ok (.ok n, w))
  | empties {ino : Nat} {i : Inode} {w : Vfs} (goes : ¬ OpenStops v path openFlags) (ended : ¬ LookupStops v path)
      (found : pathAnswer v path = .ok (.sfs ino)) (file : (nodeDin v ino).type = .file) (some_bytes : (nodeDin v ino).size ≠ 0) (mode : accessMode openFlags ≠ none)
      (shared : ¬ (hasFlag openFlags O_EXCL = true ∧ hasFlag openFlags O_CREAT = true))
      (asked : hasFlag openFlags O_TRUNC = true ∨ hasFlag openFlags O_CREAT = true)
      (write : hasFlag openFlags O_TRUNC = true → hasMode openFlags true) (frame : Frame v w) (usable : Usable v (.sfs ino) w i)
      (size : (nodeDin w ino).size = 0) : Opened v path openFlags (.ok (.ok (.sfs ino), w))

section
variable {v w : Vfs} {D : Set Nat} {n : Node} {k : Nat} {i : Inode} {path : Name} {openFlags : Nat}

theorem maps_of_same_inode {s t : Sfs} (maps : BlockMaps s {k}) (same : t = { s with inodes := t.inodes })
    (din : (t.inodes k).din = (s.inodes k).din) : BlockMaps t {k} := by
  have pointers (a : Slot) : pointer t k a = pointer s k a := by
    unfold pointer entry
    rw [din, same]
  have inuse (b : Nat) : InUse t b ↔ InUse s b := by
    unfold InUse
    rw [same]
  have map := maps.map k rfl
  have volume := maps.volume
  refine ⟨?_, ?_, ?_⟩
  · rw [same]
    exact ⟨volume.device, volume.addressable, volume.words, volume.covered, volume.free, volume.counted⟩
  · rintro g rfl
    refine ⟨din ▸ map.bounded, fun i below => ?_, fun i high top => ?_, fun some => ?_⟩
    · rw [pointers, inuse]
      exact map.below i (din ▸ below)
    · rw [pointers]
      exact map.above i (din ▸ high) top
    · rw [din] at some ⊢
      exact (inuse _).mpr (map.entries some)
  · rintro f rfl g rfl a b aValid bValid nonzero equal
    rw [pointers] at nonzero
    rw [pointers, pointers] at equal
    exact maps.unshared _ rfl _ rfl a b aValid bValid nonzero equal

theorem vop_create_stops (n : Node) (v : Vfs) : ∃ reason, vopCreate n v = .error reason := by
  cases here : v.inodes n with
  | none =>
    refine ⟨.dangling, run_bind_stop (run_bind_stop ?_)⟩
    unfold inodeOf
    rw [run_get_bind, here]
    rfl
  | some i =>
    refine ⟨.nullOp .vopCreate, run_bind_stop (inode_no_op here ?_)⟩
    cases i.inOps <;> decide

theorem same_tree_refl : SameTree v v := more_same_tree more_refl

theorem more_mounted {t : Vfs} {used : Nat} (mounted : VfsMounted v D) (more : More v 0 used t) : VfsMounted t D := by
  have inodes : t.inodes = v.inodes := by
    funext m
    rw [more.inodes, Multiset.count_zero]
    exact congrFun Option.map_id _
  exact ⟨by rw [more.sfs]; exact mounted.maps, by rw [more.sfs, inodes]; exact mounted.dirs, by rw [more.sfs, inodes]; exact mounted.kinds,
    by rw [inodes]; exact mounted.devs, by rw [inodes]; exact mounted.counts, by rw [more.frame.bootfs]; exact mounted.boot,
    by rw [more.frame.files, more.frame.current]; exact mounted.pwd, by rw [more.sfs, inodes]; exact mounted.entries⟩

theorem start_same {t : Vfs} (frame : Frame v t) (path : Name) : startOf t path = startOf v path := by
  unfold startOf
  rw [frame.files, frame.current, frame.bootfs]

/- The parent of a name that is missing, and the creation. -/
theorem create_cases (mounted : VfsMounted v D) (leaves : Leaves v 0 (.error (-E_NOENT)) w) (path : Name) :
    (startOf v path ≠ none ∧ ∃ dir t reason, vfsLookupParent path w = .ok (.ok dir, t) ∧ vopCreate dir.1 t = .error reason) ∨
      (startOf v path = none ∧ ∃ e, vfsLookupParent path w = .ok (.error e, w)) := by
  obtain ⟨u, used, found, more⟩ := leaves
  cases found
  have mounted' : VfsMounted w D := more_mounted mounted (by rwa [given, zero_add] at more)
  have starts := start_same more.frame path
  unfold vfsLookupParent
  cases here : startOf v path with
  | none =>
    rw [here] at starts
    exact .inr ⟨rfl, _, get_device_none (by rw [mounted'.boot.1]; exact Option.some_ne_none _) starts⟩
  | some start =>
    rw [here] at starts
    obtain ⟨t, ran, _⟩ := get_device_run mounted' starts
    obtain ⟨reason, stopped⟩ := vop_create_stops start.1 t
    exact .inl ⟨Option.some_ne_none _, start, t, reason, ran, stopped⟩

/- `vfs_open` up to `vop_open`. -/
theorem open_node_cases (mounted : VfsMounted v D) (path : Name) (openFlags : Nat) :
    (NodeStops v path openFlags ∧ ∃ reason, vfsOpenNode path openFlags v = .error reason) ∨
    (¬ NodeStops v path openFlags ∧ (∀ n, pathAnswer v path = .ok n → hasFlag openFlags O_EXCL = true) ∧
      ∃ e w, vfsOpenNode path openFlags v = .ok (.error e, w) ∧ SameTree v w) ∨
    (¬ NodeStops v path openFlags ∧ ∃ n w, vfsOpenNode path openFlags v = .ok (.ok n, w) ∧ pathAnswer v path = .ok n ∧
      Leaves v 0 (.ok n) w ∧ NamedIn v D (.ok n) ∧ ¬ (hasFlag openFlags O_EXCL = true ∧ hasFlag openFlags O_CREAT = true)) := by
  unfold vfsOpenNode
  rcases vfs_lookup_total mounted path with ⟨why, stopped⟩ | ⟨goes, w, ran, leaves, named⟩
  · exact .inl ⟨.inl why, _, run_bind_stop stopped⟩
  have same := leaves_same_tree leaves
  rw [run_bind ran]
  cases answer : pathAnswer v path with
  | error ret =>
    dsimp only
    by_cases creates : ret = -16 ∧ hasFlag openFlags O_CREAT = true
    · obtain ⟨rfl, create⟩ := creates
      rw [if_pos ⟨rfl, create⟩]
      rw [answer] at leaves
      rcases create_cases mounted leaves (pathLeft path) with ⟨starts, dir, t, reason, parent, stopped⟩ | ⟨starts, e, parent⟩
      · rw [run_bind parent]
        exact .inl ⟨.inr ⟨create, answer, starts⟩, reason, run_bind_stop stopped⟩
      · rw [run_bind parent]
        exact .inr (.inl ⟨fun stops => stops.elim goes fun missing => missing.2.2 starts, nofun, e, w, rfl, same⟩)
    · rw [if_neg creates]
      refine .inr (.inl ⟨?_, nofun, ret, w, rfl, same⟩)
      rintro (stops | ⟨create, missing, -⟩)
      · exact goes stops
      · rw [answer] at missing
        cases missing
        exact creates ⟨rfl, create⟩
  | ok n =>
    have goes' : ¬ NodeStops v path openFlags := by
      rintro (stops | ⟨-, missing, -⟩)
      · exact goes stops
      · rw [answer] at missing
        cases missing
    dsimp only
    by_cases exclusive : hasFlag openFlags O_EXCL = true ∧ hasFlag openFlags O_CREAT = true
    · rw [if_pos exclusive]
      exact .inr (.inl ⟨goes', fun _ _ => exclusive.1, _, w, rfl, same⟩)
    · rw [if_neg exclusive]
      rw [answer] at leaves named
      exact .inr (.inr ⟨goes', n, w, rfl, rfl, leaves, named, exclusive⟩)

theorem same_tree_with_inode {j : Inode} (same : SameTree v w) (here : w.inodes n = some i) :
    SameTree v (w.withInode n (some j)) := by
  refine ⟨trans_of Frame same.frame with_inode_frame, same.sfs, fun g m there => ?_, fun g => ?_⟩
  · obtain ⟨inode, m', there'⟩ := same.present g m there
    refine ⟨inode, ?_⟩
    by_cases equal : Node.sfs g = n
    · rw [equal, with_inode_self]
      exact ⟨j, rfl⟩
    · exact ⟨m', (with_inode_other equal).trans there'⟩
  · have other := same.dins g
    unfold nodeDin at other ⊢
    by_cases equal : Node.sfs g = n
    · rw [equal, with_inode_self]
      rw [equal, here] at other
      exact other
    · rw [with_inode_other equal]
      exact other

/- A directory or a device has no `vop_truncate`. -/
theorem no_truncate (here : w.inodes n = some i) (other : i.inOps ≠ .sfsNodeFileops) :
    vopTruncate n 0 w = .error (.nullOp .vopTruncate) := by
  unfold vopTruncate
  refine run_bind_stop (inode_no_op here ?_)
  cases ops : i.inOps with
  | sfsNodeFileops => exact absurd ops other
  | sfsNodeDirops | devNodeOps => decide

/- A file is emptied, or was empty. -/
theorem truncate_cases (same : SameTree v w) (maps : BlockMaps (wholeTree v) {k})
    (fitted : (nodeDin v k).blocks = blocksFor (nodeDin v k).size) (usable : Usable v (.sfs k) w i) (ops : i.inOps = .sfsNodeFileops) :
    ((nodeDin v k).size = 0 ∧ vopTruncate (.sfs k) 0 w = .ok (0, w)) ∨
    ((nodeDin v k).size ≠ 0 ∧ ∃ s, vopTruncate (.sfs k) 0 w = .ok (0, { w with sfs := s }) ∧ (s.inodes k).din.size = 0 ∧
      Usable v (.sfs k) { w with sfs := s } i) := by
  have din : (w.sfs.inodes k).din = nodeDin v k := by
    rw [← same.dins k]
    unfold nodeDin
    rw [usable.here]
  have outcome := truncfile_outcome (maps_of_same_inode (t := w.sfs) maps same.sfs din) rfl 0
  have run : vopTruncate (.sfs k) 0 w = onSfs (sfsTruncfile k 0) w := by
    unfold vopTruncate
    rw [run_bind (usable_op usable (by rw [ops]; decide)), ops]
    rfl
  rw [run, ← din]
  rw [← din] at fitted
  unfold onSfs
  generalize truncated : sfsTruncfile k 0 w.sfs = result at outcome
  cases outcome with
  | invalid bad => exact absurd bad (by decide)
  | asItWas good zero fitted' => exact .inl ⟨zero, rfl⟩
  | mismatch good zero ahead => exact absurd (fitted.trans (congrArg blocksFor zero)).symm ahead
  | enlarged t good new more => exact absurd more (Nat.not_lt_zero _)
  | full t good new more => exact absurd more (Nat.not_lt_zero _)
  | pastEnd good new more => exact absurd more (Nat.not_lt_zero _)
  | reduced t good new fewer shrunk =>
    have kinds := (same_kinds_of_run keeps_truncfile truncated).kind k
    exact .inr ⟨new, _, rfl, resize_size, usable.here, usable.opens, usable.few, kinds.type.trans usable.kind.1, usable.kind.2⟩

/- The file that lookup has answered. -/
theorem file_maps (stored : Stored v D) (usable : Usable v n w i) (named : NamedIn v D (.ok n)) (ops : i.inOps = .sfsNodeFileops) :
    ∃ k, n = .sfs k ∧ (nodeDin v k).type = .file ∧ BlockMaps (wholeTree v) {k} ∧
      (nodeDin v k).blocks = blocksFor (nodeDin v k).size := by
  cases n with
  | dev d =>
    have kind : i.inOps = .devNodeOps := usable.kind
    rw [ops] at kind
    cases kind
  | sfs k =>
    have file : (nodeDin v k).type = .file := by
      rcases usable_table usable with ⟨_, dirops⟩ | ⟨file, _⟩
      · rw [ops] at dirops
        cases dirops
      · exact file
    refine ⟨k, rfl, file, ?_⟩
    rcases named k rfl with dir | ⟨k', mem, name, entry⟩
    · obtain ⟨type, j, here⟩ := stored.dirs k dir
      unfold nodeDin at file
      rw [here] at file
      rw [type] at file
      cases file
    · exact stored.files k' mem name k entry file

theorem not_stops (node : ¬ NodeStops v path openFlags) (dir : ¬ DirStops v path openFlags) : ¬ OpenStops v path openFlags := by
  rintro ⟨-, stops | stops⟩
  · exact node stops
  · exact dir stops

theorem dir_no_write {readable : Bool} (opendir : sfsOpendir openFlags = 0) : accessMode openFlags ≠ some (readable, true) := by
  unfold sfsOpendir at opendir
  by_cases reads : openFlags &&& O_ACCMODE = O_RDONLY
  · unfold accessMode
    rw [if_pos reads]
    nofun
  · rw [if_pos reads] at opendir
    exact absurd opendir (by decide)

/- Once the inode is found and its operation has let it be opened. -/
theorem open_found_cases (stored : Stored v D) {readable writable : Bool} (mode : accessMode openFlags = some (readable, writable))
    (allowed : hasFlag openFlags O_TRUNC = true → writable = true) (goes : ¬ NodeStops v path openFlags) (found : pathAnswer v path = .ok n)
    (leaves : Leaves v 0 (.ok n) w) (named : NamedIn v D (.ok n)) (ready : Ready v n w i)
    (shared : ¬ (hasFlag openFlags O_EXCL = true ∧ hasFlag openFlags O_CREAT = true)) (accepted : nodeOpen (wholeTree v) n openFlags = 0) :
    Opened v path openFlags ((do
      let _ ← inodeOpenInc n
      if hasFlag openFlags O_TRUNC ∨ hasFlag openFlags O_CREAT then
        let ret ← vopTruncate n 0
        if ret ≠ 0 then
          let _ ← inodeOpenDec n
          let _ ← inodeRefDec n
          return .error ret
        else return .ok n
      else return .ok n : VfsM (Except Int Node)) w) := by
  let w₁ := w.withInode n (some { i with openCount := i.openCount + 1 })
  have inc : inodeOpenInc n w = .ok (i.openCount + 1, w₁) := by
    unfold inodeOpenInc
    rw [run_bind (inode_of_run ready.here)]
    rfl
  have same : SameTree v w₁ := same_tree_with_inode (leaves_same_tree leaves) ready.here
  have usable : Usable v n w₁ { i with openCount := i.openCount + 1 } :=
    ⟨with_inode_self, ready.spare, ready.few, by cases n <;> exact ready.kind⟩
  rw [run_bind inc]
  by_cases asked : hasFlag openFlags O_TRUNC = true ∨ hasFlag openFlags O_CREAT = true
  · rw [if_pos asked]
    by_cases ops : i.inOps = .sfsNodeFileops
    · obtain ⟨k, rfl, file, maps, fitted⟩ := file_maps stored usable named ops
      have stays : ¬ OpenStops v path openFlags := by
        refine not_stops goes ?_
        rintro ⟨-, -, k', found', dir, -⟩
        rw [found] at found'
        cases found'
        rw [file] at dir
        cases dir
      rcases truncate_cases same maps fitted usable ops with ⟨empty, kept⟩ | ⟨some_bytes, s, emptied, size, usable'⟩
      · rw [run_bind kept, if_neg (by decide)]
        refine .keeps stays ?_ same usable
        rintro ⟨-, -, -, -, -, k', found', -, some_bytes⟩
        rw [found] at found'
        cases found'
        exact some_bytes empty
      · rw [run_bind emptied, if_neg (by decide)]
        refine .empties stays (fun stops => goes (.inl stops)) found file some_bytes (by rw [mode]; exact Option.some_ne_none _)
          shared asked (fun trunc => ⟨readable, allowed trunc ▸ mode⟩) ⟨same.frame.bootfs, same.frame.procs, same.frame.files, same.frame.current⟩
          usable' ?_
        unfold nodeDin
        dsimp only
        rw [usable.here]
        exact size
    · rw [run_bind_stop (no_truncate usable.here ops)]
      cases n with
      | dev d => exact absurd asked (dev_opens_clean (d := ⟨wholeTree v, fun _ => none⟩) accepted)
      | sfs k =>
        have dir : (nodeDin v k).type = .dir := by
          rcases usable_table usable with ⟨dir, -⟩ | ⟨-, fileops⟩
          · exact dir
          · exact absurd fileops ops
        have opendir : sfsOpendir openFlags = 0 := by
          unfold nodeOpen wholeTree at accepted
          dsimp only at accepted
          rwa [if_pos dir] at accepted
        have trunc : hasFlag openFlags O_TRUNC = false := by
          cases trunc : hasFlag openFlags O_TRUNC with
          | false => rfl
          | true =>
            rw [allowed trunc] at mode
            exact absurd mode (dir_no_write opendir)
        have create : hasFlag openFlags O_CREAT = true := asked.resolve_left (by simp [trunc])
        have shared' : hasFlag openFlags O_EXCL = false := by
          rw [Bool.eq_false_iff]
          exact fun excl => shared ⟨excl, create⟩
        exact .stops ⟨⟨readable, writable, mode, allowed⟩, .inr ⟨create, shared', k, found, dir, opendir⟩⟩
  · rw [if_neg asked]
    refine .keeps (not_stops goes ?_) ?_ same usable
    · rintro ⟨create, -⟩
      exact asked (.inr create)
    · rintro ⟨-, create, -⟩
      exact asked (.inr create)

theorem vfs_open_cases (stored : Stored v D) (path : Name) (openFlags : Nat) :
    Opened v path openFlags (vfsOpen path openFlags v) := by
  unfold vfsOpen
  cases mode : accessMode openFlags with
  | none =>
    refine .fails ?_ (fun clobbers => clobbers.1 mode) same_tree_refl
    rintro ⟨⟨_, _, mode', -⟩, -⟩
    rw [mode] at mode'
    cases mode'
  | some access =>
    obtain ⟨readable, writable⟩ := access
    dsimp only
    by_cases refused : hasFlag openFlags O_TRUNC = true ∧ (!writable) = true
    · rw [if_pos refused]
      refine .fails ?_ ?_ same_tree_refl
      · rintro ⟨⟨_, _, mode', allowed⟩, -⟩
        rw [mode] at mode'
        cases mode'
        rw [allowed refused.1] at refused
        exact absurd refused.2 (by decide)
      · rintro ⟨-, -, -, kept, -⟩
        rw [refused.1] at kept
        cases kept
    rw [if_neg refused]
    have allowed : hasFlag openFlags O_TRUNC = true → writable = true := fun trunc => by simpa [trunc] using refused
    rcases open_node_cases stored.toVfsMounted path openFlags with ⟨why, _, stopped⟩ | ⟨goes, exclusive, e, w, ran, same⟩ |
      ⟨goes, n, w, ran, found, leaves, named, shared⟩
    · rw [run_bind_stop stopped]
      exact .stops ⟨⟨readable, writable, mode, allowed⟩, .inl why⟩
    · rw [run_bind ran]
      refine .fails (not_stops goes ?_) ?_ same
      · rintro ⟨-, shared, k, found, -⟩
        rw [exclusive _ found] at shared
        cases shared
      · rintro ⟨-, -, shared, -, -, k, found, -⟩
        rw [exclusive _ found] at shared
        cases shared
    · rw [run_bind ran]
      dsimp only
      obtain ⟨i, ready⟩ := leaves_ready stored.toVfsMounted leaves
      rw [run_bind (usable_open ready.toUsable)]
      by_cases denied : nodeOpen (wholeTree v) n openFlags ≠ 0
      · obtain ⟨c, t, released, same⟩ := release_run stored.toVfsMounted leaves
        rw [if_pos denied, run_bind released]
        unfold nodeOpen wholeTree at denied
        refine .fails (not_stops goes ?_) ?_ same
        · rintro ⟨-, -, k, found', dir, opendir⟩
          rw [found] at found'
          cases found'
          dsimp only at denied
          rw [if_pos dir] at denied
          exact denied opendir
        · rintro ⟨-, -, -, -, -, k, found', file, -⟩
          rw [found] at found'
          cases found'
          dsimp only at denied
          rw [file] at denied
          exact denied rfl
      · rw [if_neg denied]
        exact open_found_cases stored mode allowed goes found leaves named ready shared (not_not.mp denied)

/- An open of a file never stops. -/
theorem open_ends {k : Nat} (why : OpenStops v path openFlags) (ended : ¬ LookupStops v path) (found : pathAnswer v path = .ok (.sfs k))
    (file : (nodeDin v k).type = .file) : False := by
  obtain ⟨-, (stops | ⟨-, missing, -⟩) | ⟨-, -, k', found', dir, -⟩⟩ := why
  · exact ended stops
  · rw [found] at missing
    cases missing
  · rw [found] at found'
    cases found'
    rw [file] at dir
    cases dir

theorem whole_tree_same (same : SameTree v w) : wholeTree w = wholeTree v := by
  have dins : nodeDin w = nodeDin v := funext same.dins
  unfold wholeTree
  rw [dins, same.sfs]

end

/-- An open changes the size or content of a file only if it is asked to truncate and may write, and no file
if it is an error. -/
def OpenPreserves (v : Vfs) (path : Name) (openFlags : Nat) : Prop :=
  ∀ r w, vfsOpen path openFlags v = .ok (r, w) →
    (∀ k, sfsFile (wholeTree w) k ≠ sfsFile (wholeTree v) k → hasFlag openFlags O_TRUNC = true ∧ hasMode openFlags true) ∧
    ∀ e, r = .error e → ∀ k, sfsFile (wholeTree w) k = sfsFile (wholeTree v) k

theorem open_clobbers {v : Vfs} {D : Set Nat} {path : Name} {openFlags : Nat} (stored : Stored v D)
    (clobbers : Clobbers v path openFlags) : ¬ OpenPreserves v path openFlags := by
  intro preserves
  have outcome := vfs_open_cases stored path openFlags
  obtain ⟨mode, create, shared, kept, ended, k, found, file, some_bytes⟩ := clobbers
  unfold OpenPreserves at preserves
  generalize vfsOpen path openFlags v = result at outcome preserves
  cases outcome with
  | stops why => exact open_ends why ended found file
  | fails _ safe | keeps _ safe => exact safe ⟨mode, create, shared, kept, ended, k, found, file, some_bytes⟩
  | @empties _ _ t _ _ found' _ _ _ _ _ _ _ _ size =>
    rw [found] at found'
    cases found'
    have changed : sfsFile (wholeTree t) k ≠ sfsFile (wholeTree v) k := by
      intro same
      have sizes := congrArg (·.size) same
      exact some_bytes (sizes.symm.trans size)
    have asked := ((preserves _ _ rfl).1 k changed).1
    rw [kept] at asked
    cases asked

/-- Opens preserve what they are not asked to truncate, except that `O_CREAT` empties files that exist. -/
theorem open_preserves_exactly_when {v : Vfs} {D : Set Nat} (stored : Stored v D) (path : Name) (openFlags : Nat) :
    OpenPreserves v path openFlags ↔ ¬ Clobbers v path openFlags := by
  have outcome := vfs_open_cases stored path openFlags
  constructor
  · intro preserves clobbers
    exact open_clobbers stored clobbers preserves
  · intro safe r w ran
    rw [ran] at outcome
    cases outcome with
    | fails _ _ same | keeps _ _ same =>
      rw [whole_tree_same same]
      exact ⟨fun k changed => absurd rfl changed, fun _ _ _ => rfl⟩
    | empties _ ended found file some_bytes mode shared asked write =>
      refine ⟨fun _ _ => ?_, nofun⟩
      cases trunc : hasFlag openFlags O_TRUNC with
      | true => exact ⟨rfl, write trunc⟩
      | false =>
        have create : hasFlag openFlags O_CREAT = true := asked.resolve_left (by simp [trunc])
        refine absurd ⟨mode, create, ?_, trunc, ended, _, found, file, some_bytes⟩ safe
        rw [Bool.eq_false_iff]
        exact fun excl => shared ⟨excl, create⟩

def oneByteFile : SfsDiskInode := { oneEntryDir 5 with size := 1, type := .file }

/- The root has a file `a` with one byte, and both are in memory. -/
def oneFile : Vfs :=
  { rootOnly with
    sfs := { twoLevels with
      disk := fun b => if b = 4 then diskInodeBytes oneByteFile else twoLevels.disk b
      inodes := fun k => if k = 4 then ⟨oneByteFile, false⟩ else twoLevels.inodes k }
    inodes := fun n => if n = .sfs 4 then some ⟨1, 0, .sfsNodeFileops, 1⟩ else rootOnly.inodes n }

theorem one_file_stored : Stored oneFile {1} := by
  have volume : Volume oneFile.sfs := by constructor <;> decide
  have slot : direntAt oneFile.sfs 1 0 = direntAt twoLevels 1 0 := rfl
  have ino : (direntAt twoLevels 1 0).ino = 4 := by decide +kernel
  refine ⟨⟨one_block_maps volume rfl rfl rfl (by decide), ?_, ?_, ?_, ?_, ⟨rfl, rfl⟩, ?_, ?_⟩, ?_⟩
  · rintro k rfl
    exact ⟨rfl, _, rfl⟩
  · intro k i here
    by_cases file : k = 4
    · subst k
      cases here
      rfl
    · by_cases root : k = 1
      · subst k
        cases here
        rfl
      · simp [oneFile, rootOnly, file, root] at here
  · intro d
    cases d <;> exact ⟨_, rfl, rfl⟩
  · intro n i here
    unfold oneFile rootOnly at here
    dsimp only at here
    split_ifs at here <;> cases here <;> decide
  · intro n here
    cases here
    exact ⟨1, rfl, rfl⟩
  · rintro k rfl i below _
    obtain rfl : i = 0 := by
      have : i < 1 := below
      omega
    rw [slot, ino]
    exact ⟨by decide, fun absent => absurd absent (Option.some_ne_none _)⟩
  · rintro k rfl name i entry file
    have matched : ∃ slot < 1, (direntAt oneFile.sfs 1 slot).ino = i := by
      obtain ⟨slot, found, rfl⟩ := Option.map_eq_some_iff.mp entry
      exact ⟨slot, List.mem_range.mp (List.mem_of_find?_eq_some found), rfl⟩
    obtain ⟨slot', below, rfl⟩ := matched
    obtain rfl : slot' = 0 := by omega
    rw [slot, ino]
    exact ⟨one_block_maps (s := wholeTree oneFile) (by constructor <;> decide) rfl rfl rfl (by decide), by decide⟩

/- `/a` is opened for reading. -/
theorem one_file_open_keeps : OpenPreserves oneFile [47, 97] O_RDONLY := by
  refine (open_preserves_exactly_when one_file_stored [47, 97] O_RDONLY).mpr ?_
  rintro ⟨-, create, -⟩
  exact absurd create (by decide)

/- With `O_CREAT` its byte is lost. -/
theorem one_file_open_empties : ¬ OpenPreserves oneFile [47, 97] (O_RDWR ||| O_CREAT) := by
  have start : startOf oneFile [47, 97] = some (.sfs 1, [97]) := by decide +kernel
  have answer : pathAnswer oneFile [47, 97] = .ok (.sfs 4) := by decide +kernel
  have ended : ¬ LookupStops oneFile [47, 97] := by
    rintro ⟨k, subpath, here, -, long | ⟨-, missed⟩⟩
    · rw [start] at here
      cases here
      exact absurd long (by decide)
    · rw [start] at here
      cases here
      refine missed fun ino entry absent => ?_
      have decided : findEntry oneFile.sfs 1 [97] = some 4 := by decide +kernel
      rw [decided] at entry
      cases entry
      cases absent
  exact open_clobbers one_file_stored ⟨by decide, by decide, by decide, by decide, ended, 4, answer, rfl, by decide⟩

end Ucore
