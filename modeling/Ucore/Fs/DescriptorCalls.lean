import Ucore.Fs.Descriptors
import Ucore.Fs.Sfs.SfsEntries

/- What a call on a descriptor asks of a regular file, and how it ends. -/
namespace Ucore
open Programs Words Transitions ByteFile

/- Whether `file_open` comes to truncate a regular file. -/
def truncatesOpened (openFlags : Nat) : Bool :=
  match accessMode openFlags with
  | none => false
  | some (_, writable) =>
      !(hasFlag openFlags O_TRUNC && !writable) &&
        !(hasFlag openFlags O_EXCL && hasFlag openFlags O_CREAT) &&
        (hasFlag openFlags O_TRUNC || hasFlag openFlags O_CREAT)

def Sfs.isFile (s : Sfs) (k : Nat) : Bool := (s.inodes k).din.type = .file

/- The call on a regular file that a descriptor with this access makes. -/
def Descriptor.ioCall (file : Descriptor) (s : Sfs) (write : Bool) (len : Nat) (buf : DiskBlock) :
    Option FileCall :=
  match file.node with
  | .dev _ => none
  | .sfs k =>
      if (if write then file.writable else file.readable) && s.isFile k
        then some (.io write k file.pos len buf) else none

def Descriptor.seekCall (file : Descriptor) (s : Sfs) (pos whence : Int) : Option FileCall :=
  match file.node, file.target s pos whence with
  | .sfs k, some pos => if s.isFile k then some (.tryseek k pos) else none
  | _, _ => none

/-- The call on a regular file that a call comes to. -/
def DescCall.fileCall (d : Descs) : DescCall → Option FileCall
  | .openNode r (.sfs k) openFlags =>
      if (d.opened r).isNone && d.sfs.isFile k && truncatesOpened openFlags
        then some (.truncate k 0) else none
  | .transfer write r len buf _ => (d.opened r).bind fun file => file.ioCall d.sfs write len buf
  | .seek r pos whence => (d.opened r).bind fun file => file.seekCall d.sfs pos whence
  | .truncate k len => if d.sfs.isFile k then some (.truncate k len) else none
  | .tryseek k pos => if d.sfs.isFile k then some (.tryseek k pos) else none
  | _ => none

/- The inodes that descriptors lead to: those they led to, and the one that is opened. -/
def Nodes (d : Descs) (c : DescCall) (t : Descs) : Prop :=
  ∀ r file, t.opened r = some file →
    (∃ q old, d.opened q = some old ∧ old.node = file.node) ∨
      ∃ q openFlags, c = .openNode q file.node openFlags

/-- The inode of the call has the operations of a regular file. -/
def DescCall.Regular (c : DescCall) (d : Descs) : Prop :=
  match c with
  | .openNode _ node _ => ∃ k, node = .sfs k ∧ d.sfs.isFile k = true
  | .transfer _ r _ _ _ | .seek r _ _ =>
      ∀ file, d.opened r = some file → ∃ k, file.node = .sfs k ∧ d.sfs.isFile k = true
  | .truncate k _ | .tryseek k _ => d.sfs.isFile k = true
  | .getdirentry _ _ _ => False
  | _ => True

/-- How a call ends. -/
inductive DescOutcome (d : Descs) (c : DescCall) : Except VfsStop (Int × Descs) → Prop where
  | aside (ret : Int) (t : Descs) (idle : c.fileCall d = none) (same : t.sfs = d.sfs)
      (nodes : Nodes d c t) : DescOutcome d c (.ok (ret, t))
  | flushed (k : Nat) (flush : c = .flush k) :
      DescOutcome d c (.ok (0, { d with sfs := synced d.sfs k }))
  | called (ret : Int) (t : Descs) (f : FileCall) (calls : c.fileCall d = some f) (a : Answer)
      (run : f.run d.sfs = .ok (a, t.sfs)) (nodes : Nodes d c t) : DescOutcome d c (.ok (ret, t))
  | stopped (e : SfsStop) (f : FileCall) (calls : c.fileCall d = some f)
      (run : f.run d.sfs = .error e) : DescOutcome d c (.error (.sfs e))
  | refused (op : Vop) (idle : c.fileCall d = none) (other : ¬ c.Regular d) :
      DescOutcome d c (.error (.nullOp op))
  | unread (e : SfsStop) (idle : c.fileCall d = none)
      (dir : ∃ r offset memory, c = .getdirentry r offset memory) : DescOutcome d c (.error (.sfs e))

/-- The regular files of the volume whose inodes are in memory, and the descriptors on them. -/
structure DescFiles (d : Descs) (F : Set Nat) : Prop where
  files : Files d.sfs F
  opened : ∀ r file k, d.opened r = some file → file.node = .sfs k → d.sfs.isFile k = true → k ∈ F

/-- The call names no regular file but those in memory. -/
def DescCall.Within (c : DescCall) (s : Sfs) (F : Set Nat) : Prop :=
  match c with
  | .openNode _ (.sfs k) _ => s.isFile k = true → k ∈ F
  | .truncate k _ | .tryseek k _ | .flush k => k ∈ F
  | _ => True

section
variable {d t : Descs} {F : Set Nat} {r : FileRef} {k : Nat}

theorem nodes_same {c : DescCall} (same : t.opened = d.opened) : Nodes d c t := by
  intro q file here
  rw [same] at here
  exact Or.inl ⟨q, file, here, rfl⟩

theorem nodes_update {c : DescCall} {s : Sfs} {file : Descriptor}
    (new : (∃ q old, d.opened q = some old ∧ old.node = file.node) ∨
      ∃ q openFlags, c = .openNode q file.node openFlags) :
    Nodes d c ⟨s, Function.update d.opened r (some file)⟩ := by
  intro q f here
  by_cases same : q = r
  · subst q
    have found : some file = some f := by simpa using here
    cases found
    exact new
  · have old : d.opened q = some f := by simpa [same] using here
    exact Or.inl ⟨q, f, old, rfl⟩

theorem nodes_closed {c : DescCall} {s : Sfs} :
    Nodes d c ⟨s, Function.update d.opened r none⟩ := by
  intro q f here
  by_cases same : q = r
  · subst q
    simp at here
  · have old : d.opened q = some f := by simpa [same] using here
    exact Or.inl ⟨q, f, old, rfl⟩

theorem on_volume_run {α : Type} {m : SfsM α} {a : α} {s : Sfs} (run : m d.sfs = .ok (a, s)) :
    onVolume m d = .ok (a, { d with sfs := s }) := by
  unfold onVolume
  rw [run]

theorem on_volume_stop {α : Type} {m : SfsM α} {e : SfsStop} (run : m d.sfs = .error e) :
    onVolume m d = .error (.sfs e) := by
  unfold onVolume
  rw [run]

theorem on_file_run {α : Type} {m : SfsM α} {op : Vop} (file : d.sfs.isFile k = true) :
    onFile op k m d = onVolume m d := by
  unfold onFile
  rw [run_get_bind, if_pos (of_decide_eq_true file)]

theorem on_file_refused {α : Type} {m : SfsM α} {op : Vop} (file : ¬ d.sfs.isFile k = true) :
    onFile op k m d = .error (.nullOp op) := by
  unfold onFile
  have other : ¬ (d.sfs.inodes k).din.type = .file := fun here => file (decide_eq_true here)
  rw [run_get_bind, if_neg other]
  rfl

theorem run_answer {m : SfsM Int} {s : Sfs} {ret : Int} {u : Sfs} (run : m s = .ok (ret, u)) :
    answerOf m s = .ok ((ret, 0, fun _ => 0), u) := by
  unfold answerOf
  rw [run_bind run]
  rfl

theorem run_answer_stop {m : SfsM Int} {s : Sfs} {e : SfsStop} (run : m s = .error e) :
    answerOf m s = .error e := by
  unfold answerOf
  rw [run_bind_stop run]

/- A transfer moves no more bytes than it is asked for. -/
theorem io_count {s u : Sfs} {write : Bool} {offset : Int} {len : Nat} {buf out : DiskBlock}
    {ret : Int} {alen : Nat} (files : Files s F) (mem : k ∈ F)
    (run : sfsIoNolock k buf offset len write s = .ok ((ret, alen, out), u)) : alen ≤ len := by
  have file : (s.inodes k).din.type ≠ .dir := by
    rw [files.regular k mem]
    decide
  have outcome := io_outcome files.maps mem file buf offset len write
  rw [run] at outcome
  have ends : 0 ≤ offset → ioEnd (s.inodes k).din.size write offset.toNat len ≤ offset.toNat + len := by
    intro positive
    unfold ioEnd i64
    dsimp only
    split_ifs <;> omega
  generalize same : (Except.ok ((ret, alen, out), u) : Except SfsStop (Answer × Sfs)) = r at outcome
  cases outcome with
  | invalid bad =>
    cases same
    exact Nat.zero_le len
  | nothing good empty =>
    cases same
    exact Nat.zero_le len
  | moved v good some start within near written =>
    cases same
    have := ends good.1
    unfold served
    omega
  | stuck v good some start within far idle =>
    cases same
    exact Nat.zero_le len
  | beyond good some far => cases same
  | pastEnd good some start past => cases same

theorem ret_of_run {α : Type} {m : DescM α} {ret : α → Int} {a : α} (run : m d = .ok (a, t)) :
    retOf m ret d = .ok (ret a, t) := by
  unfold retOf
  rw [run_bind run]
  rfl

theorem ret_of_stop {α : Type} {m : DescM α} {ret : α → Int} {e : VfsStop}
    (run : m d = .error e) : retOf m ret d = .error e := by
  unfold retOf
  rw [run_bind_stop run]

theorem desc_io_granted {write : Bool} {len : Nat} {buf : DiskBlock} {device : Answer} {file : Descriptor}
    (found : d.opened r = some file) (granted : ¬ (if write then file.writable else file.readable) = false) :
    descIo r buf len write device d = (do
      let (ret, copied, buf) ← nodeIo file.node buf file.pos len write device
      setDesc r (some { file with pos := file.pos + copied })
      return (ret, copied, buf) : DescM Answer) d := by
  unfold descIo
  rw [run_get_bind, found]
  dsimp only
  rw [if_neg granted]

theorem io_desc_outcome (ok : DescFiles d F) (write : Bool) (len : Nat) (buf : DiskBlock)
    (device : Answer) :
    DescOutcome d (.transfer write r len buf device)
      ((DescCall.transfer write r len buf device).run d) := by
  have calls : (DescCall.transfer write r len buf device).fileCall d =
    (d.opened r).bind fun file => file.ioCall d.sfs write len buf := rfl
  change DescOutcome _ _ (retOf (descIo r buf len write device) Prod.fst d)
  cases found : d.opened r with
  | none =>
    rw [found] at calls
    have run : descIo r buf len write device d = .ok ((-E_INVAL, 0, buf), d) := by
      unfold descIo
      rw [run_get_bind, found]
      rfl
    rw [ret_of_run run]
    exact .aside _ d calls rfl (nodes_same rfl)
  | some file =>
    rw [found] at calls
    change _ = file.ioCall d.sfs write len buf at calls
    unfold Descriptor.ioCall at calls
    by_cases denied : (if write then file.writable else file.readable) = false
    · have run : descIo r buf len write device d = .ok ((-E_INVAL, 0, buf), d) := by
        unfold descIo
        rw [run_get_bind, found]
        dsimp only
        rw [if_pos denied]
        rfl
      rw [denied] at calls
      rw [ret_of_run run]
      refine .aside _ d ?_ rfl (nodes_same rfl)
      rw [calls]
      cases file.node <;> rfl
    · have granted : (if write then file.writable else file.readable) = true := by
        simpa using denied
      have moves := @desc_io_granted _ _ write len buf device _ found denied
      rw [granted] at calls
      obtain ⟨node, readable, writable, start⟩ := file
      cases node with
      | dev device' =>
        obtain ⟨ret, copied, out⟩ := device
        rw [ret_of_run (moves.trans rfl)]
        exact .aside _ _ calls rfl (nodes_update (Or.inl ⟨r, _, found, rfl⟩))
      | sfs k =>
        by_cases regular : d.sfs.isFile k = true
        · have mem := ok.opened r _ k found rfl regular
          dsimp only at calls
          rw [if_pos (by simpa using regular)] at calls
          cases io : sfsIoNolock k buf start len write d.sfs with
          | error e =>
            have run : descIo r buf len write device d = .error (.sfs e) := by
              rw [moves]
              apply run_bind_stop
              apply run_bind_stop
              exact (on_file_run regular).trans (on_volume_stop io)
            rw [ret_of_stop run]
            exact .stopped e _ calls io
          | ok res =>
            obtain ⟨⟨ret, alen, out⟩, u⟩ := res
            have short := io_count ok.files mem io
            have inner : nodeIo (.sfs k) buf start len write device d =
                .ok ((ret, alen, out), { d with sfs := u }) := by
              unfold nodeIo
              dsimp only
              rw [run_bind ((on_file_run regular).trans (on_volume_run io))]
              dsimp only
              rw [run_check_bind short]
              rfl
            rw [ret_of_run (moves.trans (run_bind inner))]
            exact .called _ _ _ calls (ret, alen, out) io (nodes_update (Or.inl ⟨r, _, found, rfl⟩))
        · have run : descIo r buf len write device d =
              .error (.nullOp (if write then .vopWrite else .vopRead)) := by
            rw [moves]
            apply run_bind_stop
            apply run_bind_stop
            exact on_file_refused regular
          rw [ret_of_stop run]
          refine .refused _ ?_ ?_
          · rw [calls]
            dsimp only
            rw [if_neg (by simpa using regular)]
          · intro all
            obtain ⟨k, node, file⟩ := all _ found
            cases node
            exact regular file

theorem seek_desc_outcome (pos whence : Int) :
    DescOutcome d (.seek r pos whence) ((DescCall.seek r pos whence).run d) := by
  have calls : (DescCall.seek r pos whence).fileCall d =
    (d.opened r).bind fun file => file.seekCall d.sfs pos whence := rfl
  change DescOutcome _ _ (descSeek r pos whence d)
  unfold descSeek
  rw [run_get_bind]
  cases found : d.opened r with
  | none =>
    rw [found] at calls
    exact .aside _ d calls rfl (nodes_same rfl)
  | some file =>
    rw [found] at calls
    change _ = file.seekCall d.sfs pos whence at calls
    unfold Descriptor.seekCall at calls
    dsimp only
    cases asked : file.target d.sfs pos whence with
    | none =>
      rw [asked] at calls
      refine .aside _ d ?_ rfl (nodes_same rfl)
      rw [calls]
      cases file.node <;> rfl
    | some goal =>
      rw [asked] at calls
      dsimp only
      obtain ⟨node, readable, writable, start⟩ := file
      cases node with
      | dev device => exact .aside _ d calls rfl (nodes_same rfl)
      | sfs k =>
        change _ = (if d.sfs.isFile k = true then some (FileCall.tryseek k goal) else none) at calls
        by_cases regular : d.sfs.isFile k = true
        · rw [if_pos regular] at calls
          cases run : sfsTryseek k goal d.sfs with
          | error e =>
            have inner : nodeTryseek (.sfs k) goal d = .error (.sfs e) :=
              (on_file_run regular).trans (on_volume_stop run)
            rw [run_bind_stop inner]
            exact .stopped e _ calls (run_answer_stop run)
          | ok res =>
            obtain ⟨ret, u⟩ := res
            have inner : nodeTryseek (.sfs k) goal d = .ok (ret, { d with sfs := u }) :=
              (on_file_run regular).trans (on_volume_run run)
            rw [run_bind inner]
            by_cases done : ret = 0
            · rw [if_pos done]
              exact .called _ _ _ calls _ (run_answer run)
                (nodes_update (Or.inl ⟨r, _, found, rfl⟩))
            · rw [if_neg done]
              exact .called _ _ _ calls _ (run_answer run) (nodes_same rfl)
        · have inner : nodeTryseek (.sfs k) goal d = .error (.nullOp .vopTryseek) :=
            on_file_refused regular
          rw [run_bind_stop inner]
          refine .refused _ ?_ ?_
          · rw [calls, if_neg regular]
          · intro all
            obtain ⟨k, node, file⟩ := all _ found
            cases node
            exact regular file

/- What is left to `file_open` of a path whose inode opens. -/
theorem open_desc_run {node : Node} {openFlags : Nat} {readable writable : Bool}
    (mode : accessMode openFlags = some (readable, writable)) (free : d.opened r = none)
    (trunc : ¬ (hasFlag openFlags O_TRUNC ∧ !writable))
    (new : ¬ (hasFlag openFlags O_EXCL ∧ hasFlag openFlags O_CREAT))
    (opens : nodeOpen d.sfs node openFlags = 0) {ret : Int}
    (run : (if hasFlag openFlags O_TRUNC ∨ hasFlag openFlags O_CREAT
      then nodeTruncate node 0 else pure 0 : DescM Int) d = .ok (ret, t)) :
    ∃ ret u, descOpen r node openFlags d = .ok (ret, u) ∧ u.sfs = t.sfs ∧
      (t.opened = d.opened → Nodes d (.openNode r node openFlags) u) := by
  have begins : descOpen r node openFlags d =
      (if ret ≠ 0 then return ret
      else do
        let d ← get
        let pos := if hasFlag openFlags O_APPEND then nodeSize d.sfs node else 0
        setDesc r (some { node, readable, writable, pos })
        return r.fd : DescM Int) t := by
    unfold descOpen
    rw [run_get_bind, mode]
    dsimp only
    rw [free, if_neg (by simp), if_neg trunc, if_neg new, if_neg (by rw [opens]; simp)]
    by_cases cut : hasFlag openFlags O_TRUNC ∨ hasFlag openFlags O_CREAT
    · rw [if_pos cut] at run ⊢
      rw [run_bind run]
    · rw [if_neg cut] at run ⊢
      rw [run_bind run]
  by_cases done : ret ≠ 0
  · rw [if_pos done] at begins
    exact ⟨_, _, begins, rfl, nodes_same⟩
  · rw [if_neg done] at begins
    refine ⟨_, _, begins, rfl, ?_⟩
    intro same
    dsimp only
    rw [same]
    exact nodes_update (Or.inr ⟨r, openFlags, rfl⟩)

theorem truncates_opened {openFlags : Nat} {readable writable : Bool}
    (mode : accessMode openFlags = some (readable, writable)) :
    truncatesOpened openFlags = true ↔ ¬ (hasFlag openFlags O_TRUNC ∧ !writable) ∧
      ¬ (hasFlag openFlags O_EXCL ∧ hasFlag openFlags O_CREAT) ∧
      (hasFlag openFlags O_TRUNC ∨ hasFlag openFlags O_CREAT) := by
  unfold truncatesOpened
  rw [mode]
  dsimp only
  cases hasFlag openFlags O_TRUNC <;> cases hasFlag openFlags O_EXCL <;>
    cases hasFlag openFlags O_CREAT <;> cases writable <;> decide

theorem dev_opens_clean {device : Device} {openFlags : Nat}
    (opens : nodeOpen d.sfs (.dev device) openFlags = 0) :
    ¬ (hasFlag openFlags O_TRUNC ∨ hasFlag openFlags O_CREAT) := by
  have plain : openFlags &&& (O_CREAT ||| O_TRUNC ||| O_EXCL ||| O_APPEND) = 0 := by
    by_contra some
    have flagged : hasFlag openFlags (O_CREAT ||| O_TRUNC ||| O_EXCL ||| O_APPEND) := by
      unfold hasFlag
      exact decide_eq_true some
    unfold nodeOpen at opens
    dsimp only at opens
    rw [if_pos flagged] at opens
    exact absurd opens (by decide)
  have within : ∀ flag, (O_CREAT ||| O_TRUNC ||| O_EXCL ||| O_APPEND) &&& flag = flag →
      openFlags &&& flag = 0 := by
    intro flag part
    rw [← part, ← Nat.and_assoc, plain, Nat.zero_and]
  rintro (trunc | create)
  · exact absurd (within O_TRUNC (by decide)) (of_decide_eq_true trunc)
  · exact absurd (within O_CREAT (by decide)) (of_decide_eq_true create)

theorem open_desc_outcome (node : Node) (openFlags : Nat) :
    DescOutcome d (.openNode r node openFlags) ((DescCall.openNode r node openFlags).run d) := by
  change DescOutcome _ _ (descOpen r node openFlags d)
  have aside : ∀ ret, (DescCall.openNode r node openFlags).fileCall d = none →
      descOpen r node openFlags d = .ok (ret, d) →
      DescOutcome d (.openNode r node openFlags) (descOpen r node openFlags d) := by
    intro ret idle run
    rw [run]
    exact .aside ret d idle rfl (nodes_same rfl)
  have idle : ¬ truncatesOpened openFlags = true →
      (DescCall.openNode r node openFlags).fileCall d = none := by
    intro keeps
    cases node with
    | dev device => rfl
    | sfs k =>
      refine if_neg ?_
      simp [keeps]
  cases mode : accessMode openFlags with
  | none =>
    have keeps : ¬ truncatesOpened openFlags = true := by
      unfold truncatesOpened
      rw [mode]
      simp
    refine aside (-E_INVAL) (idle keeps) ?_
    unfold descOpen
    rw [run_get_bind, mode]
    rfl
  | some access =>
    obtain ⟨readable, writable⟩ := access
    have truncates := truncates_opened mode
    cases free : d.opened r with
    | some file =>
      refine aside (-E_MAX_OPEN) ?_ ?_
      · cases node with
        | dev device => rfl
        | sfs k =>
          refine if_neg ?_
          simp [free]
      · unfold descOpen
        rw [run_get_bind, mode]
        dsimp only
        rw [free, if_pos (by rfl)]
        rfl
    | none =>
      have start : descOpen r node openFlags d = descOpen r node openFlags d := rfl
      conv at start =>
        rhs
        unfold descOpen
        rw [run_get_bind, mode]
        dsimp only
        rw [free, if_neg (by simp)]
      by_cases trunc : hasFlag openFlags O_TRUNC ∧ !writable
      · rw [if_pos trunc] at start
        exact aside _ (idle fun t => (truncates.mp t).1 trunc) start
      · rw [if_neg trunc] at start
        by_cases new : hasFlag openFlags O_EXCL ∧ hasFlag openFlags O_CREAT
        · rw [if_pos new] at start
          exact aside _ (idle fun t => (truncates.mp t).2.1 new) start
        · rw [if_neg new] at start
          by_cases opens : nodeOpen d.sfs node openFlags = 0
          · rw [if_neg (by rw [opens]; simp)] at start
            by_cases cut : hasFlag openFlags O_TRUNC ∨ hasFlag openFlags O_CREAT
            · cases node with
              | dev device => exact absurd cut (dev_opens_clean opens)
              | sfs k =>
                have calls : (DescCall.openNode r (.sfs k) openFlags).fileCall d =
                    if d.sfs.isFile k then some (.truncate k 0) else none := by
                  unfold DescCall.fileCall
                  simp [free, truncates.mpr ⟨trunc, new, cut⟩]
                rw [if_pos cut] at start
                by_cases regular : d.sfs.isFile k = true
                · rw [if_pos regular] at calls
                  cases run : sfsTruncfile k 0 d.sfs with
                  | error e =>
                    have inner : nodeTruncate (.sfs k) 0 d = .error (.sfs e) :=
                      (on_file_run regular).trans (on_volume_stop run)
                    rw [start, run_bind_stop inner]
                    exact .stopped e _ calls (run_answer_stop run)
                  | ok res =>
                    have inner : (if hasFlag openFlags O_TRUNC ∨ hasFlag openFlags O_CREAT
                        then nodeTruncate (.sfs k) 0 else pure 0 : DescM Int) d =
                        .ok (res.1, { d with sfs := res.2 }) := by
                      rw [if_pos cut]
                      exact (on_file_run regular).trans (on_volume_run run)
                    obtain ⟨ret, u, done, same, nodes⟩ := open_desc_run mode free trunc new opens inner
                    rw [done]
                    refine .called ret u _ calls (res.1, 0, fun _ => 0) ?_ (nodes rfl)
                    rw [same]
                    exact run_answer run
                · rw [if_neg regular] at calls
                  have inner : nodeTruncate (.sfs k) 0 d = .error (.nullOp .vopTruncate) :=
                    on_file_refused regular
                  rw [start, run_bind_stop inner]
                  refine .refused _ calls ?_
                  rintro ⟨k, node, file⟩
                  cases node
                  exact regular file
            · have inner : (if hasFlag openFlags O_TRUNC ∨ hasFlag openFlags O_CREAT
                  then nodeTruncate node 0 else pure 0 : DescM Int) d = .ok (0, d) := by
                rw [if_neg cut]
                rfl
              obtain ⟨ret, u, done, same, nodes⟩ := open_desc_run mode free trunc new opens inner
              rw [done]
              exact .aside ret u (idle fun t => cut (truncates.mp t).2.2) same (nodes rfl)
          · rw [if_pos opens] at start
            have keeps : (DescCall.openNode r node openFlags).fileCall d = none := by
              cases node with
              | dev device => rfl
              | sfs k =>
                refine if_neg ?_
                intro both
                have regular : (d.sfs.inodes k).din.type = .file := by
                  simp only [Bool.and_eq_true] at both
                  exact of_decide_eq_true both.1.2
                apply opens
                unfold nodeOpen
                dsimp only
                rw [if_neg (by rw [regular]; decide)]
            exact aside _ keeps start

/- Reading the entries of a directory. -/
theorem getdirentry_sub_reads {s : Sfs} (addressable : Addressable s) (count i slot : Nat) :
    Meets (sfsGetdirentrySubNolock k count i slot) s (fun _ t => t = s) fun _ => True := by
  induction count generalizing i slot with
  | zero => exact rfl
  | succ count ih =>
    unfold sfsGetdirentrySubNolock
    apply meets_step (dirent_read_yields addressable)
    rintro _ _ ⟨rfl, rfl⟩
    dsimp only
    split_ifs
    · exact ih (i + 1) slot
    · exact rfl
    · exact ih (i + 1) (slot - 1)

theorem getdirentry_desc_outcome (addressable : Addressable d.sfs) (offset : Int) (memory : Bool) :
    DescOutcome d (.getdirentry r offset memory) ((DescCall.getdirentry r offset memory).run d) := by
  have aside : ∀ ret, descGetdirentry r offset memory d = .ok (ret, d) →
      DescOutcome d (.getdirentry r offset memory) (descGetdirentry r offset memory d) := by
    intro ret run
    rw [run]
    exact .aside ret d rfl rfl (nodes_same rfl)
  have refused : descGetdirentry r offset memory d = .error (.nullOp .vopGetdirentry) →
      DescOutcome d (.getdirentry r offset memory) (descGetdirentry r offset memory d) := by
    intro run
    rw [run]
    exact .refused _ rfl id
  change DescOutcome _ _ (descGetdirentry r offset memory d)
  have start : descGetdirentry r offset memory d = descGetdirentry r offset memory d := rfl
  conv at start =>
    rhs
    unfold descGetdirentry
    rw [run_get_bind]
  cases found : d.opened r with
  | none =>
    rw [found] at start
    exact aside _ start
  | some file =>
    obtain ⟨node, readable, writable, pos⟩ := file
    rw [found] at start
    cases node with
    | dev device => exact refused start
    | sfs k =>
      dsimp only at start
      by_cases other : (d.sfs.inodes k).din.type ≠ .dir
      · rw [if_pos other] at start
        exact refused start
      · rw [if_neg other] at start
        split_ifs at start
        · exact aside _ start
        · exact aside _ start
        · exact aside _ start
        · have reads := getdirentry_sub_reads (k := k) addressable (d.sfs.inodes k).din.blocks 0
            (u32 (i32 ((offset.toNat / sfsDentrySize : Nat) : Int)))
          unfold Meets at reads
          cases run : sfsGetdirentrySubNolock k (d.sfs.inodes k).din.blocks 0
              (u32 (i32 ((offset.toNat / sfsDentrySize : Nat) : Int))) d.sfs with
          | error e =>
            have stops : descGetdirentry r offset memory d = .error (.sfs e) :=
              start.trans (run_bind_stop (on_volume_stop run))
            rw [stops]
            exact .unread e rfl ⟨r, offset, memory, rfl⟩
          | ok res =>
            obtain ⟨found, u⟩ := res
            rw [run] at reads
            subst reads
            have next := start.trans (run_bind (on_volume_run run))
            cases found with
            | error ret => exact aside _ next
            | ok entry => exact aside _ next

theorem on_file_outcome {c : DescCall} {op : Vop} {m : SfsM Int} {f : FileCall}
    (calls : c.fileCall d = if d.sfs.isFile k then some f else none)
    (same : f.run = answerOf m) (needs : c.Regular d → d.sfs.isFile k = true) :
    DescOutcome d c (onFile op k m d) := by
  by_cases regular : d.sfs.isFile k = true
  · rw [if_pos regular] at calls
    rw [on_file_run regular]
    cases run : m d.sfs with
    | error e =>
      rw [on_volume_stop run]
      exact .stopped e f calls (by rw [same, run_answer_stop run])
    | ok res =>
      rw [on_volume_run run]
      exact .called _ _ f calls (res.1, 0, fun _ => 0) (by rw [same, run_answer run]) (nodes_same rfl)
  · rw [if_neg regular] at calls
    rw [on_file_refused regular]
    exact .refused op calls fun all => regular (needs all)

theorem desc_outcome (ok : DescFiles d F) {c : DescCall} (within : c.Within d.sfs F) :
    DescOutcome d c (c.run d) := by
  have volume := ok.files.maps.volume
  cases c with
  | openNode r node openFlags => exact open_desc_outcome node openFlags
  | close r =>
    change DescOutcome _ _ (descClose r d)
    unfold descClose
    rw [run_get_bind]
    cases d.opened r with
    | none => exact .aside _ d rfl rfl (nodes_same rfl)
    | some file => exact .aside _ _ rfl rfl nodes_closed
  | dup target source =>
    change DescOutcome _ _ (descDup target source d)
    unfold descDup
    rw [run_get_bind]
    cases found : d.opened source with
    | none => exact .aside _ d rfl rfl (nodes_same rfl)
    | some file =>
      dsimp only
      split_ifs
      · exact .aside _ d rfl rfl (nodes_same rfl)
      · exact .aside _ _ rfl rfl (nodes_update (Or.inl ⟨source, file, found, rfl⟩))
  | transfer write r len buf device => exact io_desc_outcome ok write len buf device
  | seek r pos whence => exact seek_desc_outcome pos whence
  | fstat r =>
    change DescOutcome _ _ (descFstat r d)
    unfold descFstat
    rw [run_get_bind]
    cases d.opened r with
    | none => exact .aside _ d rfl rfl (nodes_same rfl)
    | some file => exact .aside _ d rfl rfl (nodes_same rfl)
  | getdirentry r offset memory =>
    exact getdirentry_desc_outcome ⟨volume.device, volume.addressable⟩ offset memory
  | truncate k len => exact on_file_outcome rfl rfl id
  | tryseek k pos => exact on_file_outcome rfl rfl id
  | flush k =>
    have run : sfsFsync k d.sfs = .ok (0, synced d.sfs k) :=
      fsync_run volume (ok.files.home k within).1
    change DescOutcome _ _ (onVolume (sfsFsync k) d)
    rw [on_volume_run run]
    exact .flushed k rfl

end

end Ucore
