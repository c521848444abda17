import Ucore.Mm.LoadSections

/- Address spaces whose forks copy every page at once, and what the copy-on-write of lab5 shows of them. -/
namespace Ucore.CowFork
open Programs Transitions

/-- Address spaces with pages of their own. -/
structure Eager where
  mem : Nat → Nat → Option (Nat → Nat)
  vmas : Nat → List Vma

def Eager.setPage (e : Eager) (mm la : Nat) (page : Option (Nat → Nat)) : Eager :=
  { e with mem := Function.update e.mem mm (Function.update (e.mem mm) la page) }

/- What an operation answers: `copy_mm`, `do_pgfault` and `pgdir_alloc_page` may lack memory, and the others return. -/
def CowOp.answer : CowOp → CowM Int
  | .map mm la perm bytes => loadPage mm la perm.user bytes
  | .fork dst src => copyMm dst src
  | .fault mm errorCode la => doPgfault mm errorCode la
  | op => do
      op.run
      return 0

/-- What the operations do, and answer, where a fork copies every page. A fork that answers 0 has copied them all,
and what answers something else has done nothing. -/
inductive EagerStep (e : Eager) : CowOp × Int → Eager → Prop where
  | addVma (mm : Nat) (vma : Vma) {before after : List Vma} (parts : e.vmas mm = before ++ after) :
      EagerStep e (.addVma mm vma, 0) { e with vmas := Function.update e.vmas mm (before ++ vma :: after) }
  | map (mm la : Nat) (perm : Perm) (bytes : Nat → Nat) :
      EagerStep e (.map mm la perm bytes, 0) (e.setPage mm la (some bytes))
  | noMap (mm la : Nat) (perm : Perm) (bytes : Nat → Nat) {ret : Int} (failed : ret ≠ 0) :
      EagerStep e (.map mm la perm bytes, ret) e
  | fork (dst src : Nat) : EagerStep e (.fork dst src, 0)
      { mem := Function.update e.mem dst (e.mem src), vmas := Function.update e.vmas dst (e.vmas src) }
  | noFork (dst src : Nat) {ret : Int} (failed : ret ≠ 0) : EagerStep e (.fork dst src, ret) e
  | newPage (mm : Nat) (code : Fault) (la : Nat) (bytes : Nat → Nat) (absent : e.mem mm la = none) :
      EagerStep e (.fault mm code la, 0) (e.setPage mm la (some bytes))
  | fault (mm : Nat) (code : Fault) (la : Nat) {page : Nat → Nat} (mapped : e.mem mm la = some page) :
      EagerStep e (.fault mm code la, 0) e
  | noFault (mm : Nat) (code : Fault) (la : Nat) {ret : Int} (failed : ret ≠ 0) : EagerStep e (.fault mm code la, ret) e
  | write (mm la off byte : Nat) {page : Nat → Nat} (mapped : e.mem mm la = some page) :
      EagerStep e (.write mm la off byte, 0) (e.setPage mm la (some (Function.update page off byte)))
  | unmap (mm start count : Nat) : EagerStep e (.unmap mm start count, 0)
      { e with mem := Function.update e.mem mm fun la =>
          if start ≤ la ∧ la < start + count then none else e.mem mm la }
  | exit (mm : Nat) : EagerStep e (.exit mm, 0)
      { mem := Function.update e.mem mm fun _ => none, vmas := Function.update e.vmas mm [] }

/-- What the processes see. -/
def CowState.view (s : CowState) : Eager where
  mem mm la := if (s.pte mm la).v then some (s.data (s.pte mm la).page) else none
  vmas := s.vmas

/-- The page is in a writable VMA. -/
def CowState.Permitted (s : CowState) (mm la : Nat) : Prop :=
  ∃ vma ∈ s.vmas mm, vma.vmStart ≤ la ∧ la < vma.vmEnd ∧ vma.write = true

/-- Every page of a writable VMA is writable or marked copy-on-write. -/
def Marked (s : CowState) : Prop := ∀ mm la, s.Permitted mm la → (s.pte mm la).v = true →
  (s.pte mm la).perm.w = true ∨ (s.pte mm la).perm.cow = true

/- `load_icode` maps the pages of a VMA, with the permissions of it. -/
def CowCall.Loads (s : CowState) (c : CowCall) : Prop :=
  match c.op with
  | .map mm la perm _ => ∃ vma ∈ s.vmas mm, vma.vmStart ≤ la ∧ la < vma.vmEnd ∧ perm.w = vma.write
  | _ => True

/-- A call with its answer. -/
def ForkStep (s : CowState) (c : CowCall × Int) (t : CowState) : Prop :=
  c.1.op.Possible s ∧ c.1.op.answer { s with pages := c.1.pages, tables := c.1.tables } = .ok (c.2, t) ∧ c.1.Loads s

/-- A process forks only when the pages of its writable VMAs are its own to write: none of them is still
marked from an earlier fork. -/
def CowCall.Owned (s : CowState) (c : CowCall) : Prop :=
  match c.op with
  | .fork _ src => ∀ la, s.Permitted src la → (s.pte src la).v = true → (s.pte src la).perm.w = true
  | _ => True

/-- The pages that are `done` have been shared between `src` and `dst`, and nothing else has changed. -/
structure Shared (s t : CowState) (dst src : Nat) (done : Nat → Prop) : Prop where
  data : t.data = s.data
  others : ∀ mm la, mm ≠ dst → mm ≠ src → t.pte mm la = s.pte mm la
  parent : ∀ la, done la → (s.pte src la).v = true →
    t.pte src la = { s.pte src la with perm := (s.pte src la).perm.shared }
  child : ∀ la, done la → (s.pte src la).v = true →
    t.pte dst la = pteCreate (s.pte src la).page (s.pte src la).perm.inherited
  rest : ∀ la, ¬ (done la ∧ (s.pte src la).v = true) → t.pte src la = s.pte src la ∧ t.pte dst la = s.pte dst la

section
variable {pool : Finset Nat} {excess : Nat → Nat} {s t u : CowState} {mm la dst src start : Nat} {done : Nat → Prop}

/- A call that answers has run. -/
theorem answer_runs {op : CowOp} {ret : Int} (answered : op.answer s = .ok (ret, t)) : op.run s = .ok ((), t) := by
  cases op with
  | map | fork | fault => exact run_bind answered
  | addVma | write | unmap | exit =>
    obtain ⟨⟨⟩, u, ran, rest⟩ := bind_ran answered
    cases rest
    exact ran

theorem fork_step_cow {c : CowCall × Int} (step : ForkStep s c t) : CowStep s c.1 t :=
  ⟨step.1, answer_runs step.2.1⟩

theorem shared_refl : Shared s s dst src fun _ => False :=
  ⟨rfl, fun _ _ _ _ => rfl, fun _ never => never.elim, fun _ never => never.elim, fun _ _ => ⟨rfl, rfl⟩⟩

/- A page that has not been shared is shared next. -/
theorem share_next (shared : Shared s t dst src done) (apart : dst ≠ src) (new : ¬ done la)
    (accounted : Accounted pool excess t) {ret : Int} (ran : sharePage dst src la t = .ok (ret, u)) :
    (∃ larger, Accounted pool larger u) ∧ u.vmas = t.vmas ∧
      ((ret = 0 ∧ Shared s u dst src fun i => done i ∨ i = la) ∨ (ret ≠ 0 ∧ Shared s u dst src done)) := by
  have same := (shared.rest la fun both => new both.1).1
  by_cases valid : (t.pte src la).v = true
  · cases table : t.tables.head?.getD false with
    | false =>
      cases (share_fail_run valid table).symm.trans ran
      refine ⟨⟨excess, same_accounted (s := t) ⟨rfl, rfl, rfl⟩ accounted⟩, rfl, .inr ⟨by decide, ?_⟩⟩
      exact ⟨shared.data, shared.others, shared.parent, shared.child, shared.rest⟩
    | true =>
      obtain ⟨w, run, after, entered⟩ := share_run dst accounted valid table
      cases run.symm.trans ran
      have parentHere : u.pte src la = { t.pte src la with perm := (t.pte src la).perm.shared } := by
        rw [entered.pte, set_other (x := (src, la)) fun same => apart (congrArg Prod.fst same).symm]
        exact set_self
      have childHere : u.pte dst la = pteCreate (t.pte src la).page (t.pte src la).perm.inherited := by
        rw [entered.pte, set_self]
      have elsewhere : ∀ mm i, (mm, i) ≠ (dst, la) → (mm, i) ≠ (src, la) → u.pte mm i = t.pte mm i := by
        intro mm i notDst notSrc
        rw [entered.pte, set_other (x := (mm, i)) notDst]
        exact set_other (x := (mm, i)) notSrc
      refine ⟨⟨_, after⟩, entered.vmas, .inl ⟨rfl, ?_⟩⟩
      rw [same] at parentHere childHere valid
      refine ⟨entered.data.trans shared.data, fun mm i notDst notSrc => ?_, fun i now there => ?_, fun i now there => ?_,
        fun i other => ?_⟩
      · rw [elsewhere mm i (fun eq => notDst (congrArg Prod.fst eq)) fun eq => notSrc (congrArg Prod.fst eq)]
        exact shared.others mm i notDst notSrc
      · by_cases here : i = la
        · rw [here]
          exact parentHere
        · rw [elsewhere src i (fun eq => here (congrArg Prod.snd eq)) fun eq => here (congrArg Prod.snd eq)]
          exact shared.parent i (now.resolve_right here) there
      · by_cases here : i = la
        · rw [here]
          exact childHere
        · rw [elsewhere dst i (fun eq => here (congrArg Prod.snd eq)) fun eq => here (congrArg Prod.snd eq)]
          exact shared.child i (now.resolve_right here) there
      · have here : i ≠ la := by
          rintro rfl
          exact other ⟨.inr rfl, valid⟩
        rw [elsewhere src i (fun eq => here (congrArg Prod.snd eq)) fun eq => here (congrArg Prod.snd eq),
          elsewhere dst i (fun eq => here (congrArg Prod.snd eq)) fun eq => here (congrArg Prod.snd eq)]
        exact shared.rest i fun both => other ⟨.inl both.1, both.2⟩
  · have invalid : (t.pte src la).v = false := Bool.eq_false_of_not_eq_true valid
    cases (share_none_run invalid).symm.trans ran
    refine ⟨⟨excess, accounted⟩, rfl, .inl ⟨rfl, ?_⟩⟩
    rw [same] at invalid
    refine ⟨shared.data, shared.others, fun i now there => ?_, fun i now there => ?_, fun i other => ?_⟩
    · rcases now with before | rfl
      · exact shared.parent i before there
      · rw [invalid] at there
        cases there
    · rcases now with before | rfl
      · exact shared.child i before there
      · rw [invalid] at there
        cases there
    · exact shared.rest i fun both => other ⟨.inl both.1, both.2⟩

end

end Ucore.CowFork
