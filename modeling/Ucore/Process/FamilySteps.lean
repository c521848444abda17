import Ucore.Lib.TwoWayList
import Ucore.Process.Family

/- What forks, exits and waits do to the lists of children. -/
namespace Ucore.Relations
open Programs Transitions Process TwoWay

/-- The children of each process are on its list, with `head` in front of the first one; `proc_list`
and the hash lists hold the same processes. -/
structure Linked (s : Family) (kids : Nat → List Nat) (head : Nat → Option Nat) : Prop where
  chain : ∀ p, s.Present p → Listed s.optr s.yptr (head p) (s.cptr p) (kids p)
  nodup : ∀ p, s.Present p → (kids p).Nodup
  members : ∀ p, s.Present p → ∀ c, c ∈ kids p ↔ c ∈ s.procList ∧ s.parent c = p
  distinct : s.procList.Nodup
  count : s.nrProcess = s.procList.length + 1
  idle : s.idleproc ∉ s.procList
  init : s.initproc ∈ s.procList
  parents : ∀ c ∈ s.procList, s.Present (s.parent c)
  hashed : ∀ b, ∀ p ∈ s.hashList b, p ∈ s.procList ∧ pidHashfn (s.pid p) = b
  buckets : ∀ b, (s.hashList b).Nodup

/-- The kernel threads and the parents are no zombies. -/
structure FamilyInv (s : Family) (kids : Nat → List Nat) : Prop extends Linked s kids fun _ => none where
  idleLives : s.state s.idleproc ≠ .zombie
  initLives : s.state s.initproc ≠ .zombie
  parentLives : ∀ c ∈ s.procList, s.state (s.parent c) ≠ .zombie
  notSelf : ∀ c ∈ s.procList, s.parent c ≠ c
  eldest : s.parent s.initproc = s.idleproc

section
variable {s t : Family} {kids : Nat → List Nat} {head : Nat → Option Nat} {p q c current proc : Nat}
  {o y : Option Nat}

theorem set_yptr_yptr : (s.setYptr o y).yptr q = if o = some q then y else s.yptr q := by
  cases o with
  | none => rfl
  | some p =>
    change Function.update s.yptr p y q = _
    by_cases same : q = p
    · rw [same, Function.update_self, if_pos rfl]
    · rw [Function.update_of_ne same, if_neg fun eq => same (Option.some.inj eq).symm]

theorem set_yptr_eq : ∃ yptr, s.setYptr o y = { s with yptr := yptr } := by
  cases o with
  | none => exact ⟨_, rfl⟩
  | some p => exact ⟨_, rfl⟩

/- What `set_links` leaves. -/
theorem set_links_eq (proc : Nat) : ∃ yptr, setLinks proc s = { s with
    procList := proc :: s.procList
    yptr := yptr
    optr := Function.update s.optr proc (s.cptr (s.parent proc))
    cptr := Function.update s.cptr (s.parent proc) (some proc)
    nrProcess := s.nrProcess + 1 } ∧
    ∀ q, yptr q = if s.cptr (s.parent proc) = some q then some proc else
      Function.update s.yptr proc none q := by
  let v : Family := { s with
    procList := proc :: s.procList
    yptr := Function.update s.yptr proc none
    optr := Function.update s.optr proc (s.cptr (s.parent proc)) }
  obtain ⟨yptr, shape⟩ := set_yptr_eq (s := v) (o := s.cptr (s.parent proc)) (y := some proc)
  refine ⟨yptr, ?_, fun q => ?_⟩
  · have whole : setLinks proc s = { v.setYptr (s.cptr (s.parent proc)) (some proc) with
        cptr := Function.update (v.setYptr (s.cptr (s.parent proc)) (some proc)).cptr
          ((v.setYptr (s.cptr (s.parent proc)) (some proc)).parent proc) (some proc)
        nrProcess := (v.setYptr (s.cptr (s.parent proc)) (some proc)).nrProcess + 1 } := rfl
    rw [whole, shape]
  · have value := set_yptr_yptr (s := v) (o := s.cptr (s.parent proc)) (y := some proc) (q := q)
    rw [shape] at value
    exact value

theorem remove_links_steps (proc : Nat) : removeLinks proc s =
    let w := ({ s with procList := s.procList.erase proc } : Family).setYptr (s.optr proc) (s.yptr proc)
    let w := match w.yptr proc with
      | some y => { w with optr := Function.update w.optr y (w.optr proc) }
      | none => { w with cptr := Function.update w.cptr (w.parent proc) (w.optr proc) }
    { w with nrProcess := w.nrProcess - 1 } := rfl

theorem remove_links_eq (proc : Nat) : ∃ yptr optr cptr, removeLinks proc s = { s with
    procList := s.procList.erase proc
    yptr := yptr
    optr := optr
    cptr := cptr
    nrProcess := s.nrProcess - 1 } ∧
    (∀ q, yptr q = if s.optr proc = some q then s.yptr proc else s.yptr q) ∧
    (∀ q, optr q = if s.yptr proc = some q then s.optr proc else s.optr q) ∧
    ∀ q, cptr q = if s.yptr proc = none ∧ q = s.parent proc then s.optr proc else s.cptr q := by
  let v : Family := { s with procList := s.procList.erase proc }
  obtain ⟨yptr, shape⟩ := set_yptr_eq (s := v) (o := s.optr proc) (y := s.yptr proc)
  have value : ∀ q, yptr q = if s.optr proc = some q then s.yptr proc else s.yptr q := by
    intro q
    have value := set_yptr_yptr (s := v) (o := s.optr proc) (y := s.yptr proc) (q := q)
    rw [shape] at value
    exact value
  have own : yptr proc = s.yptr proc := by
    rw [value]
    split_ifs <;> rfl
  rw [remove_links_steps, shape]
  dsimp only
  rw [own]
  cases young : s.yptr proc with
  | none =>
    refine ⟨yptr, s.optr, Function.update s.cptr (s.parent proc) (s.optr proc), rfl, ?_, ?_, ?_⟩
    · rw [← young]
      exact value
    · intro q
      rfl
    · intro q
      by_cases same : q = s.parent proc
      · rw [same, Function.update_self, if_pos ⟨rfl, rfl⟩]
      · rw [Function.update_of_ne same, if_neg fun both => same both.2]
  | some z =>
    refine ⟨yptr, Function.update s.optr z (s.optr proc), s.cptr, rfl, ?_, ?_, ?_⟩
    · rw [← young]
      exact value
    · intro q
      by_cases same : q = z
      · rw [same, Function.update_self, if_pos rfl]
      · rw [Function.update_of_ne same, if_neg fun eq => same (Option.some.inj eq).symm]
    · intro q
      rw [if_neg fun both => by cases both.1]

/- The children of different processes are different. -/
theorem kids_apart (linked : Linked s kids head) (first : s.Present p) (second : s.Present q) (other : p ≠ q)
    (mem : c ∈ kids p) : c ∉ kids q := by
  intro mem'
  have here := ((linked.members p first c).mp mem).2
  have there := ((linked.members q second c).mp mem').2
  exact other (here.symm.trans there)

theorem cptr_mem (linked : Linked s kids head) (known : s.Present p) (first : s.cptr p = some c) :
    c ∈ kids p := by
  have start := listed_head (linked.chain p known)
  rw [first] at start
  exact List.mem_of_head? start.symm

theorem kids_short (linked : Linked s kids head) (known : s.Present p) : (kids p).length < s.nrProcess := by
  rw [linked.count]
  have within : (kids p).Subperm s.procList := (linked.nodup p known).subperm
    fun c mem => ((linked.members p known c).mp mem).1
  exact Nat.lt_succ_of_le within.length_le

/- A wakeup changes states only, and makes and unmakes no zombie. -/
theorem wakeup_ends (lives : s.state proc ≠ .zombie) : ∃ state waitState,
    wakeupProc proc s = .ok ((), { s with state := state, waitState := waitState }) ∧
    ∀ q, state q = .zombie ↔ s.state q = .zombie := by
  unfold wakeupProc
  rw [run_get_bind, run_check_bind lives]
  by_cases sleeps : s.state proc ≠ .runnable
  · rw [if_pos sleeps]
    refine ⟨_, _, rfl, fun q => ?_⟩
    by_cases same : q = proc
    · rw [same, Function.update_self]
      exact iff_of_false (by decide) lives
    · rw [Function.update_of_ne same]
  · rw [if_neg sleeps]
    exact ⟨s.state, s.waitState, rfl, fun _ => Iff.rfl⟩

/- A conditional wakeup, and what comes after it. -/
theorem wakeup_if_ends {asked : Prop} [Decidable asked] (lives : asked → s.state proc ≠ .zombie) :
    ∃ state waitState, (∀ {α : Type} (rest : FamilyM α), (do
      if asked then wakeupProc proc
      rest : FamilyM α) s = rest { s with state := state, waitState := waitState }) ∧
    ∀ q, state q = .zombie ↔ s.state q = .zombie := by
  by_cases wakes : asked
  · obtain ⟨state, waitState, woke, zombies⟩ := wakeup_ends (lives wakes)
    refine ⟨state, waitState, fun rest => ?_, zombies⟩
    rw [if_pos wakes]
    exact run_bind woke
  · refine ⟨s.state, s.waitState, fun rest => ?_, fun _ => Iff.rfl⟩
    rw [if_neg wakes]

/- The new process is the first child of its parent. -/
def born (kids : Nat → List Nat) (parent proc : Nat) (p : Nat) : List Nat :=
  if p = proc then [] else if p = parent then proc :: kids parent else kids p

theorem born_self : born kids current proc proc = [] := if_pos rfl

theorem born_parent (other : current ≠ proc) : born kids current proc current = proc :: kids current := by
  unfold born
  rw [if_neg other, if_pos rfl]

theorem born_other (first : p ≠ proc) (second : p ≠ current) : born kids current proc p = kids p := by
  unfold born
  rw [if_neg first, if_neg second]

theorem set_links_linked (linked : Linked s kids fun _ => none) (fresh : ¬ s.Present proc)
    (parent : s.Present (s.parent proc)) (childless : s.cptr proc = none) :
    Linked (setLinks proc (hashProc proc s)) (born kids (s.parent proc) proc) fun _ => none := by
  obtain ⟨yptr, shape, young⟩ := set_links_eq (s := hashProc proc s) proc
  change ∀ q, yptr q = if s.cptr (s.parent proc) = some q then some proc else
    Function.update s.yptr proc none q at young
  have outside : proc ∉ s.procList := fun mem => fresh (.inr mem)
  have other : s.parent proc ≠ proc := fun same => fresh (same ▸ parent)
  have notKid : ∀ p, s.Present p → proc ∉ kids p := fun p known mem => outside ((linked.members p known _).mp mem).1
  have notFirst : s.cptr (s.parent proc) ≠ some proc :=
    fun first => notKid _ parent (cptr_mem linked parent first)
  have present : ∀ p, (p = s.idleproc ∨ p ∈ proc :: s.procList) → p ≠ proc → s.Present p := by
    rintro p (idle | mem) notProc
    · exact .inl idle
    · exact .inr ((List.mem_cons.mp mem).resolve_left notProc)
  have optrOther : ∀ q, q ≠ proc → Function.update s.optr proc (s.cptr (s.parent proc)) q = s.optr q :=
    fun q notProc => Function.update_of_ne notProc ..
  have yptrOther : ∀ q, q ≠ proc → s.cptr (s.parent proc) ≠ some q → yptr q = s.yptr q := by
    intro q notProc notFirst
    rw [young, if_neg notFirst, Function.update_of_ne notProc]
  rw [shape]
  refine ⟨fun p known => ?_, fun p known => ?_, fun p known c => ?_, ?_, ?_, ?_, ?_, fun c mem => ?_, fun b p mem => ?_,
    fun b => ?_⟩
  · change Listed (Function.update s.optr proc (s.cptr (s.parent proc))) yptr none
      (Function.update s.cptr (s.parent proc) (some proc) p) (born kids (s.parent proc) proc p)
    by_cases isProc : p = proc
    · subst p
      rw [born_self, Function.update_of_ne (Ne.symm other)]
      exact childless
    · have known' := present p known isProc
      by_cases isParent : p = s.parent proc
      · subst p
        rw [born_parent other, Function.update_self]
        refine listed_push (notKid _ parent) (Function.update_self ..) ?_ (fun x mem => optrOther x ?_) (fun x first => ?_)
          (fun x mem notHead => yptrOther x ?_ notHead) (linked.nodup _ parent) (linked.chain _ parent)
        · rw [young, if_neg notFirst, Function.update_self]
        · rintro rfl
          exact notKid _ parent mem
        · rw [young, if_pos first]
        · rintro rfl
          exact notKid _ parent mem
      · rw [born_other isProc isParent, Function.update_of_ne isParent]
        refine listed_congr (fun x mem => optrOther x ?_) (fun x mem => yptrOther x ?_ fun first => ?_)
          (linked.chain p known')
        · rintro rfl
          exact notKid _ known' mem
        · rintro rfl
          exact notKid _ known' mem
        · exact kids_apart linked known' parent isParent mem (cptr_mem linked parent first)
  · by_cases isProc : p = proc
    · rw [isProc, born_self]
      exact List.nodup_nil
    · have known' := present p known isProc
      by_cases isParent : p = s.parent proc
      · rw [isParent, born_parent other]
        exact List.nodup_cons.mpr ⟨notKid _ parent, linked.nodup _ parent⟩
      · rw [born_other isProc isParent]
        exact linked.nodup p known'
  · change c ∈ born kids (s.parent proc) proc p ↔ c ∈ proc :: s.procList ∧ s.parent c = p
    by_cases isProc : p = proc
    · rw [isProc, born_self]
      refine iff_of_false List.not_mem_nil fun ⟨mem, parented⟩ => ?_
      rcases List.mem_cons.mp mem with rfl | old
      · exact other parented
      · exact fresh (parented ▸ linked.parents c old)
    · have known' := present p known isProc
      by_cases isParent : p = s.parent proc
      · subst p
        rw [born_parent other, List.mem_cons, List.mem_cons, linked.members _ parent]
        constructor
        · rintro (rfl | ⟨old, parented⟩)
          · exact ⟨.inl rfl, rfl⟩
          · exact ⟨.inr old, parented⟩
        · rintro ⟨rfl | old, parented⟩
          · exact .inl rfl
          · exact .inr ⟨old, parented⟩
      · rw [born_other isProc isParent, List.mem_cons, linked.members p known']
        constructor
        · exact fun ⟨old, parented⟩ => ⟨.inr old, parented⟩
        · rintro ⟨rfl | old, parented⟩
          · exact absurd parented.symm isParent
          · exact ⟨old, parented⟩
  · exact List.nodup_cons.mpr ⟨outside, linked.distinct⟩
  · exact congrArg Nat.succ linked.count
  · intro mem
    rcases List.mem_cons.mp mem with same | old
    · exact fresh (.inl same.symm)
    · exact linked.idle old
  · exact List.mem_cons_of_mem _ linked.init
  · have kept : ∀ p, s.Present p → p = s.idleproc ∨ p ∈ proc :: s.procList := by
      rintro p (idle | old)
      · exact .inl idle
      · exact .inr (List.mem_cons_of_mem _ old)
    rcases List.mem_cons.mp mem with rfl | old
    · exact kept _ parent
    · exact kept _ (linked.parents c old)
  · change p ∈ Function.update s.hashList (pidHashfn (s.pid proc)) (proc :: s.hashList (pidHashfn (s.pid proc))) b
      at mem
    by_cases bucket : b = pidHashfn (s.pid proc)
    · subst b
      rw [Function.update_self] at mem
      rcases List.mem_cons.mp mem with rfl | old
      · exact ⟨List.mem_cons_self .., rfl⟩
      · exact ⟨List.mem_cons_of_mem _ (linked.hashed _ p old).1, (linked.hashed _ p old).2⟩
    · rw [Function.update_of_ne bucket] at mem
      exact ⟨List.mem_cons_of_mem _ (linked.hashed b p mem).1, (linked.hashed b p mem).2⟩
  · change (Function.update s.hashList (pidHashfn (s.pid proc)) (proc :: s.hashList (pidHashfn (s.pid proc))) b).Nodup
    by_cases bucket : b = pidHashfn (s.pid proc)
    · rw [bucket, Function.update_self]
      exact List.nodup_cons.mpr ⟨fun mem => outside (linked.hashed _ _ mem).1, linked.buckets _⟩
    · rw [Function.update_of_ne bucket]
      exact linked.buckets b

/- A child is taken out of the list of its parent. -/
theorem remove_links_linked (linked : Linked s kids fun _ => none) (known : proc ∈ s.procList)
    (notInit : proc ≠ s.initproc) (childless : ∀ c ∈ s.procList, s.parent c ≠ proc) :
    Linked (removeLinks proc (unhashProc proc s))
      (Function.update kids (s.parent proc) ((kids (s.parent proc)).erase proc)) fun _ => none := by
  have parent := linked.parents proc known
  have mem : proc ∈ kids (s.parent proc) := (linked.members _ parent proc).mpr ⟨known, rfl⟩
  have chain := linked.chain _ parent
  have nodup := linked.nodup _ parent
  obtain ⟨older, younger, split⟩ := List.append_of_mem mem
  rw [split] at chain nodup
  have before : s.optr proc = younger.head? := listed_next chain
  have after : s.yptr proc = older.getLast? := by
    rw [listed_back chain, Option.or_none]
  obtain ⟨yptr, optr, cptr, shape, yptrs, optrs, cptrs⟩ := remove_links_eq (s := unhashProc proc s) proc
  change ∀ q, yptr q = if s.optr proc = some q then s.yptr proc else s.yptr q at yptrs
  change ∀ q, optr q = if s.yptr proc = some q then s.optr proc else s.optr q at optrs
  change ∀ q, cptr q = if s.yptr proc = none ∧ q = s.parent proc then s.optr proc else s.cptr q at cptrs
  have older_mem : ∀ q, s.yptr proc = some q → q ∈ kids (s.parent proc) := by
    intro q here
    rw [split]
    rw [after] at here
    exact List.mem_append_left _ (List.mem_of_getLast? here)
  have younger_mem : ∀ q, s.optr proc = some q → q ∈ kids (s.parent proc) := by
    intro q here
    rw [split]
    rw [before] at here
    exact List.mem_append_right _ (List.mem_cons_of_mem _ (List.mem_of_head? here))
  have rest : (kids (s.parent proc)).erase proc = older ++ younger := by
    rw [split]
    have outside : proc ∉ older := by
      intro here
      exact (List.nodup_append.mp nodup).2.2 proc here proc (List.mem_cons_self ..) rfl
    rw [List.erase_append_right _ outside, List.erase_cons_head]
  have present : ∀ p, (p = s.idleproc ∨ p ∈ s.procList.erase proc) → s.Present p := by
    rintro p (idle | left)
    · exact .inl idle
    · exact .inr (List.mem_of_mem_erase left)
  have erase_mem : ∀ q, q ∈ s.procList.erase proc ↔ q ≠ proc ∧ q ∈ s.procList :=
    fun q => List.Nodup.mem_erase_iff linked.distinct
  rw [shape]
  refine ⟨fun p here => ?_, fun p here => ?_, fun p here c => ?_, linked.distinct.erase _, ?_,
    fun idle => linked.idle (List.mem_of_mem_erase idle), (erase_mem _).mpr ⟨Ne.symm notInit, linked.init⟩,
    fun c left => ?_, fun b p hash => ?_, fun b => ?_⟩
  · have here' := present p here
    by_cases isParent : p = s.parent proc
    · subst p
      rw [Function.update_self, rest]
      have first : cptr (s.parent proc) = if older = [] then s.optr proc else s.cptr (s.parent proc) := by
        have youngest : s.yptr proc = none ↔ older = [] := by rw [after, List.getLast?_eq_none_iff]
        by_cases empty : older = []
        · rw [cptrs, if_pos ⟨youngest.mpr empty, rfl⟩, if_pos empty]
        · rw [cptrs, if_neg fun both => empty (youngest.mp both.1), if_neg empty]
      change Listed optr yptr none (cptr (s.parent proc)) (older ++ younger)
      rw [first]
      refine listed_unlink chain nodup (fun _ _ null => by cases null) (fun x _ notBack => ?_) (fun x _ back => ?_)
        (fun x _ notNext => ?_) (fun x _ next => ?_)
      · rw [optrs, if_neg notBack]
      · rw [optrs, if_pos back]
      · rw [yptrs, if_neg notNext]
      · rw [yptrs, if_pos next]
    · rw [Function.update_of_ne isParent]
      have first : cptr p = s.cptr p := by
        rw [cptrs, if_neg fun both => isParent both.2]
      change Listed optr yptr none (cptr p) (kids p)
      rw [first]
      refine listed_congr (fun x mem => ?_) (fun x mem => ?_) (linked.chain p here')
      · rw [optrs, if_neg fun back => kids_apart linked here' parent isParent mem (older_mem x back)]
      · rw [yptrs, if_neg fun next => kids_apart linked here' parent isParent mem (younger_mem x next)]
  · by_cases isParent : p = s.parent proc
    · rw [isParent, Function.update_self]
      exact (linked.nodup _ parent).erase _
    · rw [Function.update_of_ne isParent]
      exact linked.nodup p (present p here)
  · change c ∈ Function.update kids (s.parent proc) _ p ↔ c ∈ s.procList.erase proc ∧ s.parent c = p
    rw [erase_mem]
    by_cases isParent : p = s.parent proc
    · subst p
      rw [Function.update_self, List.Nodup.mem_erase_iff (linked.nodup _ parent), linked.members _ parent, and_assoc]
    · rw [Function.update_of_ne isParent, linked.members p (present p here)]
      refine ⟨fun ⟨old, parented⟩ => ⟨⟨?_, old⟩, parented⟩, fun ⟨⟨_, old⟩, parented⟩ => ⟨old, parented⟩⟩
      rintro rfl
      exact isParent parented.symm
  · change s.nrProcess - 1 = (s.procList.erase proc).length + 1
    have nonempty := List.length_pos_of_mem known
    rw [linked.count, List.length_erase_of_mem known]
    omega
  · obtain ⟨_, old⟩ := (erase_mem c).mp left
    rcases linked.parents c old with idle | listed
    · exact .inl idle
    · exact .inr ((erase_mem _).mpr ⟨childless c old, listed⟩)
  · change p ∈ Function.update s.hashList (pidHashfn (s.pid proc)) ((s.hashList (pidHashfn (s.pid proc))).erase proc) b
      at hash
    change p ∈ s.procList.erase proc ∧ _
    rw [erase_mem]
    by_cases bucket : b = pidHashfn (s.pid proc)
    · subst b
      rw [Function.update_self, List.Nodup.mem_erase_iff (linked.buckets _)] at hash
      exact ⟨⟨hash.1, (linked.hashed _ p hash.2).1⟩, (linked.hashed _ p hash.2).2⟩
    · rw [Function.update_of_ne bucket] at hash
      obtain ⟨old, place⟩ := linked.hashed b p hash
      refine ⟨⟨?_, old⟩, place⟩
      rintro rfl
      exact bucket place.symm
  · change (Function.update s.hashList (pidHashfn (s.pid proc)) ((s.hashList (pidHashfn (s.pid proc))).erase proc)
      b).Nodup
    by_cases bucket : b = pidHashfn (s.pid proc)
    · rw [bucket, Function.update_self]
      exact (linked.buckets _).erase _
    · rw [Function.update_of_ne bucket]
      exact linked.buckets b

theorem adopt_eq (proc : Nat) (notInit : current ≠ s.initproc) : ∃ yptr, adopt current proc s = { s with
    cptr := Function.update (Function.update s.cptr current (s.optr proc)) s.initproc (some proc)
    yptr := yptr
    optr := Function.update s.optr proc (s.cptr s.initproc)
    parent := Function.update s.parent proc s.initproc } ∧
    ∀ q, yptr q = if s.cptr s.initproc = some q then some proc else Function.update s.yptr proc none q := by
  have older : Function.update s.cptr current (s.optr proc) s.initproc = s.cptr s.initproc :=
    Function.update_of_ne (Ne.symm notInit) ..
  let v : Family := { s with
    cptr := Function.update s.cptr current (s.optr proc)
    yptr := Function.update s.yptr proc none
    optr := Function.update s.optr proc (s.cptr s.initproc) }
  obtain ⟨yptr, shape⟩ := set_yptr_eq (s := v) (o := s.cptr s.initproc) (y := some proc)
  refine ⟨yptr, ?_, fun q => ?_⟩
  · unfold adopt
    dsimp only
    rw [older, show Family.setYptr _ _ _ = _ from shape]
  · have value := set_yptr_yptr (s := v) (o := s.cptr s.initproc) (y := some proc) (q := q)
    rw [shape] at value
    exact value

theorem adopt_same (notInit : current ≠ s.initproc) :
    (adopt current proc s).initproc = s.initproc ∧ (adopt current proc s).idleproc = s.idleproc ∧
    (adopt current proc s).procList = s.procList ∧ (adopt current proc s).state = s.state ∧
    (adopt current proc s).parent = Function.update s.parent proc s.initproc := by
  obtain ⟨_, shape, _⟩ := adopt_eq proc notInit
  rw [shape]
  exact ⟨rfl, rfl, rfl, rfl, rfl⟩

theorem adopt_linked {rest : List Nat} (linked : Linked s kids head)
    (known : s.Present current) (notInit : current ≠ s.initproc) (own : kids current = proc :: rest)
    (heads : ∀ p, p ≠ current → head p = none) :
    Linked (adopt current proc s)
      (Function.update (Function.update kids current rest) s.initproc (proc :: kids s.initproc))
      (Function.update (fun _ => none) current (some proc)) := by
  obtain ⟨yptr, shape, young⟩ := adopt_eq proc notInit
  have initKnown : s.Present s.initproc := .inr linked.init
  have mem : proc ∈ kids current := by
    rw [own]
    exact List.mem_cons_self ..
  obtain ⟨listed, parented⟩ := (linked.members current known proc).mp mem
  have nodup := linked.nodup current known
  have chain := linked.chain current known
  rw [own] at nodup chain
  obtain ⟨outside, restNodup⟩ := List.nodup_cons.mp nodup
  have notElder : proc ∉ kids s.initproc := kids_apart linked known initKnown notInit mem
  have notFirst : s.cptr s.initproc ≠ some proc := fun first => notElder (cptr_mem linked initKnown first)
  have optrOther : ∀ q, q ≠ proc → Function.update s.optr proc (s.cptr s.initproc) q = s.optr q :=
    fun q other => Function.update_of_ne other ..
  have yptrOther : ∀ q, q ≠ proc → s.cptr s.initproc ≠ some q → yptr q = s.yptr q := by
    intro q other notHead
    rw [young, if_neg notHead, Function.update_of_ne other]
  have away : ∀ p, s.Present p → p ≠ s.initproc → ∀ q ∈ kids p, s.cptr s.initproc ≠ some q :=
    fun p here other q kid first => kids_apart linked here initKnown other kid (cptr_mem linked initKnown first)
  rw [shape]
  refine ⟨fun p here => ?_, fun p here => ?_, fun p here c => ?_, linked.distinct, linked.count, linked.idle,
    linked.init, fun c mem => ?_, linked.hashed, linked.buckets⟩
  · have here' : s.Present p := here
    change Listed (Function.update s.optr proc (s.cptr s.initproc)) yptr _
      (Function.update (Function.update s.cptr current (s.optr proc)) s.initproc (some proc) p) _
    by_cases isInit : p = s.initproc
    · subst p
      rw [Function.update_self, Function.update_self, Function.update_of_ne (Ne.symm notInit)]
      have chainInit := linked.chain s.initproc initKnown
      rw [heads _ (Ne.symm notInit)] at chainInit
      refine listed_push notElder (Function.update_self ..) ?_ (fun x kid => optrOther x ?_) (fun x start => ?_)
        (fun x kid notHead => yptrOther x ?_ notHead) (linked.nodup _ initKnown) chainInit
      · rw [young, if_neg notFirst, Function.update_self]
      · rintro rfl
        exact notElder kid
      · rw [young, if_pos start]
      · rintro rfl
        exact notElder kid
    · rw [Function.update_of_ne isInit, Function.update_of_ne isInit]
      by_cases isCurrent : p = current
      · subst p
        rw [Function.update_self, Function.update_self, Function.update_self]
        refine listed_congr (fun x kid => optrOther x ?_) (fun x kid => yptrOther x ?_ ?_) chain.2.2
        · rintro rfl
          exact outside kid
        · rintro rfl
          exact outside kid
        · apply away current known notInit
          rw [own]
          exact List.mem_cons_of_mem _ kid
      · rw [Function.update_of_ne isCurrent, Function.update_of_ne isCurrent, Function.update_of_ne isCurrent]
        have chainP := linked.chain p here'
        rw [heads p isCurrent] at chainP
        have notMine : ∀ x ∈ kids p, x ≠ proc := by
          rintro x kid rfl
          exact kids_apart linked here' known isCurrent kid mem
        exact listed_congr (fun x kid => optrOther x (notMine x kid))
          (fun x kid => yptrOther x (notMine x kid) (away p here' isInit x kid)) chainP
  · by_cases isInit : p = s.initproc
    · rw [isInit, Function.update_self]
      exact List.nodup_cons.mpr ⟨notElder, linked.nodup _ initKnown⟩
    · rw [Function.update_of_ne isInit]
      by_cases isCurrent : p = current
      · rw [isCurrent, Function.update_self]
        exact restNodup
      · rw [Function.update_of_ne isCurrent]
        exact linked.nodup p here
  · change _ ↔ c ∈ s.procList ∧ Function.update s.parent proc s.initproc c = p
    rw [Function.update_apply s.parent]
    by_cases isInit : p = s.initproc
    · subst p
      rw [Function.update_self, List.mem_cons, linked.members _ initKnown]
      by_cases same : c = proc
      · rw [if_pos same]
        exact iff_of_true (.inl same) ⟨same ▸ listed, rfl⟩
      · rw [if_neg same, or_iff_right same]
    · rw [Function.update_of_ne isInit]
      by_cases isCurrent : p = current
      · subst p
        rw [Function.update_self]
        by_cases same : c = proc
        · rw [if_pos same]
          exact iff_of_false (same ▸ outside) fun both => notInit both.2.symm
        · rw [if_neg same, ← linked.members current known, own, List.mem_cons, or_iff_right same]
      · rw [Function.update_of_ne isCurrent, linked.members p here]
        by_cases same : c = proc
        · rw [if_pos same, same, parented]
          exact iff_of_false (fun both => isCurrent both.2.symm) fun both => isInit both.2.symm
        · rw [if_neg same]
  · change s.Present (Function.update s.parent proc s.initproc c)
    rw [Function.update_apply s.parent]
    by_cases same : c = proc
    · rw [if_pos same]
      exact initKnown
    · rw [if_neg same]
      exact linked.parents c mem

/- The loop of `do_exit`: every child goes to `initproc`. -/
theorem reparent_ends {rest : List Nat} {fuel : Nat} (linked : Linked s kids head) (known : s.Present current)
    (notInit : current ≠ s.initproc) (own : kids current = rest) (heads : ∀ p, p ≠ current → head p = none)
    (lives : s.state s.initproc ≠ .zombie) (enough : rest.length < fuel) :
    ∃ t, reparent current fuel s = .ok ((), t) ∧ (∃ kids', Linked t kids' fun _ => none) ∧
      t.procList = s.procList ∧ t.idleproc = s.idleproc ∧ t.initproc = s.initproc ∧
      (∀ q, t.state q = .zombie ↔ s.state q = .zombie) ∧
      ∀ c, t.parent c = if c ∈ rest then s.initproc else s.parent c := by
  induction rest generalizing s kids head fuel with
  | nil =>
    obtain ⟨fuel, rfl⟩ := Nat.exists_eq_succ_of_ne_zero (Nat.ne_of_gt enough)
    have none_ : s.cptr current = none := by
      have chain := linked.chain current known
      rw [own] at chain
      exact chain
    refine ⟨s, ?_, ⟨kids, { linked with chain := fun p here => ?_ }⟩, rfl, rfl, rfl, fun _ => Iff.rfl, fun c => rfl⟩
    · rw [reparent, run_get_bind, none_]
      rfl
    · by_cases isCurrent : p = current
      · rw [isCurrent, own]
        exact none_
      · have chain := linked.chain p here
        rw [heads p isCurrent] at chain
        exact chain
  | cons proc rest ih =>
    obtain ⟨fuel, rfl⟩ := Nat.exists_eq_succ_of_ne_zero (Nat.ne_of_gt (Nat.zero_lt_of_lt enough))
    have chain := linked.chain current known
    have nodup := linked.nodup current known
    rw [own] at chain nodup
    have moved := adopt_linked linked known notInit own heads
    let v := adopt current proc s
    obtain ⟨sameInit, sameIdle, sameProcs, sameState, sameParent⟩ : v.initproc = s.initproc ∧
      v.idleproc = s.idleproc ∧ v.procList = s.procList ∧ v.state = s.state ∧ _ := adopt_same notInit
    have livesV : v.state v.initproc ≠ .zombie := by
      rw [sameInit, sameState]
      exact lives
    obtain ⟨state, waitState, woke, zombies⟩ := wakeup_if_ends (s := v)
      fun _ : v.state proc = .zombie ∧ v.waitState v.initproc = .child => livesV
    let u : Family := { v with state := state, waitState := waitState }
    have linkedU : Linked u (Function.update (Function.update kids current rest) s.initproc (proc :: kids s.initproc))
        (Function.update (fun _ => none) current (some proc)) := { moved with }
    have ownU : Function.update (Function.update kids current rest) s.initproc (proc :: kids s.initproc) current =
        rest := by
      rw [Function.update_of_ne notInit, Function.update_self]
    have notInitU : current ≠ u.initproc := by
      rw [show u.initproc = s.initproc from sameInit]
      exact notInit
    have knownU : u.Present current := by
      rw [show u.Present current ↔ s.Present current by
        unfold Family.Present
        rw [show u.idleproc = s.idleproc from sameIdle, show u.procList = s.procList from sameProcs]]
      exact known
    obtain ⟨t, ran, linkedT, procs, idle, init, states, parents⟩ := ih linkedU knownU notInitU ownU
      (fun p other => Function.update_of_ne other ..) (fun zombie => livesV ((zombies _).mp zombie))
      (Nat.lt_of_succ_lt_succ enough)
    refine ⟨t, ?_, linkedT, procs.trans sameProcs, idle.trans sameIdle, init.trans sameInit, fun q => ?_,
      fun c => ?_⟩
    · rw [reparent, run_get_bind, chain.1]
      dsimp only
      rw [run_modify_bind, run_get_bind]
      exact (woke (reparent current fuel)).trans ran
    · rw [states, zombies, sameState]
    · rw [parents]
      have here : u.parent c = if c = proc then s.initproc else s.parent c := by
        rw [show u.parent = Function.update s.parent proc s.initproc from sameParent]
        exact Function.update_apply ..
      rw [here, show u.initproc = s.initproc from sameInit]
      by_cases same : c = proc
      · subst c
        rw [if_neg (List.nodup_cons.mp nodup).1, if_pos rfl, if_pos (List.mem_cons_self ..)]
      · rw [if_neg same]
        by_cases mem : c ∈ rest
        · rw [if_pos mem, if_pos (List.mem_cons_of_mem _ mem)]
        · rw [if_neg mem, if_neg fun inside => mem ((List.mem_cons.mp inside).resolve_left same)]

/- The walk of `do_wait` finds the first zombie among the children. -/
theorem first_zombie_ends {start prev : Option Nat} {children : List Nat} {fuel : Nat}
    (listed : Listed s.optr s.yptr prev start children) (enough : children.length ≤ fuel) :
    firstZombie fuel start s = .ok (children.find? fun c => s.state c = .zombie, s) := by
  induction children generalizing prev start fuel with
  | nil =>
    rw [show start = none from listed]
    cases fuel <;> rfl
  | cons c children ih =>
    obtain ⟨fuel, rfl⟩ := Nat.exists_eq_succ_of_ne_zero (Nat.ne_of_gt (Nat.lt_of_lt_of_le (Nat.succ_pos _) enough))
    obtain ⟨first, _, rest⟩ := listed
    rw [first, firstZombie, run_get_bind]
    by_cases zombie : s.state c = .zombie
    · have head : (c :: children).find? (fun c => s.state c = .zombie) = some c :=
        List.find?_cons_of_pos (decide_eq_true zombie)
      rw [if_pos zombie, head]
      rfl
    · have tail : (c :: children).find? (fun c => s.state c = .zombie) =
          children.find? fun c => s.state c = .zombie := List.find?_cons_of_neg (by simpa using zombie)
      rw [if_neg zombie, tail]
      exact ih rest (Nat.le_of_succ_le_succ enough)

end

end Ucore.Relations
