import Ucore.Sync.SemRuns

/- One unit that passes through the semaphores `D`: it lies in one of them, was handed to a process that has not
   returned yet, or is with a process. -/
namespace Ucore.Sync
variable {S P : Type*} {D : S → Prop} {v : S → Int} {k k' : Sems S P} {p q : P} {s t : S}

inductive Baton (S P : Type*) where
  | free (s : S)
  | handed (p : P) (s : S)
  | active (p : P)
  deriving DecidableEq

@[simp] theorem active_not_free : Baton.active p ≠ .free s := fun same => nomatch same
@[simp] theorem active_not_handed : Baton.active p ≠ .handed q s := fun same => nomatch same
@[simp] theorem handed_not_free : Baton.handed p s ≠ .free t := fun same => nomatch same

variable [DecidableEq S] [DecidableEq P] {b : Baton S P}

structure Holds (D : S → Prop) (b : Baton S P) (k : Sems S P) : Prop where
  value : ∀ s, D s → k.value s = if b = .free s then 1 else 0
  granted : ∀ s, D s → ∀ p, k.Granted p s ↔ b = .handed p s

theorem holds_free (holds : Holds D b k) (ds : D s) (positive : 0 < k.value s) : b = .free s := by
  have value := holds.value s ds
  split_ifs at value with free
  · exact free
  · omega

theorem holds_fits (holds : Holds D (.active p) k) (ds : D s) : k.value s < INT_MAX := by
  rw [holds.value s ds, if_neg active_not_free]
  decide

theorem raised_passes (raised : Raised s k k') (holds : Holds D (.active p) k) : Holds D (.free s) k' := by
  have zero : ∀ t, D t → k.value t = 0 := fun t dt => (holds.value t dt).trans (if_neg active_not_free)
  constructor
  · intro t dt
    rw [raised.value]
    by_cases here : t = s
    · subst here
      rw [Function.update_self, if_pos rfl, zero t dt]
      rfl
    · have other : ¬ (Baton.free s : Baton S P) = .free t := fun same => here (Baton.free.inj same).symm
      rw [Function.update_of_ne here, if_neg other, zero t dt]
  · intro t dt q
    have before := holds.granted t dt q
    unfold Sems.Granted at before ⊢
    rw [raised.pos, raised.queue, before]
    exact ⟨fun same => (nomatch same), fun same => nomatch same⟩

theorem released_passes (sound : Sound v k) (released : Released s q k k') (holds : Holds D (.active p) k) :
    Holds D (.handed q s) k' := by
  constructor
  · intro t dt
    rw [released.value, holds.value t dt, if_neg active_not_free, if_neg handed_not_free]
  · intro t dt r
    have nobody : r ∉ {r | k.Granted r t} := fun mem => nomatch (holds.granted t dt r).mp mem
    change r ∈ {r | k'.Granted r t} ↔ _
    rw [released.granted sound t, Baton.handed.injEq]
    by_cases here : t = s
    · rw [if_pos here, Set.mem_insert_iff]
      constructor
      · rintro (same | mem)
        · exact ⟨same.symm, here.symm⟩
        · exact absurd mem nobody
      · exact fun both => .inl both.1.symm
    · rw [if_neg here]
      exact ⟨fun mem => absurd mem nobody, fun both => absurd both.2.symm here⟩

theorem raised_keeps (raised : Raised s k k') (outside : ¬ D s) (holds : Holds D b k) : Holds D b k' := by
  constructor
  · intro t dt
    have other : t ≠ s := fun here => outside (here ▸ dt)
    rw [raised.value, Function.update_of_ne other]
    exact holds.value t dt
  · intro t dt q
    have before := holds.granted t dt q
    unfold Sems.Granted at before ⊢
    rw [raised.pos, raised.queue]
    exact before

theorem released_keeps (sound : Sound v k) (released : Released s q k k') (outside : ¬ D s) (holds : Holds D b k) :
    Holds D b k' := by
  constructor
  · intro t dt
    rw [released.value]
    exact holds.value t dt
  · intro t dt r
    have other : t ≠ s := fun here => outside (here ▸ dt)
    have granted := released.granted sound t
    rw [if_neg other] at granted
    exact (Set.ext_iff.mp granted r).trans (holds.granted t dt r)

theorem taken_passes (p : P) (ds : D s) (positive : 0 < k.value s) (holds : Holds D b k) :
    Holds D (.active p) (takeUnit s k) := by
  have free := holds_free holds ds positive
  subst free
  constructor
  · intro t dt
    rw [if_neg active_not_free]
    have value := holds.value t dt
    change Function.update k.value s (k.value s - 1) t = 0
    by_cases here : t = s
    · subst here
      rw [Function.update_self, value, if_pos rfl]
      rfl
    · rw [Function.update_of_ne here, value, if_neg fun same => here (Baton.free.inj same).symm]
  · intro t dt q
    refine (holds.granted t dt q).trans ⟨fun same => (nomatch same), fun same => nomatch same⟩

theorem taken_keeps (outside : ¬ D s) (holds : Holds D b k) : Holds D b (takeUnit s k) := by
  constructor
  · intro t dt
    have other : t ≠ s := fun here => outside (here ▸ dt)
    exact (Function.update_of_ne other ..).trans (holds.value t dt)
  · exact holds.granted

theorem waiting_keeps (running : k.pos p = .running) (holds : Holds D b k) : Holds D b (k.waiting p s) :=
  ⟨holds.value, fun t dt q => (waiting_granted running q t).trans (holds.granted t dt q)⟩

theorem returned_passes (ds : D s) (granted : k.Granted p s) (returned : Returned p s k k') (holds : Holds D b k) :
    Holds D (.active p) k' := by
  have handed := (holds.granted s ds p).mp granted
  subst handed
  constructor
  · intro t dt
    rw [returned.value, holds.value t dt, if_neg handed_not_free, if_neg active_not_free]
  · intro t dt q
    rw [returned.granted, holds.granted t dt q, Baton.handed.injEq]
    exact ⟨fun both => absurd both.1.1.symm both.2, fun same => nomatch same⟩

theorem returned_keeps (outside : ¬ D s) (granted : k.Granted p s) (returned : Returned p s k k') (holds : Holds D b k) :
    Holds D b k' := by
  constructor
  · rw [returned.value]
    exact holds.value
  · intro t dt q
    have other : k.Granted q t → q ≠ p := by
      rintro mem rfl
      exact outside (Pos.down.inj (granted.1.symm.trans mem.1) ▸ dt)
    rw [returned.granted]
    exact ⟨fun both => (holds.granted t dt q).mp both.1, fun same =>
      ⟨(holds.granted t dt q).mpr same, other ((holds.granted t dt q).mpr same)⟩⟩

theorem aside_keeps (aside : Aside k k') (holds : Holds D b k) : Holds D b k' :=
  ⟨fun t dt => aside.value ▸ holds.value t dt, fun t dt q => (aside.granted q t).trans (holds.granted t dt q)⟩

end Ucore.Sync
