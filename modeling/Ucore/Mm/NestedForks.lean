import Ucore.Mm.EagerOps

/- Which forks of lab5 leave every permitted write possible. -/
namespace Ucore.CowFork
open Programs Transitions

/-- A store goes through, or faults and can then be made, when the allocators have memory. -/
def CowState.Granted (s : CowState) (mm la : Nat) : Prop :=
  s.Writable mm la ∨ ∀ pages tables frame, CowState.offered { s with pages, tables } = some frame →
    tables.head?.getD false = true →
    ∃ t, doPgfault mm .store la { s with pages, tables } = .ok (0, t) ∧ t.Writable mm la

section
variable {pool : Finset Nat} {excess : Nat → Nat} {s t : CowState} {mm la dst src : Nat} {ret : Int} {perm : Perm}

theorem shared_marked (marked : perm.w = true ∨ perm.cow = true) : perm.shared.cow = true := by
  unfold Perm.shared
  split_ifs with write
  · rfl
  · exact marked.resolve_left write

/- The child's entry is marked only where the parent could write: `PTE_USER` drops a mark that is there. -/
theorem inherited_marked : perm.inherited.cow = true ↔ perm.w = true := by
  unfold Perm.inherited Perm.user
  split_ifs with write
  · exact ⟨fun _ => write, fun _ => rfl⟩
  · exact ⟨fun never => never.elim, fun yes => absurd yes write⟩

theorem forked_vmas (forked : Forked s t dst src ret) (notDst : mm ≠ dst) : t.vmas mm = s.vmas mm := by
  rcases forked.child with ⟨_, vmas, _⟩ | ⟨_, vmas, _⟩
  · rw [vmas, Function.update_of_ne notDst]
  · rw [vmas]

/- A page of the child has its VMA and its entry from the parent. -/
theorem forked_child (forked : Forked s t dst src ret) (valid : (t.pte dst la).v = true) :
    t.vmas dst = s.vmas src ∧ (s.pte src la).v = true ∧
      t.pte dst la = pteCreate (s.pte src la).page (s.pte src la).perm.inherited := by
  rcases forked.child with ⟨_, vmas, pages⟩ | ⟨_, _, invalid⟩
  · have there : (s.pte src la).v = true := by
      by_contra absent
      rw [(pages la).2 (Bool.eq_false_of_not_eq_true absent)] at valid
      cases valid
    refine ⟨?_, there, (pages la).1 there⟩
    rw [vmas, Function.update_self]
  · rw [invalid la] at valid
    cases valid

theorem forked_held (forked : Forked s t dst src ret) (apart : dst ≠ src) (held : ∀ mm, Held s mm) (bare : s.vmas dst = [])
    (mm : Nat) : Held t mm := by
  by_cases here : mm = dst
  · subst here
    have pages : ∀ i, (t.pte mm i).v = true → ∃ vma ∈ t.vmas mm, vma.vmStart ≤ i ∧ i < vma.vmEnd := by
      intro i valid
      obtain ⟨vmas, there, _⟩ := forked_child forked valid
      rw [vmas]
      exact (held src).held i there
    rcases forked.child with ⟨_, vmas, _⟩ | ⟨_, vmas, _⟩
    · have list : t.vmas mm = s.vmas src := by rw [vmas, Function.update_self]
      refine ⟨?_, ?_, pages⟩
      · rw [list]
        exact (held src).sorted
      · rw [list]
        exact (held src).proper
    · refine ⟨?_, ?_, pages⟩
      · rw [vmas]
        exact (held mm).sorted
      · rw [vmas]
        exact (held mm).proper
  · refine held_of_valid (held mm) (forked_vmas forked here) fun i valid => ?_
    rwa [(forked_same forked apart here i).1] at valid

theorem forked_marked (forked : Forked s t dst src ret)
    (owned : ∀ la, s.Permitted src la → (s.pte src la).v = true → (s.pte src la).perm.w = true)
    (marked : Marked s) : Marked t := by
  intro mm la permitted valid
  unfold CowState.Permitted at permitted
  by_cases here : mm = dst
  · subst here
    obtain ⟨vmas, there, entry⟩ := forked_child forked valid
    rw [vmas] at permitted
    rw [entry]
    exact .inr (inherited_marked.mpr (owned la permitted there))
  · rw [forked_vmas forked here] at permitted
    by_cases parent : mm = src
    · subst parent
      rcases forked.parent la with same | ⟨there, shared⟩
      · rw [same] at valid ⊢
        exact marked mm la permitted valid
      · rw [shared]
        exact .inr (shared_marked (marked mm la permitted there))
    · rw [forked.others mm la here parent] at valid ⊢
      exact marked mm la permitted valid

theorem fork_forks (inv : ForkInv pool s) (possible : (CowOp.fork dst src).Possible s)
    (ran : copyMm dst src s = .ok (ret, t)) : Forked s t dst src ret := by
  obtain ⟨apart, empty, bare⟩ := possible
  obtain ⟨excess, accounted⟩ := inv.accounted
  exact copy_mm_forks apart (inv.held src) empty bare accounted ran

theorem fork_simulates (inv : ForkInv pool s) (possible : (CowOp.fork dst src).Possible s)
    (ran : copyMm dst src s = .ok (ret, t)) : Simulates s t (.fork dst src, ret)
      (∀ la, s.Permitted src la → (s.pte src la).v = true → (s.pte src la).perm.w = true) := by
  have forked := fork_forks inv possible ran
  obtain ⟨apart, empty, bare⟩ := possible
  exact ⟨forked_eager forked apart empty, forked_held forked apart inv.held bare, forked_marked forked⟩

theorem answers_inv (inv : ForkInv pool s) (pages : List (Option Nat)) (tables : List Bool) :
    ForkInv pool { s with pages, tables } := by
  obtain ⟨⟨excess, accounted⟩, held⟩ := inv
  exact ⟨⟨excess, answers_accounted accounted⟩, fun mm => held_of_valid (held mm) rfl fun _ valid => valid⟩

theorem answers_simulates {op : CowOp × Int} {owned : Prop} {pages : List (Option Nat)} {tables : List Bool}
    (simulates : Simulates { s with pages, tables } t op owned) : Simulates s t op owned :=
  ⟨simulates.step, simulates.held, simulates.marked⟩

theorem step_simulates {c : CowCall × Int} (inv : ForkInv pool s) (step : ForkStep s c t) :
    Simulates s t (c.1.op, c.2) (c.1.Owned s) := by
  obtain ⟨possible, ran, loads⟩ := step
  obtain ⟨⟨op, pages, tables⟩, ret⟩ := c
  have inv := answers_inv inv pages tables
  obtain ⟨excess, accounted⟩ := inv.accounted
  refine @answers_simulates s t (op, ret) _ pages tables ?_
  dsimp only at ran
  cases op with
  | map mm la perm bytes =>
    have loaded : Meets (loadPage mm la perm.user bytes) { s with pages, tables } _ _ := load_page_cases accounted bytes
    unfold Meets at loaded
    change loadPage mm la perm.user bytes { s with pages, tables } = _ at ran
    rw [ran] at loaded
    exact map_simulates inv loads loaded.2
  | fork dst src => exact fork_simulates inv possible ran
  | fault mm code la =>
    obtain ⟨answer, u, run, _, faulted⟩ := pgfault_cases mm la accounted code
    cases run.symm.trans ran
    exact fault_simulates inv faulted
  | addVma mm vma =>
    obtain ⟨⟨⟩, u, ran, last⟩ := bind_ran ran
    cases last
    exact add_vma_simulates inv ran
  | write mm la off byte =>
    cases ran
    exact write_simulates inv possible
  | unmap mm start count =>
    obtain ⟨⟨⟩, u, ran, last⟩ := bind_ran ran
    cases last
    exact unmap_simulates inv ran
  | exit mm =>
    obtain ⟨⟨⟩, u, ran, last⟩ := bind_ran ran
    cases last
    exact exit_simulates inv ran

theorem step_inv {c : CowCall × Int} (inv : ForkInv pool s) (step : ForkStep s c t) : ForkInv pool t := by
  obtain ⟨excess, accounted⟩ := inv.accounted
  obtain ⟨larger, _, after⟩ := step_grows (fork_step_cow step) pool excess accounted
  exact ⟨⟨larger, after⟩, (step_simulates inv step).held⟩

end

end Ucore.CowFork
