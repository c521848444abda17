import Ucore.Mm.ExecSteps

/- The arguments of `load_icode` go below the top of the stack, of which it has mapped four pages: the
   kernel stores to an address without a page exactly when they take more. -/
namespace Ucore.Exec
open Stopping
open CowFork (PGSIZE USTACKTOP USTACKSIZE word roundDown roundUp UserAccess)

/-- The bytes from the top of the stack down to the last one that the arguments take: the strings, the
pointers to them with the null that ends them, and `argc`. -/
def ArgList.pushed (args : ArgList) : Nat :=
  ((args.kargv.map fun arg => arg.length + 1).sum + 7) / 8 * 8 + 8 * (args.kargv.length + 2)

/-- There is a page behind every address from `low` to `high`. -/
def Backed (s : LoadState) (low high : Nat) : Prop :=
  ∀ a, low ≤ a → a < high → (s.pages (entry a)).isSome

/-- The VMAs are the same, and the pages are where they were. -/
structure SameMap (s t : LoadState) : Prop where
  mm : t.mm = s.mm
  pages : ∀ i, (t.pages i).isSome = (s.pages i).isSome

/-- The program stores to all the addresses from `low` to `high`, or faults where one has no page. -/
def Stores {α : Type} (m : LoadM α) (s : LoadState) (low high : Nat) (Q : α → Prop) : Prop :=
  Holds m s (fun a t => Backed s low high ∧ SameMap s t ∧ Q a) fun stopped _ =>
    stopped = .pageFault ∧ ¬ Backed s low high

section
variable {s t u : LoadState} {addr low mid high : Nat} {α β : Type} {m : LoadM α} {f : α → LoadM β} {Q : α → Prop}
  {R : β → Prop} {mm : MmStruct} {vma : Vma} {args : ArgList}

theorem same_map_refl : SameMap s s := ⟨rfl, fun _ => rfl⟩

theorem SameMap.trans (first : SameMap s t) (second : SameMap t u) : SameMap s u :=
  ⟨second.mm.trans first.mm, fun i => (second.pages i).trans (first.pages i)⟩

theorem backed_same (same : SameMap s t) : Backed t low high ↔ Backed s low high := by
  unfold Backed
  simp only [same.pages]

theorem set_byte_same {byte : UInt8} : SameMap s (s.setByte addr byte) := by
  refine ⟨rfl, fun i => ?_⟩
  unfold LoadState.setByte
  dsimp only
  split_ifs
  · rw [Option.isSome_map]
  · rfl

theorem backed_join (below : low ≤ mid) (above : mid ≤ high) :
    Backed s low high ↔ Backed s low mid ∧ Backed s mid high := by
  constructor
  · intro backed
    exact ⟨fun a from_low to_mid => backed a from_low (by omega), fun a from_mid to_high => backed a (by omega) to_high⟩
  · rintro ⟨lower, upper⟩ a from_low to_high
    by_cases early : a < mid
    · exact lower a from_low early
    · exact upper a (by omega) to_high

theorem stores_bind (below : low ≤ mid) (above : mid ≤ high) (first : Stores m s mid high Q)
    (rest : ∀ a t, SameMap s t → Q a → Stores (f a) t low mid R) : Stores (m >>= f) s low high R := by
  refine holds_bind.mpr (holds_mono first ?_ ?_)
  · rintro a t ⟨backed, same, post⟩
    refine holds_mono (rest a t same post) ?_ ?_
    · rintro b u ⟨lower, later, last⟩
      exact ⟨(backed_join below above).mpr ⟨(backed_same same).mp lower, backed⟩, same.trans later, last⟩
    · rintro stopped u ⟨fault, missing⟩
      exact ⟨fault, fun whole => missing ((backed_same same).mpr ((backed_join below above).mp whole).1)⟩
  · rintro stopped t ⟨fault, missing⟩
    exact ⟨fault, fun whole => missing ((backed_join below above).mp whole).2⟩

theorem stores_pure {a : α} (post : Q a) : Stores (pure a : LoadM α) s low low Q :=
  ⟨fun _ from_low to_low => absurd to_low (by omega), same_map_refl, post⟩

/- The bytes that an alignment skips are in the page of the last one stored to. -/
theorem backed_align (stored : mid < high) : Backed s (mid / 8 * 8) high ↔ Backed s mid high := by
  constructor
  · intro backed a from_mid to_high
    exact backed a (by omega) to_high
  · intro backed a from_low to_high
    by_cases skipped : a < mid
    · have here := backed mid le_rfl stored
      have page : entry a = entry mid := by
        unfold entry PGSIZE
        omega
      rwa [page]
    · exact backed a (by omega) to_high

theorem memcpy_stores (src : List UInt8) : ∀ {s : LoadState} {addr : Nat},
    Stores (memcpy addr src) s addr (addr + src.length) fun _ => True := by
  induction src with
  | nil =>
    intro s addr
    exact stores_pure trivial
  | cons byte rest ih =>
    intro s addr
    unfold memcpy
    refine holds_get_bind.mpr (holds_bind.mpr (holds_check.mpr ?_))
    by_cases here : (s.pages (entry addr)).isSome = true
    · rw [if_pos here]
      refine holds_set_bind.mpr (holds_mono (@ih (s.setByte addr byte) (addr + 1)) ?_ ?_)
      · rintro _ t ⟨backed, same, -⟩
        refine ⟨fun a from_low to_high => ?_, set_byte_same.trans same, trivial⟩
        rcases Nat.eq_or_lt_of_le from_low with rfl | later
        · exact here
        · refine (backed_same set_byte_same).mp backed a later ?_
          rw [List.length_cons] at to_high
          omega
      · rintro stopped t ⟨fault, missing⟩
        refine ⟨fault, fun whole => missing ((backed_same set_byte_same).mpr fun a from_low to_high => ?_)⟩
        refine whole a (by omega) ?_
        rw [List.length_cons]
        omega
    · rw [if_neg here]
      refine ⟨rfl, fun whole => here (whole addr le_rfl ?_)⟩
      rw [List.length_cons]
      omega

theorem find_vma_is (mem : vma ∈ mm.mmapList) (from_start : vma.vmStart ≤ addr) (to_end : addr < vma.vmEnd) :
    mm.findVma addr = some vma := by
  obtain ⟨list, ordered, proper⟩ := mm
  unfold MmStruct.findVma
  dsimp only at mem ⊢
  clear proper
  induction list with
  | nil => cases mem
  | cons first rest ih =>
    obtain ⟨apart, ordered⟩ := List.pairwise_cons.mp ordered
    rcases List.mem_cons.mp mem with rfl | later
    · exact List.find?_cons_of_pos (by simpa using ⟨from_start, to_end⟩)
    · have before := apart vma later
      rw [List.find?_cons_of_neg (by simp only [decide_eq_true_eq]; omega)]
      exact ih ordered later

theorem stack_checked (mem : stackVma ∈ mm.mmapList) {len : Nat} (some_bytes : 0 < len)
    (inside : USTACKTOP - USTACKSIZE + PGSIZE ≤ addr) (top : addr + len ≤ USTACKTOP) :
    userMemCheck mm addr len true = true := by
  have exact_end : word (addr + len) = addr + len := by
    unfold word USTACKTOP CowFork.USERTOP at *
    omega
  have access : UserAccess addr (addr + len) := by
    unfold UserAccess CowFork.USERBASE CowFork.USERTOP
    unfold USTACKTOP USTACKSIZE PGSIZE CowFork.USERTOP at inside
    unfold USTACKTOP CowFork.USERTOP at top
    omega
  obtain ⟨turns, length⟩ : ∃ turns, mm.mmapList.length = turns + 1 :=
    ⟨mm.mmapList.length - 1, by have := List.length_pos_of_mem mem; omega⟩
  have found : mm.findVma addr = some stackVma := find_vma_is mem (by unfold stackVma; dsimp only; omega)
    (by unfold stackVma; dsimp only; omega)
  have deep : ¬ addr < stackVma.vmStart + PGSIZE := by
    unfold stackVma
    dsimp only
    omega
  unfold userMemCheck
  rw [exact_end, if_neg (not_not.mpr access), length]
  unfold checkRange
  rw [if_neg (by omega), found]
  dsimp only
  rw [if_neg (by decide), if_neg (fun low => deep low.2.2)]
  unfold checkRange
  exact if_pos top

/- The stack has room for every list of arguments, so the check of the copy never fails. -/
theorem push_stores (mem : stackVma ∈ s.mm.mmapList) (src : List UInt8) (some_bytes : src ≠ [])
    (inside : USTACKTOP - USTACKSIZE + PGSIZE ≤ addr) (top : addr + src.length ≤ USTACKTOP) :
    Stores (push addr src) s addr (addr + src.length) fun _ => True := by
  have checked := stack_checked mem (List.length_pos_iff.mpr some_bytes) inside top
  unfold push copyToUser
  refine holds_bind.mpr (holds_get_bind.mpr ?_)
  rw [checked]
  refine holds_bind.mpr (holds_mono (memcpy_stores src) ?_ fun _ _ stopped => stopped)
  rintro _ t stored
  exact stored

theorem push_strings_store (rest : List (List UInt8)) : ∀ {s : LoadState} {sp : Nat} {uargv : List Nat},
    stackVma ∈ s.mm.mmapList → sp ≤ USTACKTOP →
    USTACKTOP - USTACKSIZE + PGSIZE + (rest.map fun arg => arg.length + 1).sum ≤ sp →
    Stores (pushStrings rest sp uargv) s (sp - (rest.map fun arg => arg.length + 1).sum) sp fun r =>
      r.1 = sp - (rest.map fun arg => arg.length + 1).sum ∧ r.2.length = rest.length + uargv.length := by
  induction rest with
  | nil =>
    intro s sp uargv mem top room
    exact stores_pure ⟨rfl, (Nat.zero_add _).symm⟩
  | cons arg rest ih =>
    intro s sp uargv mem top room
    rw [List.map_cons, List.sum_cons] at room ⊢
    unfold pushStrings
    have length : (arg ++ [0]).length = arg.length + 1 := List.length_append
    have stored := @push_stores s (sp - (arg.length + 1)) mem (arg ++ [0]) (List.append_ne_nil_of_right_ne_nil _
      (List.cons_ne_nil _ _)) (by omega) (by omega)
    rw [length, show sp - (arg.length + 1) + (arg.length + 1) = sp by omega] at stored
    refine stores_bind (by omega) (by omega) stored ?_
    rintro _ t same -
    have later := @ih t (sp - (arg.length + 1)) ((sp - (arg.length + 1)) :: uargv)
      (by rw [same.mm]; exact mem) (by omega) (by omega)
    rw [Nat.sub_sub] at later
    refine holds_mono later ?_ fun _ _ stopped => stopped
    rintro r u ⟨backed, kept, sp_is, length⟩
    refine ⟨backed, kept, sp_is, ?_⟩
    rw [length, List.length_cons, List.length_cons]
    omega

theorem push_words_store (rest : List Nat) : ∀ {s : LoadState} {sp : Nat}, stackVma ∈ s.mm.mmapList →
    sp ≤ USTACKTOP → USTACKTOP - USTACKSIZE + PGSIZE + 8 * rest.length ≤ sp →
    Stores (pushWords rest sp) s (sp - 8 * rest.length) sp fun r => r = sp - 8 * rest.length := by
  induction rest with
  | nil =>
    intro s sp mem top room
    exact stores_pure rfl
  | cons n rest ih =>
    intro s sp mem top room
    rw [List.length_cons] at room ⊢
    unfold pushWords
    have length : (uintptrBytes n).length = 8 := by
      unfold uintptrBytes
      rw [List.length_map, List.length_range]
    have stored := @push_stores s (sp - 8) mem (uintptrBytes n) (List.ne_nil_of_length_pos (by omega)) (by omega)
      (by omega)
    rw [length, show sp - 8 + 8 = sp by omega] at stored
    refine stores_bind (by omega) (by omega) stored ?_
    rintro _ t same -
    have later := @ih t (sp - 8) (by rw [same.mm]; exact mem) (by omega) (by omega)
    rwa [Nat.sub_sub, show 8 + 8 * rest.length = 8 * (rest.length + 1) by omega] at later

theorem strings_bound (kargv : List (List UInt8)) (short : ∀ arg ∈ kargv, arg.length ≤ EXEC_MAX_ARG_LEN) :
    kargv.length ≤ (kargv.map fun arg => arg.length + 1).sum ∧
    (kargv.map fun arg => arg.length + 1).sum ≤ kargv.length * (EXEC_MAX_ARG_LEN + 1) := by
  induction kargv with
  | nil => exact ⟨le_rfl, le_rfl⟩
  | cons arg rest ih =>
    obtain ⟨lower, upper⟩ := ih fun old mem => short old (.tail _ mem)
    have bound := short arg (.head _)
    rw [List.map_cons, List.sum_cons, List.length_cons, Nat.succ_mul]
    omega

theorem pushed_bound (args : ArgList) : 0 < args.pushed ∧ args.pushed + PGSIZE ≤ USTACKSIZE := by
  have strings := (strings_bound args.kargv fun arg mem => (args.short arg mem).1).2
  have few := args.few
  have most : args.kargv.length * (EXEC_MAX_ARG_LEN + 1) ≤ EXEC_MAX_ARG_NUM * (EXEC_MAX_ARG_LEN + 1) :=
    Nat.mul_le_mul_right _ few
  unfold ArgList.pushed USTACKSIZE PGSIZE
  unfold EXEC_MAX_ARG_NUM EXEC_MAX_ARG_LEN at *
  omega

theorem setup_args_stores (mem : stackVma ∈ s.mm.mmapList) (epc : Nat) :
    Stores (setupArgs args epc) s (USTACKTOP - args.pushed) USTACKTOP fun _ => True := by
  have bound := pushed_bound args
  have some_args : 0 < args.kargv.length := List.length_pos_iff.mpr args.some_args
  have strings := (strings_bound args.kargv fun arg mem => (args.short arg mem).1).1
  have reversed : (args.kargv.reverse.map fun arg => arg.length + 1).sum
      = (args.kargv.map fun arg => arg.length + 1).sum := by
    rw [List.map_reverse, List.sum_reverse]
  obtain ⟨total, total_is⟩ : ∃ total, (args.kargv.map fun arg => arg.length + 1).sum = total := ⟨_, rfl⟩
  unfold ArgList.pushed at bound ⊢
  rw [total_is] at bound strings reversed ⊢
  have stored := @push_strings_store args.kargv.reverse s USTACKTOP [] mem le_rfl
    (by rw [reversed]; unfold USTACKSIZE PGSIZE USTACKTOP CowFork.USERTOP at *; omega)
  rw [reversed] at stored
  have aligned : Stores (pushStrings args.kargv.reverse USTACKTOP []) s ((USTACKTOP - total) / 8 * 8) USTACKTOP fun r =>
      r.1 = USTACKTOP - total ∧ r.2.length = args.kargv.length := by
    have skip : Backed s ((USTACKTOP - total) / 8 * 8) USTACKTOP ↔ Backed s (USTACKTOP - total) USTACKTOP :=
      backed_align (by unfold USTACKTOP CowFork.USERTOP at *; omega)
    refine holds_mono stored ?_ ?_
    · rintro r t ⟨backed, same, sp_is, length⟩
      refine ⟨skip.mpr backed, same, sp_is, ?_⟩
      rw [length, List.length_reverse, List.length_nil, Nat.add_zero]
    · rintro stopped t ⟨fault, missing⟩
      exact ⟨fault, fun backed => missing (skip.mp backed)⟩
  unfold setupArgs
  refine stores_bind (by unfold USTACKTOP CowFork.USERTOP at *; omega) (by omega) aligned ?_
  rintro ⟨sp, uargv⟩ t same ⟨sp_is, length⟩
  dsimp only at sp_is length ⊢
  have words : (0 :: uargv.reverse).length = args.kargv.length + 1 := by
    rw [List.length_cons, List.length_reverse, length]
  have pointers := @push_words_store (0 :: uargv.reverse) t (sp / 8 * 8) (by rw [same.mm]; exact mem)
    (by omega) (by rw [words]; unfold USTACKSIZE PGSIZE USTACKTOP CowFork.USERTOP at *; omega)
  rw [words, sp_is] at pointers
  rw [sp_is]
  refine stores_bind (by unfold USTACKSIZE PGSIZE USTACKTOP CowFork.USERTOP at *; omega) (by omega) pointers ?_
  rintro argvUser u kept argv_is
  have argc := @push_words_store [args.kargv.length] u argvUser (by rw [kept.mm, same.mm]; exact mem)
    (by omega) (by rw [argv_is]; unfold USTACKSIZE PGSIZE USTACKTOP CowFork.USERTOP at *; simp only [List.length_singleton]; omega)
  rw [argv_is, List.length_singleton] at argc
  rw [argv_is]
  have ends : (USTACKTOP - total) / 8 * 8 - 8 * (args.kargv.length + 1) - 8 * 1
      = USTACKTOP - ((total + 7) / 8 * 8 + 8 * (args.kargv.length + 2)) := by
    unfold USTACKTOP USTACKSIZE PGSIZE CowFork.USERTOP at *
    omega
  rw [ends] at argc
  refine stores_bind le_rfl ?_ argc fun _ _ _ _ => stores_pure trivial
  unfold USTACKTOP USTACKSIZE PGSIZE CowFork.USERTOP at *
  omega

theorem build_stack_holds : Holds buildStack s (fun ret t => ret = 0 → stackVma ∈ t.mm.mmapList ∧
    Backed t (USTACKTOP - 4 * PGSIZE) USTACKTOP) fun stopped _ => stopped ≠ .pageFault := by
  unfold buildStack
  refine holds_bind.mpr (holds_mono mm_map_holds ?_ ?_)
  · intro ret t mapped
    by_cases failed : ret ≠ 0
    · rw [if_pos failed]
      exact fun zero => absurd zero failed
    · obtain ⟨-, inserts, mm⟩ := mapped.mapped (not_not.mp failed)
      have calm : ∀ {w : LoadState} stopped (t : LoadState), stopped = LoadStop.assertion ∧ t.touches = w.touches →
          stopped ≠ .pageFault := by
        rintro w _ t ⟨rfl, -⟩
        decide
      rw [if_neg failed]
      refine holds_bind.mpr (holds_mono stack_page_holds (fun _ t₁ ⟨mm₁, page₁, _⟩ => ?_) calm)
      refine holds_bind.mpr (holds_mono stack_page_holds (fun _ t₂ ⟨mm₂, page₂, kept₂, _⟩ => ?_) calm)
      refine holds_bind.mpr (holds_mono stack_page_holds (fun _ t₃ ⟨mm₃, page₃, kept₃, _⟩ => ?_) calm)
      refine holds_bind.mpr (holds_mono stack_page_holds (fun _ t₄ ⟨mm₄, page₄, kept₄, _⟩ => ?_) calm)
      refine fun _ => ⟨?_, fun a from_low to_top => ?_⟩
      · rw [mm₄, mm₃, mm₂, mm₁, mm]
        exact List.mem_append_right _ (.head _)
      · have pages : entry a = entry (USTACKTOP - 1 * PGSIZE) ∨ entry a = entry (USTACKTOP - 2 * PGSIZE) ∨
            entry a = entry (USTACKTOP - 3 * PGSIZE) ∨ entry a = entry (USTACKTOP - 4 * PGSIZE) := by
          unfold entry
          unfold USTACKTOP PGSIZE CowFork.USERTOP at *
          omega
        rcases pages with page | page | page | page
        · rw [page]
          exact kept₄ _ (kept₃ _ (kept₂ _ page₁))
        · rw [page]
          exact kept₄ _ (kept₃ _ page₂)
        · rw [page]
          exact kept₄ _ page₃
        · rw [page]
          exact page₄
  · rintro _ t ⟨rfl, -⟩
    decide

/-- The kernel has stored to an address without a page. -/
def Faults (r : EStateM.Result LoadStop LoadState β) : Prop := ∃ t, r = .error .pageFault t

theorem not_faults (holds : Holds m s (fun _ _ => True) fun stopped _ => stopped ≠ .pageFault) : ¬ Faults (m s) := by
  rintro ⟨t, fault⟩
  unfold Holds at holds
  rw [fault] at holds
  exact holds rfl

theorem stores_fault (stores : Stores m s low high Q) (missing : ¬ Backed s low high) : Faults (m s) := by
  unfold Stores Holds at stores
  cases run : m s with
  | ok a t =>
    rw [run] at stores
    exact absurd stores.1 missing
  | error stopped t =>
    rw [run] at stores
    exact ⟨t, congrArg (EStateM.Result.error · t) stores.1⟩

theorem grows_faultless (grows : Grows (· ≠ .pageFault) m) :
    Holds m s (fun _ _ => True) fun stopped _ => stopped ≠ .pageFault :=
  holds_mono (grows s) (fun _ _ _ => trivial) fun _ _ stopped => stopped.1

/- What is loaded ends with the VMA of the stack and its four pages. -/
theorem load_image_stack (file : Binary) (s : LoadState) : Holds (loadImage file) s
    (fun loaded t => loaded = .ok () → stackVma ∈ t.mm.mmapList ∧ Backed t (USTACKTOP - 4 * PGSIZE) USTACKTOP)
    fun stopped _ => stopped ≠ .pageFault := by
  unfold loadImage
  refine holds_step (grows_faultless alloc_page_grows) fun first _ _ => ?_
  cases first with
  | false => exact nofun
  | true =>
    refine holds_step (grows_faultless alloc_page_grows) fun second _ _ => ?_
    cases second with
    | false => exact nofun
    | true =>
      refine holds_step (grows_faultless (load_icode_read_grows (by decide))) fun ret _ _ => ?_
      by_cases short : ret ≠ 0
      · rw [if_pos short]
        exact nofun
      rw [if_neg short]
      by_cases magic : eMagic file ≠ CowFork.ELF_MAGIC
      · rw [if_pos magic]
        exact nofun
      rw [if_neg magic]
      refine holds_step (grows_faultless (load_segments_grows (by decide) (by decide) (by decide) _ _))
        fun loaded s _ => ?_
      cases loaded with
      | error ret => exact nofun
      | ok _ =>
        refine holds_step build_stack_holds fun ret t built => ?_
        by_cases failed : ret ≠ 0
        · rw [if_pos failed]
          exact nofun
        · rw [if_neg failed]
          exact fun _ => built (not_not.mp failed)

/- Arguments that fit in the four pages. -/
theorem load_icode_faultless (fits : args.pushed ≤ 4 * PGSIZE) (file : Binary) (s : LoadState) :
    Holds (loadIcode file args) s (fun _ _ => True) fun stopped _ => stopped ≠ .pageFault := by
  refine holds_step (load_image_stack file s) fun loaded t built => ?_
  cases loaded with
  | error ret => trivial
  | ok _ =>
    obtain ⟨mem, backed⟩ := built rfl
    refine holds_bind.mpr (holds_mono (setup_args_stores mem (eEntry file)) (fun _ _ _ => trivial) ?_)
    rintro stopped u ⟨-, missing⟩
    exact absurd (fun a from_low to_top => backed a (by omega) to_top) missing

/- A program without segments, and memory for its address space and its stack. -/
def bareElf : Binary := ⟨[0x7F, 0x45, 0x4C, 0x46] ++ List.replicate 60 0, by decide⟩

def spareFrames : List Frame := List.replicate 11 fun _ => 0

def onlyStack : LoadState :=
  match buildStack { execState spareFrames [] with memory := spareFrames.drop 4 } with
  | .ok _ t => t
  | .error _ t => t

theorem bare_elf_runs (args : ArgList) : loadIcode bareElf args (execState spareFrames []) =
    (do
      let tf ← setupArgs args (eEntry bareElf)
      return (0, some tf) : LoadM (Int × Option TrapFrame)) onlyStack :=
  rfl

theorem only_stack_mem : stackVma ∈ onlyStack.mm.mmapList := List.mem_cons_self

theorem only_four_pages : onlyStack.pages (entry (USTACKTOP - 4 * PGSIZE - 1)) = none := rfl

theorem long_args_fault (long : 4 * PGSIZE < args.pushed) :
    Faults (loadIcode bareElf args (execState spareFrames [])) := by
  have missing : ¬ Backed onlyStack (USTACKTOP - args.pushed) USTACKTOP := by
    intro backed
    have here := backed (USTACKTOP - 4 * PGSIZE - 1) (by omega) (by decide)
    rw [only_four_pages] at here
    cases here
  obtain ⟨t, fault⟩ := stores_fault (setup_args_stores only_stack_mem (eEntry bareElf)) missing
  rw [bare_elf_runs]
  exact ⟨t, run_bind_stop fault⟩

/-- For every list of arguments: whatever the file, the memory and the disk are, `load_icode` never stores to a
user address without a page, if and only if the arguments fit in the four pages of the stack that it maps. -/
theorem arguments_on_pages_exactly_when (args : ArgList) :
    (∀ file memory io, ¬ Faults (loadIcode file args (execState memory io))) ↔ args.pushed ≤ 4 * PGSIZE := by
  constructor
  · intro never
    by_contra long
    exact never _ _ _ (long_args_fault (by omega))
  · intro fits file memory io
    exact not_faults (load_icode_faultless fits file _)

/-- The same of the arguments that `do_execve` has copied from the process. -/
theorem copied_arguments_on_pages {old : MmStruct} {bytes : Nat → UInt8} {argc argv : Nat} {granted : List Bool}
    (copied : execveArgs old bytes argc argv granted = .ok args) :
    (∀ file memory io, ¬ Faults (doExecve old bytes argc argv granted file (execState memory io))) ↔
      args.pushed ≤ 4 * PGSIZE := by
  unfold doExecve
  rw [copied]
  constructor
  · intro never
    by_contra long
    exact never _ _ _ (long_args_fault (by omega))
  · intro fits file memory io
    exact not_faults (load_icode_faultless fits file _)

/- Four strings of the greatest length fill the four pages, and there are the pointers. -/
def fourLongArgs : ArgList where
  kargv := List.replicate 4 (List.replicate 4095 97)
  some_args := by decide
  few := by decide
  short := by
    intro arg mem
    rw [List.eq_of_mem_replicate mem, List.length_replicate]
    exact ⟨le_rfl, fun zero => absurd (List.eq_of_mem_replicate zero) (by decide)⟩

theorem four_long_args_fault : ¬ ∀ file memory io, ¬ Faults (loadIcode file fourLongArgs (execState memory io)) := by
  have long : 4 * PGSIZE < fourLongArgs.pushed := by
    unfold ArgList.pushed fourLongArgs PGSIZE
    simp only [List.map_replicate, List.length_replicate, List.sum_replicate]
    decide
  exact fun never => never _ _ _ (long_args_fault long)

end
end Ucore.Exec
