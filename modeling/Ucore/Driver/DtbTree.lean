import Ucore.Driver.Dtb

/- A device tree in memory, and the node whose `reg` the scan takes. -/
namespace Ucore.Dtb

/- `addr` is where the data lie. -/
structure Property where
  name : List UInt8
  data : List UInt8
  addr : Nat
  deriving DecidableEq

/- A node with its children, and the nodes after it. -/
inductive Forest where
  | nil
  | node (name : List UInt8) (props : List Property) (children siblings : Forest)

inductive Token where
  | beginNode (name : List UInt8)
  | endNode
  | prop (p : Property)
  | nop
  deriving DecidableEq

def Forest.tokens : Forest → List Token
  | .nil => []
  | .node name props children siblings =>
      .beginNode name :: (props.map .prop ++ (children.tokens ++ .endNode :: siblings.tokens))

/- The tokens from `a` on, up to `FDT_END`. -/
def TokensAt (mem : Memory) (strings : Nat) : Nat → List Token → Prop
  | a, [] => be32 mem a = FDT_END
  | a, .nop :: ts => be32 mem a = FDT_NOP ∧ TokensAt mem strings (a + 4) ts
  | a, .endNode :: ts => be32 mem a = FDT_END_NODE ∧ TokensAt mem strings (a + 4) ts
  | a, .beginNode name :: ts => be32 mem a = FDT_BEGIN_NODE ∧ StringAt mem (a + 4) name ∧ name.length < 2147483648 ∧
      TokensAt mem strings (alignDown (a + 4 + name.length + 1 + 3)) ts
  | a, .prop p :: ts => be32 mem a = FDT_PROP ∧ be32 mem (a + 4) = p.data.length ∧
      StringAt mem (strings + be32 mem (a + 8)) p.name ∧ p.addr = a + 12 ∧
      (∀ i (inside : i < p.data.length), mem (p.addr + i) = p.data[i]) ∧
      TokensAt mem strings (alignDown (p.addr + p.data.length + 3)) ts

instance (mem : Memory) (a : Nat) (name : List UInt8) : Decidable (StringAt mem a name) := inferInstanceAs (Decidable (_ ∧ _ ∧ _))

instance decideTokensAt (mem : Memory) (strings : Nat) : ∀ a ts, Decidable (TokensAt mem strings a ts)
  | a, [] => inferInstanceAs (Decidable (be32 mem a = FDT_END))
  | a, .nop :: ts =>
      have := decideTokensAt mem strings (a + 4) ts
      inferInstanceAs (Decidable (_ ∧ _))
  | a, .endNode :: ts =>
      have := decideTokensAt mem strings (a + 4) ts
      inferInstanceAs (Decidable (_ ∧ _))
  | a, .beginNode name :: ts =>
      have := decideTokensAt mem strings (alignDown (a + 4 + name.length + 1 + 3)) ts
      inferInstanceAs (Decidable (_ ∧ _ ∧ _ ∧ _))
  | _, .prop p :: ts =>
      have := decideTokensAt mem strings (alignDown (p.addr + p.data.length + 3)) ts
      inferInstanceAs (Decidable (_ ∧ _ ∧ _ ∧ _ ∧ _ ∧ _))

/-- The tree lies in the blob, with NOPs anywhere among its tokens. -/
def Blob (mem : Memory) (dtb : Nat) (root : Forest) : Prop :=
  ∃ ts, ts.filter (· ≠ .nop) = root.tokens ∧
    TokensAt mem (dtb + be32 mem (dtb + 12)) (dtb + be32 mem (dtb + 8)) ts

def Property.IsReg (p : Property) : Prop := p.name = regName ∧ 16 ≤ p.data.length

instance : DecidablePred Property.IsReg := fun p => inferInstanceAs (Decidable (p.name = regName ∧ 16 ≤ p.data.length))

def regs (props : List Property) : List Property := props.filter (·.IsReg)

def IsMemory (name : List UInt8) : Prop := name = memoryName ∨ bytes "memory@" <+: name

instance : DecidablePred IsMemory := fun name =>
  inferInstanceAs (Decidable (name = memoryName ∨ bytes "memory@" <+: name))

/- The `reg`s of the memory nodes among the children of the root. -/
def memoryRegs : Forest → List Property
  | .nil => []
  | .node name props _ siblings => (if IsMemory name then regs props else []) ++ memoryRegs siblings

/- The `reg`s of the nodes whose name begins with `memory`, and of those that are reached from one by first children. -/
def flaggedRegs : Bool → Forest → List Property
  | _, .nil => []
  | inside, .node name props children siblings =>
      let inside := inside || decide (memoryName <+: name)
      (if inside then regs props else []) ++ (flaggedRegs inside children ++ flaggedRegs false siblings)

/- The base and the size. -/
def Property.pair (p : Property) : Nat × Nat :=
  (be64 (fun i => p.data.getD i 0) 0, be64 (fun i => p.data.getD i 0) 8)

/-- The scan ends with the `reg` of the first memory node, where there is one. -/
def MemoryRight (mem : Memory) (dtb : Nat) (children : Forest) : Prop :=
  ∃ n, ∀ fuel ≥ n,
    findReg mem (dtb + be32 mem (dtb + 12)) fuel (dtb + be32 mem (dtb + 8)) false =
      some ((memoryRegs children).head?.map (·.addr)) ∧
    extractMemoryInfo mem dtb fuel = some ((memoryRegs children).head?.map (·.pair))

section
variable {mem : Memory} {strings a dtb : Nat} {inside : Bool} {ts rest : List Token} {name : List UInt8}
  {p : Property} {props : List Property} {forest children : Forest}

/- The scan, token by token. -/
def walk : Bool → List Token → Option Property
  | _, [] => none
  | inside, .nop :: ts => walk inside ts
  | _, .endNode :: ts => walk false ts
  | inside, .beginNode name :: ts => walk (inside || decide (memoryName <+: name)) ts
  | inside, .prop p :: ts => if inside ∧ p.IsReg then some p else walk inside ts

theorem name_flag (here : StringAt mem a name) :
    (if strncmp mem a memoryName 6 = 0 then true else inside) = (inside || decide (memoryName <+: name)) := by
  have same : strncmp mem a memoryName 6 = 0 ↔ memoryName <+: name := strncmp_leads here (by decide : 0 ∉ memoryName)
  by_cases prefixed : memoryName <+: name
  · rw [if_pos (same.mpr prefixed), decide_eq_true prefixed, Bool.or_true]
  · rw [if_neg fun zero => prefixed (same.mp zero), decide_eq_false prefixed, Bool.or_false]

theorem find_prop {fuel : Nat} (token : be32 mem a = FDT_PROP) : findReg mem strings (fuel + 1) a inside =
    if inside = true ∧ strcmp mem (strings + be32 mem (a + 8)) regName = 0 ∧ be32 mem (a + 4) ≥ 16 then some (some (a + 12))
    else findReg mem strings fuel (alignDown (a + 12 + be32 mem (a + 4) + 3)) inside := by
  rw [findReg]
  dsimp only
  rw [fdt32_swaps, token, fdt32_swaps, fdt32_swaps]
  rfl

theorem find_walk (held : TokensAt mem strings a ts) : ∃ n, ∀ fuel ≥ n,
    findReg mem strings fuel a inside = some ((walk inside ts).map (·.addr)) := by
  induction ts generalizing a inside with
  | nil =>
    refine ⟨1, fun fuel enough => ?_⟩
    obtain ⟨fuel, rfl⟩ : ∃ m, fuel = m + 1 := ⟨fuel - 1, by omega⟩
    have token : be32 mem a = FDT_END := held
    rw [findReg, fdt32_swaps, token]
    rfl
  | cons t ts ih =>
    cases t with
    | nop =>
      obtain ⟨n, done⟩ := @ih (a + 4) inside held.2
      refine ⟨n + 1, fun fuel enough => ?_⟩
      obtain ⟨fuel, rfl⟩ : ∃ m, fuel = m + 1 := ⟨fuel - 1, by omega⟩
      rw [findReg, fdt32_swaps, held.1]
      exact done fuel (by omega)
    | endNode =>
      obtain ⟨n, done⟩ := @ih (a + 4) false held.2
      refine ⟨n + 1, fun fuel enough => ?_⟩
      obtain ⟨fuel, rfl⟩ : ∃ m, fuel = m + 1 := ⟨fuel - 1, by omega⟩
      rw [findReg, fdt32_swaps, held.1]
      exact done fuel (by omega)
    | beginNode name =>
      obtain ⟨token, string, short, rest⟩ := held
      obtain ⟨n, done⟩ := @ih _ (inside || decide (memoryName <+: name)) rest
      refine ⟨max n name.length + 1, fun fuel enough => ?_⟩
      obtain ⟨fuel, rfl⟩ : ∃ m, fuel = m + 1 := ⟨fuel - 1, by omega⟩
      have length := @strlen_string mem (a + 4) (fuel + 1) name string (by omega)
      have next : (((a + 4 : Nat) : Int) + nameLen name.length + 4).toNat = a + 4 + name.length + 1 + 3 := by
        unfold nameLen
        omega
      rw [findReg, fdt32_swaps, token]
      simp only [FDT_BEGIN_NODE, if_true, length, Option.bind_eq_bind, Option.bind_some]
      rw [name_flag string, next]
      exact done fuel (by omega)
    | prop p =>
      obtain ⟨token, length, string, place, bytes, rest⟩ := held
      obtain ⟨n, done⟩ := @ih _ inside rest
      refine ⟨n + 1, fun fuel enough => ?_⟩
      obtain ⟨fuel, rfl⟩ : ∃ m, fuel = m + 1 := ⟨fuel - 1, by omega⟩
      have same := strcmp_same string (by decide : 0 ∉ regName)
      have found : (inside = true ∧ strcmp mem (strings + be32 mem (a + 8)) regName = 0 ∧ p.data.length ≥ 16) ↔
          (inside = true ∧ p.IsReg) := and_congr_right fun _ => and_congr_left fun _ => same
      rw [find_prop token, length, ← place, walk]
      by_cases taken : inside = true ∧ p.IsReg
      · rw [if_pos (found.mpr taken), if_pos taken]
        rfl
      · rw [if_neg fun all => taken (found.mp all), if_neg taken]
        exact done fuel (by omega)

theorem walk_nops : walk inside ts = walk inside (ts.filter (· ≠ .nop)) := by
  induction ts generalizing inside with
  | nil => rfl
  | cons t ts ih =>
    cases t with
    | nop => exact ih
    | endNode => exact ih
    | beginNode name => exact ih
    | prop p =>
      have kept : (Token.prop p :: ts).filter (· ≠ .nop) = .prop p :: ts.filter (· ≠ .nop) := rfl
      rw [kept, walk, walk, ih]

theorem walk_props : walk inside (props.map .prop ++ rest) = (if inside then regs props else []).head?.or (walk inside rest) := by
  induction props with
  | nil => cases inside <;> rfl
  | cons p props ih =>
    rw [List.map_cons, List.cons_append, walk, ih]
    cases inside with
    | false => rfl
    | true =>
      change (if true = true ∧ p.IsReg then some p else _) = (regs (p :: props)).head?.or (walk true rest)
      by_cases taken : p.IsReg
      · rw [if_pos ⟨rfl, taken⟩]
        simp [regs, taken]
      · rw [if_neg fun both => taken both.2]
        simp [regs, taken]

/- What follows a forest is reached behind the end of a node, if there is one. -/
theorem walk_forest : walk inside (forest.tokens ++ rest) = (flaggedRegs inside forest).head?.or
    (walk (match forest with | .nil => inside | .node .. => false) rest) := by
  induction forest generalizing inside rest with
  | nil => rfl
  | node name props children siblings below after =>
    have ends : ∀ flag, walk flag (.endNode :: siblings.tokens ++ rest) =
        (flaggedRegs false siblings).head?.or (walk false rest) := by
      intro flag
      have next := @after false rest
      cases siblings <;> exact next
    unfold Forest.tokens flaggedRegs
    rw [List.cons_append, walk, List.append_assoc, walk_props, List.append_assoc, below, ends]
    simp only [List.head?_append, Option.or_assoc]

/- The properties that the scan passes, in their order. -/
def tokenProps (ts : List Token) : List Property := ts.filterMap fun t => match t with | .prop p => some p | _ => none

theorem token_props_nops : tokenProps (ts.filter (· ≠ .nop)) = tokenProps ts := by
  induction ts with
  | nil => rfl
  | cons t ts ih =>
    cases t with
    | nop => exact ih
    | endNode => exact ih
    | beginNode name => exact ih
    | prop p => exact congrArg (p :: ·) ih

theorem align_up (a : Nat) : a ≤ alignDown (a + 3) := by
  unfold alignDown
  omega

theorem token_props_placed (held : TokensAt mem strings a ts) : (∀ p ∈ tokenProps ts, a < p.addr) ∧
    (tokenProps ts).Pairwise (fun p q => p.addr < q.addr) ∧
    ∀ p ∈ tokenProps ts, ∀ i (inside : i < p.data.length), mem (p.addr + i) = p.data[i] := by
  induction ts generalizing a with
  | nil => exact ⟨fun p none_there => absurd none_there List.not_mem_nil, .nil, fun p none_there => absurd none_there List.not_mem_nil⟩
  | cons t ts ih =>
    cases t with
    | nop =>
      obtain ⟨above, order, bytes⟩ := ih held.2
      exact ⟨fun p mem => by have := above p mem; omega, order, bytes⟩
    | endNode =>
      obtain ⟨above, order, bytes⟩ := ih held.2
      exact ⟨fun p mem => by have := above p mem; omega, order, bytes⟩
    | beginNode name =>
      obtain ⟨_, _, _, rest⟩ := held
      obtain ⟨above, order, bytes⟩ := ih rest
      have next := align_up (a + 4 + name.length + 1)
      exact ⟨fun p mem => by have := above p mem; omega, order, bytes⟩
    | prop p =>
      obtain ⟨_, _, _, place, data, rest⟩ := held
      obtain ⟨above, order, bytes⟩ := ih rest
      have next := align_up (p.addr + p.data.length)
      refine ⟨fun q mem => ?_, .cons (fun q mem => by have := above q mem; omega) order, fun q mem => ?_⟩
      · rcases List.mem_cons.mp mem with rfl | later
        · omega
        · have := above q later
          omega
      · rcases List.mem_cons.mp mem with rfl | later
        · exact data
        · exact bytes q later

theorem token_props_append (us : List Token) : tokenProps (ts ++ us) = tokenProps ts ++ tokenProps us := List.filterMap_append

theorem token_props_own : tokenProps (props.map .prop) = props := by
  induction props with
  | nil => rfl
  | cons p props ih => exact congrArg (p :: ·) ih

theorem regs_sublist (flag : Prop) [Decidable flag] : (if flag then regs props else []).Sublist props := by
  split_ifs
  · exact List.filter_sublist
  · exact List.nil_sublist props

theorem flagged_sublist : (flaggedRegs inside forest).Sublist (tokenProps forest.tokens) := by
  induction forest generalizing inside with
  | nil => exact .slnil
  | node name props children siblings below after =>
    have whole : tokenProps (Forest.node name props children siblings).tokens =
        props ++ (tokenProps children.tokens ++ tokenProps siblings.tokens) := by
      change tokenProps (props.map .prop ++ (children.tokens ++ .endNode :: siblings.tokens)) = _
      rw [token_props_append, token_props_own, token_props_append]
      rfl
    rw [whole]
    exact (regs_sublist _).append (below.append after)

theorem memory_is_flagged (memory : IsMemory name) : memoryName <+: name := by
  rcases memory with rfl | unit
  · exact List.prefix_refl _
  · exact (by decide : memoryName <+: bytes "memory@").trans unit

theorem memory_sublist : (memoryRegs forest).Sublist (flaggedRegs inside forest) := by
  induction forest generalizing inside with
  | nil => exact .slnil
  | node name props children siblings below after =>
    unfold memoryRegs flaggedRegs
    dsimp only
    have own : (if IsMemory name then regs props else []).Sublist
        (if (inside || decide (memoryName <+: name)) = true then regs props else []) := by
      by_cases memory : IsMemory name
      · rw [if_pos memory, if_pos (by rw [decide_eq_true (memory_is_flagged memory), Bool.or_true])]
      · rw [if_neg memory]
        exact List.nil_sublist _
    exact own.append (after.trans (List.sublist_append_right _ _))

/- The first of a list is the first of a part of it, told by its place. -/
theorem heads_same_iff {xs ys : List Property} (part : xs.Sublist ys) (order : ys.Pairwise fun p q => p.addr < q.addr) :
    ys.head?.map (·.addr) = xs.head?.map (·.addr) ↔ ∀ p, ys.head? = some p → p ∈ xs := by
  cases ys with
  | nil =>
    obtain rfl := List.sublist_nil.mp part
    exact iff_of_true rfl fun p head => by cases head
  | cons y ys =>
    have later := (List.pairwise_cons.mp order).1
    constructor
    · intro same p head
      obtain rfl : y = p := Option.some.inj head
      cases xs with
      | nil => cases same
      | cons x xs =>
        have place : y.addr = x.addr := Option.some.inj same
        rcases List.mem_cons.mp (part.subset List.mem_cons_self) with rfl | after
        · exact List.mem_cons_self
        · have := later x after
          omega
    · intro first
      have mem := first y rfl
      cases part with
      | cons _ rest =>
        have := later y (rest.subset mem)
        omega
      | cons_cons _ rest => rfl

theorem be64_bytes (long : 16 ≤ p.data.length) (bytes : ∀ i (inside : i < p.data.length), mem (p.addr + i) = p.data[i])
    {k : Nat} (half : k ≤ 8) : be64 (fun i => p.data.getD i 0) k = be64 mem (p.addr + k) := by
  have byte : ∀ i, i < 16 → p.data.getD i 0 = mem (p.addr + i) := by
    intro i low
    rw [bytes i (by omega), List.getD_eq_getElem]
  unfold be64 be32
  dsimp only
  rw [byte k (by omega), byte (k + 1) (by omega), byte (k + 2) (by omega), byte (k + 3) (by omega), byte (k + 4) (by omega),
    byte (k + 4 + 1) (by omega), byte (k + 4 + 2) (by omega), byte (k + 4 + 3) (by omega)]
  simp only [Nat.add_assoc]

theorem pair_read (long : 16 ≤ p.data.length) (bytes : ∀ i (inside : i < p.data.length), mem (p.addr + i) = p.data[i]) :
    (fdt64ToCpu (load64 mem p.addr), fdt64ToCpu (load64 mem (p.addr + 8))) = p.pair := by
  have base := @be64_bytes mem p long bytes 0 (Nat.zero_le 8)
  have size := @be64_bytes mem p long bytes 8 (Nat.le_refl 8)
  rw [Nat.add_zero] at base
  unfold Property.pair
  rw [fdt64_swaps, fdt64_swaps, base, size]

theorem memory_regs_are : p ∈ memoryRegs forest → p.IsReg := by
  induction forest with
  | nil => exact fun none_there => absurd none_there List.not_mem_nil
  | node name props children siblings below after =>
    intro mem
    unfold memoryRegs at mem
    rcases List.mem_append.mp mem with own | later
    · split_ifs at own
      · exact of_decide_eq_true (List.mem_filter.mp own).2
      · cases own
    · exact after later

/- What the scan finds. -/
theorem blob_walk {root : Forest} (blob : Blob mem dtb root) : ∃ n, ∀ fuel ≥ n,
    findReg mem (dtb + be32 mem (dtb + 12)) fuel (dtb + be32 mem (dtb + 8)) false =
      some ((flaggedRegs false root).head?.map (·.addr)) := by
  obtain ⟨ts, whole, held⟩ := blob
  obtain ⟨n, done⟩ := @find_walk mem _ _ false ts held
  have tree := @walk_forest false [] root
  have last : ∀ flag, walk flag [] = none := fun flag => rfl
  rw [List.append_nil, last, Option.or_none] at tree
  refine ⟨n, fun fuel enough => ?_⟩
  rw [done fuel enough, walk_nops, whole, tree]

theorem memory_right_iff {name : List UInt8} {props : List Property} (blob : Blob mem dtb (.node name props children .nil)) :
    MemoryRight mem dtb children ↔
      ∀ p, (flaggedRegs false (.node name props children .nil)).head? = some p → p ∈ memoryRegs children := by
  obtain ⟨n, done⟩ := blob_walk blob
  obtain ⟨ts, whole, held⟩ := blob
  obtain ⟨_, order, bytes⟩ := token_props_placed held
  rw [← token_props_nops, whole] at order bytes
  have part : (memoryRegs children).Sublist (flaggedRegs false (.node name props children .nil)) := by
    have inner : (memoryRegs children).Sublist (flaggedRegs (false || decide (memoryName <+: name)) children) := memory_sublist
    exact (inner.trans (List.sublist_append_left _ _)).trans (List.sublist_append_right _ _)
  have inner : (flaggedRegs false (.node name props children .nil)).Sublist _ := flagged_sublist
  rw [← heads_same_iff part (order.sublist inner)]
  constructor
  · rintro ⟨n', right⟩
    have found := (right (max n n') (Nat.le_max_right _ _)).1
    rw [done (max n n') (Nat.le_max_left _ _)] at found
    exact Option.some.inj found
  · intro same
    refine ⟨n, fun fuel enough => ?_⟩
    have found := done fuel enough
    rw [same] at found
    refine ⟨found, ?_⟩
    unfold extractMemoryInfo
    simp only [fdt32_swaps, found, Option.bind_eq_bind, Option.bind_some]
    cases first : (memoryRegs children).head? with
    | none => rfl
    | some p =>
      have mem := List.mem_of_mem_head? first
      have pair := pair_read (memory_regs_are mem).2 (bytes p (inner.subset (part.subset mem)))
      simp only [Option.map_some, pair]

end

def blobOf (bytes : List UInt8) : Memory := fun a => bytes.getD a 0

def plainBlob : List UInt8 := [
  0, 0, 0, 0, 0, 0, 0, 0, 0, 0, 0, 16, 0, 0, 0, 76, 0, 0, 0, 1, 0, 0, 0, 0, 0, 0, 0, 1, 109, 101, 109, 111, 114, 121,
  0, 0, 0, 0, 0, 3, 0, 0, 0, 16, 0, 0, 0, 0, 0, 0, 0, 0, 128, 0, 0, 0, 0, 0, 0, 0, 8, 0, 0, 0, 0, 0, 0, 2, 0, 0, 0,
  2, 0, 0, 0, 9, 114, 101, 103, 0]

def controllerBlob : List UInt8 := [
  0, 0, 0, 0, 0, 0, 0, 0, 0, 0, 0, 16, 0, 0, 0, 132, 0, 0, 0, 1, 0, 0, 0, 0, 0, 0, 0, 1, 109, 101, 109, 111, 114,
  121, 45, 99, 111, 110, 116, 114, 111, 108, 108, 101, 114, 0, 0, 0, 0, 0, 0, 3, 0, 0, 0, 16, 0, 0, 0, 0, 0, 0, 0, 0,
  0, 0, 0, 1, 0, 0, 0, 0, 0, 0, 0, 1, 0, 0, 0, 2, 0, 0, 0, 1, 109, 101, 109, 111, 114, 121, 0, 0, 0, 0, 0, 3, 0, 0,
  0, 16, 0, 0, 0, 0, 0, 0, 0, 0, 128, 0, 0, 0, 0, 0, 0, 0, 8, 0, 0, 0, 0, 0, 0, 2, 0, 0, 0, 2, 0, 0, 0, 9, 114, 101,
  103, 0]

def plainTree : Forest := .node memoryName [⟨regName, [0, 0, 0, 0, 128, 0, 0, 0, 0, 0, 0, 0, 8, 0, 0, 0], 48⟩] .nil .nil

/- A tree of one memory node. -/
theorem plain_memory_found : MemoryRight (blobOf plainBlob) 0 plainTree ↔
    ∀ p, (flaggedRegs false (.node [] [] plainTree .nil)).head? = some p → p ∈ memoryRegs plainTree := by
  have held : TokensAt (blobOf plainBlob) (0 + be32 (blobOf plainBlob) (0 + 12)) (0 + be32 (blobOf plainBlob) (0 + 8))
      (Forest.node [] [] plainTree .nil).tokens := by decide
  exact memory_right_iff ⟨_, by decide, held⟩

def controllerTree : Forest :=
  .node (bytes "memory-controller") [⟨regName, [0, 0, 0, 0, 0, 0, 0, 1, 0, 0, 0, 0, 0, 0, 0, 1], 60⟩] .nil
    (.node memoryName [⟨regName, [0, 0, 0, 0, 128, 0, 0, 0, 0, 0, 0, 0, 8, 0, 0, 0], 104⟩] .nil .nil)

/- The registers of a memory controller are taken for the memory. -/
theorem controller_taken_for_memory : Blob (blobOf controllerBlob) 0 (.node [] [] controllerTree .nil) ∧
    (memoryRegs controllerTree).head?.map (·.pair) = some (0x80000000, 0x8000000) ∧
    (∃ fuel, extractMemoryInfo (blobOf controllerBlob) 0 fuel = some (some (1, 1))) ∧
    ¬ MemoryRight (blobOf controllerBlob) 0 controllerTree := by
  have held : TokensAt (blobOf controllerBlob) (0 + be32 (blobOf controllerBlob) (0 + 12))
      (0 + be32 (blobOf controllerBlob) (0 + 8)) (Forest.node [] [] controllerTree .nil).tokens := by decide
  have blob : Blob (blobOf controllerBlob) 0 (.node [] [] controllerTree .nil) := ⟨_, by decide, held⟩
  refine ⟨blob, by decide, ⟨20, by decide⟩, fun ⟨n, right⟩ => ?_⟩
  obtain ⟨n', done⟩ := blob_walk blob
  have found := (right (max n n') (Nat.le_max_left _ _)).1
  rw [done (max n n') (Nat.le_max_right _ _)] at found
  exact absurd (Option.some.inj found) (by decide)

end Ucore.Dtb
