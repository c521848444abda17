import Ucore.Fs.Sfs.FileRuns

/- Whether an inode has left memory and come back, or has stayed: the calls that follow
   answer the same. -/
namespace Ucore
open Programs Words Transitions ByteFile

/-- The files look the same to every call: their sizes, blocks and bytes, and what is free. -/
structure Alike (F : Set Nat) (s t : Sfs) : Prop where
  unused : t.unusedBlocks = s.unusedBlocks
  size : ∀ k ∈ F, (t.inodes k).din.size = (s.inodes k).din.size
  blocks : ∀ k ∈ F, (t.inodes k).din.blocks = (s.inodes k).din.blocks
  entries : ∀ k ∈ F, (t.inodes k).din.indirect = 0 ↔ (s.inodes k).din.indirect = 0
  data : ∀ k ∈ F, fileData t k = fileData s k

/-- Both ended with the same answer, in states that look the same, or stopped for one reason. -/
def SameOutcome {α : Type} (F : Set Nat) : Except SfsStop (α × Sfs) → Except SfsStop (α × Sfs) → Prop
  | .ok (a, s), .ok (b, t) => b = a ∧ Alike F s t
  | .error e, .error e' => e' = e
  | _, _ => False

section
variable {s t s' t' : Sfs} {F : Set Nat} {k n : Nat}

theorem alike_need (alike : Alike F s t) (mem : k ∈ F) : need t k n = need s k n := by
  unfold need
  rw [alike.blocks k mem]
  simp only [alike.entries k mem]

theorem alike_limit (alike : Alike F s t) (mem : k ∈ F) : limit t k = limit s k := by
  unfold limit
  rw [alike.blocks k mem, alike.unused]
  simp only [alike.entries k mem]

/- What the rest of a change leaves alike, when file `k` is. -/
theorem alike_of_change (alike : Alike F s t) (unused : t'.unusedBlocks = s'.unusedBlocks)
    (others : ∀ g, g ≠ k → s'.inodes g = s.inodes g) (others' : ∀ g, g ≠ k → t'.inodes g = t.inodes g)
    (data : ∀ g ∈ F, g ≠ k → fileData s' g = fileData s g)
    (data' : ∀ g ∈ F, g ≠ k → fileData t' g = fileData t g)
    (size : (t'.inodes k).din.size = (s'.inodes k).din.size)
    (blocks : (t'.inodes k).din.blocks = (s'.inodes k).din.blocks)
    (entries : (t'.inodes k).din.indirect = 0 ↔ (s'.inodes k).din.indirect = 0)
    (bytes : fileData t' k = fileData s' k) : Alike F s' t' := by
  constructor
  · exact unused
  · intro g mem
    by_cases same : g = k
    · rw [same, size]
    · rw [others g same, others' g same, alike.size g mem]
  · intro g mem
    by_cases same : g = k
    · rw [same, blocks]
    · rw [others g same, others' g same, alike.blocks g mem]
  · intro g mem
    by_cases same : g = k
    · rw [same, entries]
    · rw [others g same, others' g same, alike.entries g mem]
  · intro g mem
    by_cases same : g = k
    · rw [same, bytes]
    · rw [data g mem same, data' g mem same, alike.data g mem]

theorem grown_alike (alike : Alike F s t) (mem : k ∈ F) (grown : Grown s k s') (grown' : Grown t k t')
    (blocks : (t'.inodes k).din.blocks = (s'.inodes k).din.blocks) :
    t'.unusedBlocks = s'.unusedBlocks ∧
      ((t'.inodes k).din.indirect = 0 ↔ (s'.inodes k).din.indirect = 0) := by
  have account := grown.account
  have account' := grown'.account
  have unused := alike.unused
  rw [alike_need alike mem, blocks] at account'
  constructor
  · omega
  · rw [grown.indirect, grown'.indirect, alike.entries k mem, blocks]

theorem written_alike (alike : Alike F s t) (mem : k ∈ F) {lo hi : Nat} {bytes : Nat → UInt8}
    (written : Written F s k lo hi bytes s') (written' : Written F t k lo hi bytes t') :
    Alike F s' t' := by
  have blocks : (t'.inodes k).din.blocks = (s'.inodes k).din.blocks := by
    rw [written.blocks, written'.blocks, alike.blocks k mem]
  obtain ⟨unused, entries⟩ := grown_alike alike mem written.grown written'.grown blocks
  exact alike_of_change alike unused written.others written'.others written.elsewhere
    written'.elsewhere (by rw [written.size, written'.size, alike.size k mem]) blocks entries
    (by rw [written.data, written'.data, alike.data k mem])

theorem extended_alike (alike : Alike F s t) (mem : k ∈ F) (extended : Extended F s k n s')
    (extended' : Extended F t k n t') : Alike F s' t' := by
  have blocks : (t'.inodes k).din.blocks = (s'.inodes k).din.blocks := by
    rw [extended.blocks, extended'.blocks, alike.blocks k mem]
  obtain ⟨unused, entries⟩ := grown_alike alike mem extended.grown extended'.grown blocks
  exact alike_of_change alike unused extended.others extended'.others extended.elsewhere
    extended'.elsewhere (by rw [extended.size, extended'.size, alike.size k mem]) blocks entries
    (by rw [extended.data, extended'.data, alike.data k mem])

theorem shrunk_alike (alike : Alike F s t) (mem : k ∈ F) (shrunk : Shrunk F s k n s')
    (shrunk' : Shrunk F t k n t') : Alike F s' t' := by
  have unused := shrunk.unused
  have unused' := shrunk'.unused
  have same := alike.unused
  rw [alike.blocks k mem] at unused'
  refine alike_of_change alike (by omega) shrunk.others shrunk'.others shrunk.elsewhere
    shrunk'.elsewhere (by rw [shrunk.size, shrunk'.size, alike.size k mem])
    (by rw [shrunk.blocks, shrunk'.blocks]) ?_ ?_
  · rw [shrunk.indirect, shrunk'.indirect]
    exact alike.entries k mem
  · funext p
    rw [shrunk.data, shrunk'.data, alike.data k mem]

theorem idle_alike (maps : BlockMaps s F) (maps' : BlockMaps t F) (alike : Alike F s t)
    (idle : Idle s s') (idle' : Idle t t') : Alike F s' t' := by
  constructor
  · rw [idle.unused, idle'.unused, alike.unused]
  · intro g mem
    rw [idle.inodes, idle'.inodes, alike.size g mem]
  · intro g mem
    rw [idle.inodes, idle'.inodes, alike.blocks g mem]
  · intro g mem
    rw [idle.inodes, idle'.inodes]
    exact alike.entries g mem
  · intro g mem
    rw [idle_data maps idle mem, idle_data maps' idle' mem, alike.data g mem]

theorem resize_alike (alike : Alike F s t) (size : Nat) :
    Alike F (s.resize k size) (t.resize k size) := by
  constructor
  · exact alike.unused
  · intro g mem
    by_cases same : g = k
    · rw [same, resize_size, resize_size]
    · rw [resize_other same, resize_other same]
      exact alike.size g mem
  · intro g mem
    rw [resize_blocks, resize_blocks]
    exact alike.blocks g mem
  · intro g mem
    rw [resize_map (s := t), resize_map (s := s)]
    exact alike.entries g mem
  · intro g mem
    rw [resize_data, resize_data]
    exact alike.data g mem

theorem sized_alike (alike : Alike F s t) (after : Alike F s' t') (mem : k ∈ F) (pos : Nat) :
    Alike F (sized s s' k pos) (sized t t' k pos) := by
  unfold sized
  rw [alike.size k mem]
  split_ifs
  · exact resize_alike after pos
  · exact after

theorem alike_symm (alike : Alike F s t) : Alike F t s :=
  ⟨alike.unused.symm, fun g mem => (alike.size g mem).symm, fun g mem => (alike.blocks g mem).symm,
    fun g mem => (alike.entries g mem).symm, fun g mem => (alike.data g mem).symm⟩

theorem alike_trans (first : Alike F s t) (second : Alike F t s') : Alike F s s' :=
  ⟨second.unused.trans first.unused, fun g mem => (second.size g mem).trans (first.size g mem),
    fun g mem => (second.blocks g mem).trans (first.blocks g mem),
    fun g mem => (second.entries g mem).trans (first.entries g mem),
    fun g mem => (second.data g mem).trans (first.data g mem)⟩

/- Writing an inode back changes nothing that a call sees. -/
theorem synced_alike (files : Files s F) (mem : k ∈ F) : Alike F s (synced s k) := by
  constructor
  · unfold synced
    split_ifs
    · rfl
    · rfl
  · intro g _
    rw [synced_din]
  · intro g _
    rw [synced_din]
  · intro g _
    rw [synced_din]
  · intro g mg
    have map := files.maps.map g mg
    have bounded := map.bounded
    have mapped : mappedSize (synced s k) g = mappedSize s g := by
      unfold mappedSize
      rw [synced_din]
    funext p
    unfold fileData
    rw [mapped]
    split_ifs with inside
    · have below := mapped_block.mp inside
      have valid : Slot.Valid (.data (p / SFS_BLKSIZE)) := Nat.lt_of_lt_of_le below bounded
      have apart : pointer s g (.data (p / SFS_BLKSIZE)) ≠ k :=
        (files.home k mem).2 g mg _ valid
      unfold fileByte
      rw [synced_pointer files.home mem mg]
      unfold synced
      split_ifs
      · exact congrFun (Function.update_of_ne apart _ _) _
      · rfl
    · rfl

theorem alike_served (alike : Alike F s t) (mem : k ∈ F) (lo hi : Nat) :
    served t k lo hi = served s k lo hi := by
  unfold served
  rw [alike_limit alike mem]

theorem alike_result (alike : Alike F s t) (mem : k ∈ F) {write : Bool} {buf : DiskBlock}
    {lo hi pos : Nat} : ioResult t k write buf lo hi pos = ioResult s k write buf lo hi pos := by
  unfold ioResult ioBuffer fileFrom
  rw [alike_limit alike mem, alike_served alike mem, alike.data k mem]

theorem io_alike {write : Bool} {offset : Int} {len : Nat} {buf : DiskBlock}
    {r r' : Except SfsStop (Answer × Sfs)} (maps : BlockMaps s F) (maps' : BlockMaps t F)
    (alike : Alike F s t) (mem : k ∈ F) (outcome : IoOutcome F s k buf offset len write r)
    (outcome' : IoOutcome F t k buf offset len write r') : SameOutcome F r r' := by
  have blocks := alike.blocks k mem
  have far : limit t k * SFS_BLKSIZE = limit s k * SFS_BLKSIZE := by rw [alike_limit alike mem]
  have ends : ioEnd (t.inodes k).din.size write offset.toNat len =
      ioEnd (s.inodes k).din.size write offset.toNat len := by rw [alike.size k mem]
  have past : PastEnd t k (ioEnd (t.inodes k).din.size write offset.toNat len) ↔
      PastEnd s k (ioEnd (s.inodes k).din.size write offset.toNat len) := by
    unfold PastEnd
    rw [ends, alike_limit alike mem]
  -- The two outcomes are of one kind, since each kind is told by what is alike.
  cases outcome with
  | invalid bad =>
    cases outcome' with
    | invalid bad' => exact ⟨rfl, alike⟩
    | _ => omega
  | nothing good empty =>
    cases outcome' with
    | nothing good' empty' => exact ⟨rfl, alike⟩
    | _ => omega
  | moved u good some start within near written =>
    cases outcome' with
    | moved u' good' some' start' within' near' written' =>
      rw [ends, alike_served alike mem, alike_result alike mem, alike.data k mem] at *
      exact ⟨rfl, sized_alike alike (written_alike alike mem written written') mem _⟩
    | pastEnd good' some' start' past' => exact absurd (past.mp past') within
    | _ => omega
  | stuck u good some start within farther idle =>
    cases outcome' with
    | stuck u' good' some' start' within' farther' idle' =>
      exact ⟨rfl, sized_alike alike (idle_alike maps maps' alike idle idle') mem _⟩
    | pastEnd good' some' start' past' => exact absurd (past.mp past') within
    | _ => omega
  | beyond good some farther =>
    cases outcome' with
    | beyond good' some' farther' => rfl
    | _ => omega
  | pastEnd good some start beyond =>
    cases outcome' with
    | pastEnd good' some' start' beyond' => rfl
    | moved u' good' some' start' within' => exact absurd (past.mpr beyond) within'
    | stuck u' good' some' start' within' => exact absurd (past.mpr beyond) within'
    | _ => omega

theorem trunc_alike {len : Int} {r r' : Except SfsStop (Int × Sfs)} (alike : Alike F s t)
    (mem : k ∈ F) (outcome : TruncOutcome F s k len r) (outcome' : TruncOutcome F t k len r') :
    SameOutcome F r r' := by
  have size := alike.size k mem
  have blocks := alike.blocks k mem
  have far := alike_limit alike mem
  have past : PastEnd t k len.toNat ↔ PastEnd s k len.toNat := by
    unfold PastEnd
    rw [far]
  have long : PastEnd s k len.toNat → maxBlocks < blocksFor len.toNat ∧ maxBlocks ≤ limit s k := by
    rintro ⟨bytes, enough⟩
    refine ⟨?_, enough⟩
    by_contra short
    have := blocks_for_le.mp (not_lt.mp short)
    omega
  cases outcome with
  | invalid bad =>
    cases outcome' with
    | invalid bad' => exact ⟨rfl, alike⟩
    | _ => omega
  | asItWas good same fitted =>
    cases outcome' with
    | asItWas good' same' fitted' => exact ⟨rfl, alike⟩
    | _ => omega
  | mismatch good same ahead =>
    cases outcome' with
    | mismatch good' same' ahead' => rfl
    | _ => omega
  | enlarged u good new more room few extended =>
    cases outcome' with
    | enlarged u' good' new' more' room' few' extended' =>
      exact ⟨rfl, resize_alike (extended_alike alike mem extended extended') _⟩
    | pastEnd good' new' more' past' =>
      have := long (past.mp past')
      omega
    | _ => omega
  | full u good new more noRoom few extended =>
    cases outcome' with
    | full u' good' new' more' noRoom' few' extended' =>
      rw [far] at extended'
      exact ⟨rfl, extended_alike alike mem extended extended'⟩
    | pastEnd good' new' more' past' =>
      have := long (past.mp past')
      omega
    | _ => omega
  | pastEnd good new more beyond =>
    have := long beyond
    cases outcome' with
    | pastEnd good' new' more' past' => rfl
    | _ => omega
  | reduced u good new fewer shrunk =>
    cases outcome' with
    | reduced u' good' new' fewer' shrunk' =>
      exact ⟨rfl, resize_alike (shrunk_alike alike mem shrunk shrunk') _⟩
    | _ => omega

end

/- What the calls answer, up to the one that stops the kernel. -/
def answers (s : Sfs) : List FileCall → List (Except SfsStop Answer)
  | [] => []
  | c :: cs =>
      match c.run s with
      | .ok (a, t) => .ok a :: answers t cs
      | .error e => [.error e]

/-- Every call is on one of the files, and leaves no count of blocks unmarked. -/
def Noticed (F : Set Nat) (s : Sfs) : List FileCall → Prop
  | [] => True
  | c :: cs => c.file ∈ F ∧ ¬ Unnoticed s c ∧ ∀ a t, c.run s = .ok (a, t) → Noticed F t cs

section
variable {s t : Sfs} {F : Set Nat} {k : Nat}

theorem answer_outcome {m : SfsM Int} (same : SameOutcome F (m s) (m t)) :
    SameOutcome F (answerOf m s) (answerOf m t) := by
  unfold answerOf
  cases run : m s with
  | error e =>
    cases run' : m t with
    | error e' =>
      rw [run, run'] at same
      rw [run_bind_stop run, run_bind_stop run']
      exact same
    | ok r' =>
      rw [run, run'] at same
      exact same.elim
  | ok r =>
    cases run' : m t with
    | error e' =>
      rw [run, run'] at same
      exact same.elim
    | ok r' =>
      rw [run, run'] at same
      rw [run_bind run, run_bind run']
      exact ⟨by rw [same.1], same.2⟩

theorem call_alike {c : FileCall} (files : Files s F) (files' : Files t F) (clean : Clean s F)
    (clean' : Clean t F) (alike : Alike F s t) (mem : c.file ∈ F) :
    SameOutcome F (c.run s) (c.run t) := by
  have maps := files.maps
  have maps' := files'.maps
  have file : ∀ g ∈ F, ∀ u, Files u F → (u.inodes g).din.type ≠ .dir := by
    intro g mg u filesU
    rw [filesU.regular g mg]
    decide
  cases c with
  | io write g offset len buf =>
    exact io_alike maps maps' alike mem
      (io_outcome maps mem (file g mem s files) buf offset len write)
      (io_outcome maps' mem (file g mem t files') buf offset len write)
  | truncate g len =>
    exact answer_outcome
      (trunc_alike alike mem (truncfile_outcome maps mem len) (truncfile_outcome maps' mem len))
  | tryseek g pos =>
    apply answer_outcome
    unfold sfsTryseek
    by_cases bad : pos < 0 ∨ pos ≥ SFS_MAX_FILE_SIZE
    · rw [if_pos bad]
      exact ⟨rfl, alike⟩
    · rw [if_neg bad, run_bind inode_run, run_bind inode_run, alike.size g mem]
      by_cases past : pos > (s.inodes g).din.size
      · rw [if_pos past]
        exact trunc_alike alike mem (truncfile_outcome maps mem pos) (truncfile_outcome maps' mem pos)
      · rw [if_neg past]
        exact ⟨rfl, alike⟩
  | reload g =>
    apply answer_outcome
    rw [reload_run maps.volume (files.home g mem).1 (encodable files mem) (clean g mem),
      reload_run maps'.volume (files'.home g mem).1 (encodable files' mem) (clean' g mem)]
    exact ⟨rfl, alike_trans (alike_symm (synced_alike files mem))
      (alike_trans alike (synced_alike files' mem))⟩

/- By induction on the calls, in states that look the same. -/
theorem answers_alike (calls : List FileCall) {s t : Sfs} (files : Files s F) (files' : Files t F)
    (clean : Clean s F) (clean' : Clean t F) (alike : Alike F s t) (noticed : Noticed F s calls)
    (noticed' : Noticed F t calls) : answers t calls = answers s calls := by
  induction calls generalizing s t with
  | nil => rfl
  | cons c cs ih =>
    obtain ⟨mem, first, rest⟩ := noticed
    obtain ⟨_, first', rest'⟩ := noticed'
    have same := call_alike files files' clean clean' alike mem
    unfold answers
    cases run : c.run s with
    | error e =>
      cases run' : c.run t with
      | error e' =>
        rw [run, run'] at same
        have same : e' = e := same
        rw [same]
      | ok r' =>
        rw [run, run'] at same
        exact same.elim
    | ok r =>
      cases run' : c.run t with
      | error e' =>
        rw [run, run'] at same
        exact same.elim
      | ok r' =>
        rw [run, run'] at same
        obtain ⟨answer, after⟩ := same
        obtain ⟨filesS, cleanS, _⟩ := call_keeps files clean mem run
        obtain ⟨filesT, cleanT, _⟩ := call_keeps files' clean' mem run'
        dsimp only
        rw [answer, ih filesS filesT (cleanS first) (cleanT first') after (rest _ _ run)
          (rest' _ _ run')]

/-- As long as every count of blocks is marked, an inode in memory that is not dirty is the one
on disk; it may leave memory and come back at any time, and nothing that follows tells. -/
theorem cache_is_transparent {s t : Sfs} {F : Set Nat} (files : Files s F) (clean : Clean s F)
    {calls : List FileCall}
    (run : Run (fun s c t => FileStep F s c t ∧ ¬ Unnoticed s c) s calls t) :
    ∀ k ∈ F, ((t.inodes k).dirty = false → HoldsInode (t.disk k) (t.inodes k).din) ∧
      ∃ u, sfsReload k t = .ok (0, u) ∧ (∀ g, (u.inodes g).din = (t.inodes g).din) ∧
        (∀ g ∈ F, ∀ a : Slot, a.Valid → pointer u g a = pointer t g a) ∧
        ∀ later, Noticed F t later → Noticed F u later → answers u later = answers t later := by
  have keep : ∀ s c t, Files s F ∧ Clean s F → FileStep F s c t ∧ ¬ Unnoticed s c →
      Files t F ∧ Clean t F := by
    rintro s c t ⟨files, clean⟩ ⟨⟨mem, a, ok⟩, noticed⟩
    obtain ⟨files', clean', _⟩ := call_keeps files clean mem ok
    exact ⟨files', clean' noticed⟩
  obtain ⟨files', clean'⟩ := run_invariant keep run ⟨files, clean⟩
  intro k mem
  refine ⟨clean' k mem, synced t k,
    reload_run files'.maps.volume (files'.home k mem).1 (encodable files' mem) (clean' k mem),
    synced_din, fun g mg a _ => synced_pointer files'.home mem mg a, ?_⟩
  intro later noticed noticed'
  exact answers_alike later files' (synced_files files' mem) clean' (synced_still_clean clean')
    (synced_alike files' mem) noticed noticed'

end

instance (s : Sfs) (k : Nat) : Decidable (Indirect s k) :=
  inferInstanceAs (Decidable (_ ∧ _))

instance (s : Sfs) : (c : FileCall) → Decidable (FillsHole s c)
  | .io .. => inferInstanceAs (Decidable (_ ∧ _))
  | .truncate .. => inferInstanceAs (Decidable False)
  | .tryseek .. => inferInstanceAs (Decidable False)
  | .reload _ => inferInstanceAs (Decidable False)

instance (s : Sfs) (c : FileCall) : Decidable (Unnoticed s c) :=
  inferInstanceAs (Decidable (_ ∧ (_ ∨ _)))

theorem noticed_calls_on_two_files : ∃ t u,
    Run (fun s c t => FileStep freshFiles s c t ∧ ¬ Unnoticed s c) (freshVolume 4)
      [.io true 1 0 5000 fun _ => 7, .reload 1, .truncate 1 30000, .tryseek 2 100] t ∧
    sfsReload 1 t = .ok (0, u) ∧ (u.inodes 1).din = (t.inodes 1).din := by
  have done : (replay (completeWhen fun s c => ¬ Unnoticed s c) (freshVolume 4)
      [.io true 1 0 5000 fun _ => 7, .reload 1, .truncate 1 30000, .tryseek 2 100]).isSome := by
    decide +kernel
  obtain ⟨t, ran⟩ := Option.isSome_iff_exists.mp done
  have run := run_mono (fun s c t => complete_when_step) (replay_run ran)
  have files := fresh_files four_free.1 four_free.2.1 four_free.2.2
  obtain ⟨_, u, reloaded, same, _⟩ := cache_is_transparent files fresh_clean run 1 (Or.inl rfl)
  exact ⟨t, u, run, reloaded, same 1⟩

/- Thirteen blocks and an entry block leave two: the file, just loaded, is to have sixteen. It
   stays with fifteen that nothing marks, and comes back with thirteen. -/
theorem unmarked_count : ∃ s t u, sfsTruncfile 1 (13 * 4096) (freshVolume 16) = .ok (0, s) ∧
    (do
      let _ ← sfsReload 1
      sfsTruncfile 1 (16 * 4096) : SfsM Int) s = .ok (-E_NO_MEM, t) ∧
    (t.inodes 1).dirty = false ∧ (t.inodes 1).din.blocks = 15 ∧
    ¬ HoldsInode (t.disk 1) (t.inodes 1).din ∧
    sfsReload 1 t = .ok (0, u) ∧ (u.inodes 1).din.blocks = 13 := by
  have seen : endsWith (fun ret s => decide (ret = 0) &&
      endsWith (fun ret t => decide (ret = -E_NO_MEM ∧ (t.inodes 1).dirty = false ∧
          (t.inodes 1).din.blocks = 15 ∧ t.disk 1 8 = 13) &&
        endsWith (fun ret u => decide (ret = 0 ∧ (u.inodes 1).din.blocks = 13)) (sfsReload 1 t))
      ((do
        let _ ← sfsReload 1
        sfsTruncfile 1 (16 * 4096) : SfsM Int) s))
      (sfsTruncfile 1 (13 * 4096) (freshVolume 16)) = true := by
    decide +kernel
  obtain ⟨ret, s, run, left⟩ := ends_with seen
  rw [Bool.and_eq_true] at left
  obtain rfl := of_decide_eq_true left.1
  obtain ⟨ret, t, run', left⟩ := ends_with left.2
  rw [Bool.and_eq_true] at left
  obtain ⟨rfl, tidy, blocks, count⟩ := of_decide_eq_true left.1
  obtain ⟨ret, u, back, left⟩ := ends_with left.2
  obtain ⟨rfl, fewer⟩ := of_decide_eq_true left
  refine ⟨s, t, u, run, run', tidy, blocks, ?_, back, fewer⟩
  intro holds
  have byte := holds 8 (by decide)
  have written : diskInodeBytes (t.inodes 1).din 8 = u32Bytes (t.inodes 1).din.blocks 0 := rfl
  rw [count, written, blocks] at byte
  exact absurd byte (by decide)

end Ucore
