import Ucore.Fs.Sfs.SfsReload
import Ucore.Lib.Transitions

/- Calls on the regular files of a volume, in any order, and what each of them leaves. -/
namespace Ucore
open Programs Words ByteFile

/-- A call on file `k`; `reload` is its inode leaving memory and being loaded again. -/
inductive FileCall where
  | io (write : Bool) (k : Nat) (offset : Int) (len : Nat) (buf : DiskBlock)
  | truncate (k : Nat) (len : Int)
  | tryseek (k : Nat) (pos : Int)
  | reload (k : Nat)

def FileCall.file : FileCall → Nat
  | .io _ k _ _ _ => k
  | .truncate k _ => k
  | .tryseek k _ => k
  | .reload k => k

/-- The code, the count of bytes and the buffer. -/
abbrev Answer := Int × Nat × DiskBlock

def answerOf (m : SfsM Int) : SfsM Answer := do
  let ret ← m
  return (ret, 0, fun _ => 0)

def FileCall.run : FileCall → SfsM Answer
  | .io write k offset len buf => sfsIoNolock k buf offset len write
  | .truncate k len => answerOf (sfsTruncfile k len)
  | .tryseek k pos => answerOf (sfsTryseek k pos)
  | .reload k => answerOf (sfsReload k)

/-- The blocks that the inodes themselves are in. -/
def Homed (s : Sfs) (F : Set Nat) : Prop := ∀ k ∈ F, InUse s k ∧ Unpointed s F k

/-- Regular files whose inodes are in memory, with their blocks and their inode blocks. -/
structure Files (s : Sfs) (F : Set Nat) : Prop where
  maps : BlockMaps s F
  regular : ∀ k ∈ F, (s.inodes k).din.type = .file
  home : Homed s F
  size : ∀ k ∈ F, (s.inodes k).din.size < wordSize
  links : ∀ k ∈ F, (s.inodes k).din.nlinks < 65536 ∧ (s.inodes k).din.nlinks ≠ 0
  tail : ∀ k ∈ F, ∀ i, SFS_NDIRECT ≤ i → (s.inodes k).din.direct i = 0

/-- An inode that is not dirty is on disk as it is in memory. -/
def Clean (s : Sfs) (F : Set Nat) : Prop :=
  ∀ k ∈ F, (s.inodes k).dirty = false → HoldsInode (s.disk k) (s.inodes k).din

/-- What a call on file `k` may do. -/
structure Touched (F : Set Nat) (s : Sfs) (k : Nat) (t : Sfs) : Prop where
  maps : BlockMaps t F
  others : ∀ g, g ≠ k → t.inodes g = s.inodes g
  apart : ∀ c, InUse s c → Unpointed s {k} c →
    InUse t c ∧ Unpointed t {k} c ∧ t.disk c = s.disk c
  size : (t.inodes k).din.size = (s.inodes k).din.size ∨ (t.inodes k).din.size ≤ SFS_MAX_FILE_SIZE
  quiet : (t.inodes k).dirty = true ∨
    t.inodes k = { s.inodes k with
      din := { (s.inodes k).din with blocks := (t.inodes k).din.blocks } }

section
variable {s t : Sfs} {F : Set Nat} {k g : Nat}

theorem touched_refl (maps : BlockMaps s F) : Touched F s k s :=
  ⟨maps, fun _ _ => rfl, fun _ inuse apart => ⟨inuse, apart, rfl⟩, Or.inl rfl, Or.inr rfl⟩

theorem grown_touched (maps : BlockMaps t F) (others : ∀ g, g ≠ k → t.inodes g = s.inodes g)
    (size : (t.inodes k).din.size = (s.inodes k).din.size) (grown : Grown s k t) :
    Touched F s k t :=
  ⟨maps, others, grown.apart, Or.inl size, grown.quiet.imp id And.left⟩

theorem shrunk_touched {n : Nat} (shrunk : Shrunk F s k n t) : Touched F s k t := by
  refine ⟨shrunk.maps, shrunk.others, shrunk.apart, Or.inl shrunk.size, shrunk.quiet.imp id ?_⟩
  intro same
  rw [same]

theorem resize_touched (touched : Touched F s k t) {size : Nat} (small : size ≤ SFS_MAX_FILE_SIZE) :
    Touched F s k (t.resize k size) := by
  constructor
  · exact resize_maps touched.maps
  · intro g ne
    rw [resize_other ne, touched.others g ne]
  · intro c inuse apart
    obtain ⟨inuseT, apartT, same⟩ := touched.apart c inuse apart
    refine ⟨inuseT, ?_, same⟩
    intro g mem a valid
    rw [resize_pointer]
    exact apartT g mem a valid
  · rw [resize_size]
    exact Or.inr small
  · left
    simp [Sfs.resize, Sfs.setDin]

/- The map of another file is read off blocks that the call leaves. -/
theorem touched_pointer (maps : BlockMaps s F) (mem : k ∈ F) (touched : Touched F s k t)
    (mg : g ∈ F) (ne : g ≠ k) {a : Slot} (valid : a.Valid) : pointer t g a = pointer s g a := by
  apply pointer_congr (touched.others g ne) _ valid
  intro nonzero j _
  have apart : Unpointed s {k} (s.inodes g).din.indirect := by
    rintro f rfl c vc same
    have some : pointer s f c ≠ 0 := by
      rw [same]
      exact nonzero
    exact ne (maps.unshared f mem g mg c .entries vc trivial some same).1.symm
  rw [(touched.apart _ ((maps.map g mg).entries nonzero) apart).2.2]

theorem home_apart (home : Homed s F) (mem : k ∈ F) (mg : g ∈ F) : Unpointed s {k} g := by
  rintro f rfl a valid
  exact (home g mg).2 f mem a valid

theorem homed_touched (maps : BlockMaps s F) (home : Homed s F) (mem : k ∈ F)
    (touched : Touched F s k t) : Homed t F := by
  intro g mg
  obtain ⟨inuse, apart, _⟩ := touched.apart g (home g mg).1 (home_apart home mem mg)
  refine ⟨inuse, ?_⟩
  intro f mf a valid
  by_cases here : f = k
  · exact apart f here a valid
  · rw [touched_pointer maps mem touched mf here valid]
    exact (home g mg).2 f mf a valid

theorem files_touched (files : Files s F) (mem : k ∈ F) (touched : Touched F s k t)
    (same : SameKinds s t) : Files t F := by
  have kind := same.kind
  constructor
  · exact touched.maps
  · intro g mg
    rw [(kind g).type]
    exact files.regular g mg
  · exact homed_touched files.maps files.home mem touched
  · intro g mg
    by_cases here : g = k
    · subst g
      have small : SFS_MAX_FILE_SIZE < wordSize := by decide
      rcases touched.size with kept | most
      · rw [kept]
        exact files.size k mg
      · omega
    · rw [touched.others g here]
      exact files.size g mg
  · intro g mg
    rw [(kind g).nlinks]
    exact files.links g mg
  · intro g mg i high
    rw [(kind g).tail i high]
    exact files.tail g mg i high

theorem clean_touched (files : Files s F) (clean : Clean s F) (mem : k ∈ F)
    (touched : Touched F s k t)
    (noted : (t.inodes k).dirty = false → (t.inodes k).din.blocks = (s.inodes k).din.blocks) :
    Clean t F := by
  intro g mg tidy
  have disk := (touched.apart g (files.home g mg).1 (home_apart files.home mem mg)).2.2
  rw [disk]
  by_cases here : g = k
  · subst g
    rcases touched.quiet with dirty | same
    · rw [dirty] at tidy
      cases tidy
    · rw [noted tidy] at same
      rw [same] at tidy ⊢
      exact clean k mg tidy
  · rw [touched.others g here] at tidy ⊢
    exact clean g mg tidy

theorem encodable (files : Files s F) (mem : k ∈ F) : Encodable (s.inodes k).din := by
  have map := files.maps.map k mem
  have bounded := map.bounded
  have small : SFS_NDIRECT + SFS_BLK_NENTRY < wordSize := by decide
  have volume := files.maps.volume
  have fits : ∀ a : Slot, a.Valid → pointer s k a < wordSize := by
    intro a valid
    by_cases zero : pointer s k a = 0
    · rw [zero]
      decide
    · exact inuse_fits volume (pointer_inuse files.maps mem valid zero)
  refine ⟨files.size k mem, (files.links k mem).1, (files.links k mem).2, by omega, ?_,
    files.tail k mem, fits .entries trivial⟩
  intro i
  by_cases direct : i < SFS_NDIRECT
  · have here := fits (.data i) (by unfold Slot.Valid; omega)
    simpa [pointer, direct] using here
  · rw [files.tail k mem i (by omega)]
    decide

theorem synced_pointer (home : Homed s F) (mem : k ∈ F) (mg : g ∈ F) (a : Slot) :
    pointer (synced s k) g a = pointer s g a := by
  have din := synced_din (s := s) (k := k) g
  have content : ∀ c, c ≠ k → (synced s k).disk c = s.disk c := by
    intro c ne
    unfold synced
    split_ifs
    · exact Function.update_of_ne ne _ _
    · rfl
  cases a with
  | entries =>
    unfold pointer
    rw [din]
  | data i =>
    have ne : (s.inodes g).din.indirect ≠ k := (home k mem).2 g mg .entries trivial
    have same : ∀ x, entry (synced s k) (s.inodes g).din.indirect x =
        entry s (s.inodes g).din.indirect x := by
      intro x
      unfold entry
      rw [content _ ne]
    simp only [pointer, din, same]

theorem synced_inuse (c : Nat) : InUse (synced s k) c ↔ InUse s c := by
  unfold synced
  split_ifs
  · exact Iff.rfl
  · exact Iff.rfl

theorem synced_volume (volume : Volume s) : Volume (synced s k) := by
  unfold synced
  split_ifs
  · exact ⟨volume.device, volume.addressable, volume.words, volume.covered, volume.free,
      volume.counted⟩
  · exact volume

theorem synced_maps (maps : BlockMaps s F) (home : Homed s F) (mem : k ∈ F) :
    BlockMaps (synced s k) F := by
  have same := fun g mg a => synced_pointer (g := g) home mem mg a
  constructor
  · exact synced_volume maps.volume
  · intro g mg
    have map := maps.map g mg
    constructor
    · rw [synced_din]
      exact map.bounded
    · intro i low
      rw [synced_din] at low
      rw [same g mg, synced_inuse]
      exact map.below i low
    · intro i high low
      rw [synced_din] at high
      rw [same g mg]
      exact map.above i high low
    · rw [synced_din]
      intro nonzero
      rw [synced_inuse]
      exact map.entries nonzero
  · intro f mf g mg a c va vc nonzero shared
    rw [same f mf] at nonzero shared
    rw [same g mg] at shared
    exact maps.unshared f mf g mg a c va vc nonzero shared

theorem synced_homed (home : Homed s F) (mem : k ∈ F) : Homed (synced s k) F := by
  intro g mg
  rw [synced_inuse]
  refine ⟨(home g mg).1, ?_⟩
  intro f mf a valid
  rw [synced_pointer home mem mf]
  exact (home g mg).2 f mf a valid

theorem synced_files (files : Files s F) (mem : k ∈ F) : Files (synced s k) F := by
  refine ⟨synced_maps files.maps files.home mem, ?_, synced_homed files.home mem, ?_, ?_, ?_⟩
  · intro g mg
    rw [synced_din]
    exact files.regular g mg
  · intro g mg
    rw [synced_din]
    exact files.size g mg
  · intro g mg
    rw [synced_din]
    exact files.links g mg
  · intro g mg
    rw [synced_din]
    exact files.tail g mg

theorem synced_still_clean (clean : Clean s F) : Clean (synced s k) F := by
  intro g mg tidy
  by_cases here : g = k
  · subst g
    rw [synced_din]
    exact synced_written (clean k mg)
  · have inode : (synced s k).inodes g = s.inodes g := by
      unfold synced
      split_ifs
      · exact Function.update_of_ne here _ _
      · rfl
    have disk : (synced s k).disk g = s.disk g := by
      unfold synced
      split_ifs
      · exact Function.update_of_ne here _ _
      · rfl
    rw [inode] at tidy
    rw [disk, inode]
    exact clean g mg tidy

end

end Ucore
