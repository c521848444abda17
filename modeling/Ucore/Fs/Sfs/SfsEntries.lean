import Ucore.Fs.Sfs.SfsDirent
import Ucore.Fs.Sfs.BlockMaps

/- What the scan of a directory finds, for any block map: a slot that cannot be read stops
   the kernel, so that a name which is not found is in no slot. -/
namespace Ucore
open Programs Words

/-- The volume fits its device, whose length in bytes is an `unsigned int`. -/
structure Addressable (s : Sfs) : Prop where
  device : s.blocks ≤ s.dBlocks
  small : s.dBlocks < 1048576

def direntAt (s : Sfs) (k slot : Nat) : SfsDiskEntry :=
  bytesDiskEntry (s.disk (pointer s k (.data slot)))

def isEntry (s : Sfs) (k : Nat) (name : Name) (slot : Nat) : Bool :=
  (direntAt s k slot).ino ≠ 0 ∧ name = (direntAt s k slot).name

/-- The inode number under a name in a directory. -/
def findEntry (s : Sfs) (k : Nat) (name : Name) : Option Nat :=
  ((List.range (s.inodes k).din.blocks).find? (isEntry s k name)).map fun slot =>
    (direntAt s k slot).ino

section
variable {s : Sfs} {k i : Nat}

/-- The program ends with this value and leaves the state, or it stops. -/
def Yields {α : Type} (m : SfsM α) (s : Sfs) (a : α) : Prop :=
  Meets m s (fun b t => b = a ∧ t = s) fun _ => True

theorem yields_bind {α β : Type} {m : SfsM α} {f : α → SfsM β} {a : α} {b : β}
    (first : Yields m s a) (rest : Yields (f a) s b) : Yields (m >>= f) s b := by
  apply meets_step first
  rintro _ _ ⟨rfl, rfl⟩
  exact rest

theorem yields_pure {α : Type} {a : α} : Yields (pure a) s a := ⟨rfl, rfl⟩

theorem yields_check {e : SfsStop} {p : Prop} [Decidable p] : Yields (check e p) s () := by
  unfold Yields
  rw [meets_check]
  split_ifs
  exact ⟨rfl, rfl⟩

theorem read_block_yields (addressable : Addressable s) {b : Nat} :
    Yields (sfsReadBlock b) s (.ok (s.disk b)) := by
  by_cases inside : b ≠ 0 ∧ b < s.blocks
  · have device := addressable.device
    have small := addressable.small
    have offset : u32 (b * SFS_BLKSIZE : Nat) = b * SFS_BLKSIZE := by
      apply u32_of_nat
      unfold SFS_BLKSIZE wordSize
      omega
    have back : b * SFS_BLKSIZE / SFS_BLKSIZE = b := Nat.mul_div_cancel b (by decide)
    have reached : disk0Block s (u32 (b * SFS_BLKSIZE : Nat)) = .ok b := by
      unfold disk0Block
      rw [offset, back, Nat.mul_mod_left, if_neg (by omega), if_neg (by omega)]
    have run : sfsReadBlock b s = .ok (.ok (s.disk b), s) := by
      unfold sfsReadBlock
      rw [run_get_bind, run_check_bind inside, reached]
      rfl
    unfold Yields Meets
    rw [run]
    exact ⟨rfl, rfl⟩
  · unfold Yields sfsReadBlock
    rw [meets_bind, meets_get, meets_bind, meets_check, if_neg inside]
    exact trivial

theorem rbuf_yields (addressable : Addressable s) {len b offset : Nat} :
    Yields (sfsRbuf len b offset) s (.ok fun i => s.disk b (offset + i)) := by
  unfold sfsRbuf
  apply yields_bind yields_check
  exact yields_bind (read_block_yields addressable) yields_pure

theorem assert_inuse_yields {b : Nat} : Yields (sfsAssertInuse b) s () := by
  unfold sfsAssertInuse
  have inuse : Meets (sfsBlockInuse b) s (fun _ t => t = s) fun _ => True := by
    unfold sfsBlockInuse
    rw [meets_bind, meets_get, meets_bind, meets_check]
    split_ifs
    cases bitmapTest s.freemap b with
    | none => exact trivial
    | some free => exact rfl
  apply meets_step inuse
  rintro r _ rfl
  exact yields_check

theorem inode_yields : Yields (sfsInode k) s (s.inodes k) := ⟨rfl, rfl⟩

theorem get_sub_yields (addressable : Addressable s) {entp index : Nat} :
    Yields (sfsBmapGetSubNolock entp index false) s
      (.ok (entp, if entp = 0 then 0 else entry s entp index)) := by
  unfold sfsBmapGetSubNolock
  apply yields_bind yields_check
  extract_lets offset rest
  have answer : ∀ ino, Yields (rest (.ok ino)) s (.ok (entp, ino)) := by
    intro ino
    unfold rest
    dsimp only
    rw [if_pos (by simp)]
    exact yields_pure
  by_cases none_yet : entp = 0
  · rw [if_neg (by simp [none_yet]), if_pos none_yet]
    exact yields_bind yields_pure (answer 0)
  · rw [if_pos none_yet, if_neg none_yet]
    apply yields_bind (rbuf_yields addressable)
    exact yields_bind yields_pure (answer _)

/-- A pointer is read without a change. -/
theorem get_yields (addressable : Addressable s) :
    Yields (sfsBmapGetNolock k i false) s (.ok (pointer s k (.data i))) := by
  unfold sfsBmapGetNolock
  apply yields_bind inode_yields
  extract_lets din rest
  have answer : ∀ ino, Yields (rest (.ok ino)) s (.ok ino) := by
    intro ino
    unfold rest
    dsimp only
    split_ifs
    · exact yields_bind assert_inuse_yields yields_pure
    · exact yields_pure
  by_cases direct : i < SFS_NDIRECT
  · have value : pointer s k (.data i) = din.direct i := by simp [pointer, direct, din]
    rw [if_pos direct, if_neg (by simp), value]
    exact yields_bind yields_pure (answer _)
  · rw [if_neg direct]
    by_cases inside : i - SFS_NDIRECT < SFS_BLK_NENTRY
    · have value : pointer s k (.data i) =
          if din.indirect = 0 then 0 else entry s din.indirect (i - SFS_NDIRECT) := by
        simp [pointer, direct, din]
      rw [if_pos inside, value]
      apply yields_bind (get_sub_yields addressable)
      dsimp only
      rw [if_neg (by simp)]
      exact yields_bind yields_pure (answer _)
    · rw [if_neg inside]
      exact trivial

theorem load_yields (addressable : Addressable s) (below : i < (s.inodes k).din.blocks) :
    Yields (sfsBmapLoadNolock k i) s (.ok (pointer s k (.data i))) := by
  have ne : ¬ i = (s.inodes k).din.blocks := by omega
  unfold sfsBmapLoadNolock
  apply yields_bind inode_yields
  apply yields_bind yields_check
  dsimp only
  rw [decide_eq_false ne]
  apply yields_bind (get_yields addressable)
  exact yields_bind assert_inuse_yields yields_pure

theorem dirent_read_yields (addressable : Addressable s) {slot : Nat} :
    Yields (sfsDirentReadNolock k slot) s (.ok (direntAt s k slot)) := by
  unfold sfsDirentReadNolock
  apply yields_bind inode_yields
  dsimp only
  unfold Yields
  rw [meets_bind, meets_check]
  split_ifs with inside
  apply yields_bind (load_yields addressable inside.2)
  apply yields_bind assert_inuse_yields
  apply yields_bind (rbuf_yields addressable)
  have bytes : (fun i => s.disk (pointer s k (.data slot)) (0 + i)) =
      s.disk (pointer s k (.data slot)) := by
    funext i
    rw [Nat.zero_add]
  dsimp only
  rw [bytes]
  exact yields_pure

end

end Ucore
