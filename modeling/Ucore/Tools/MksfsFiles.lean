import Ucore.Tools.Mksfs

/- The blocks of the files under construction: what each block number stands for. -/
namespace Ucore.Mksfs
open Words
variable {s t : SfsFs} {f g k b n i j ino : Nat} {ci ci' file : CacheInode}

/-- The use of a block that has been handed out: an inode, the `k`-th block of pointers of a file (its indirect block, its
doubly indirect block, those below), or the `i`-th block of its data. -/
inductive Role where
  | free
  | inode
  | index (f k : Nat)
  | data (f i : Nat)
  deriving DecidableEq

variable {role role' : Nat → Role}

def firstIno (ninos : Nat) : Nat := SFS_BLKN_FREEMAP + (ninos + SFS_BLKBITS - 1) / SFS_BLKBITS

def Allocated (s : SfsFs) (b : Nat) : Prop := firstIno s.ninos ≤ b ∧ b < s.nextIno

/- A cached block of pointers. -/
structure Indexed (role : Nat → Role) (s : SfsFs) (f k b : Nat) : Prop where
  allocated : Allocated s b
  role : role b = .index f k
  cached : b ∈ s.blocks 0

/- The number of the `i`-th data block. -/
def blockOf (s : SfsFs) (ci : CacheInode) (i : Nat) : Nat :=
  if i < SFS_L0_NBLKS then ci.inode.direct i
  else if i < SFS_L1_NBLKS then s.cache ci.inode.indirect (i - SFS_L0_NBLKS)
  else s.cache (s.cache ci.inode.dbIndirect ((i - SFS_L1_NBLKS) / SFS_BLK_NENTRY)) ((i - SFS_L1_NBLKS) % SFS_BLK_NENTRY)

/-- The pointers of a file with `nblks` blocks; `l1` and `l2` are the cached blocks of its last pointer. -/
structure FileOk (role : Nat → Role) (s : SfsFs) (f : Nat) (ci : CacheInode) : Prop where
  count : ci.nblks ≤ SFS_LN_NBLKS
  blocks : ci.inode.blocks = ci.nblks
  data : ∀ i < ci.nblks, Allocated s (blockOf s ci i) ∧ role (blockOf s ci i) = .data f i
  direct : ∀ i, ci.nblks ≤ i → ci.inode.direct i = 0
  noIndirect : ci.nblks ≤ SFS_L0_NBLKS → ci.inode.indirect = 0
  indirect : SFS_L0_NBLKS < ci.nblks → Indexed role s f 0 ci.inode.indirect
  rest : SFS_L0_NBLKS < ci.nblks → ∀ j, ci.nblks ≤ SFS_L0_NBLKS + j → s.cache ci.inode.indirect j = 0
  level1 : SFS_L0_NBLKS < ci.nblks → ci.nblks ≤ SFS_L1_NBLKS → ci.l1 = some ci.inode.indirect
  noDouble : ci.nblks ≤ SFS_L1_NBLKS → ci.inode.dbIndirect = 0
  double : SFS_L1_NBLKS < ci.nblks → Indexed role s f 1 ci.inode.dbIndirect ∧ ci.l2 = some ci.inode.dbIndirect
  second : ∀ k, SFS_L1_NBLKS + k * SFS_BLK_NENTRY < ci.nblks → Indexed role s f (2 + k) (s.cache ci.inode.dbIndirect k)
  beyond : SFS_L1_NBLKS < ci.nblks → ∀ k, ci.nblks ≤ SFS_L1_NBLKS + k * SFS_BLK_NENTRY →
    s.cache ci.inode.dbIndirect k = 0
  level2 : SFS_L1_NBLKS < ci.nblks →
    ci.l1 = some (s.cache ci.inode.dbIndirect ((ci.nblks - 1 - SFS_L1_NBLKS) / SFS_BLK_NENTRY))

structure MkSound (role : Nat → Role) (s : SfsFs) : Prop where
  small : s.ninos ≤ SFS_MAX_NBLKS
  super : s.superBlocks = s.ninos
  first : firstIno s.ninos ≤ s.nextIno
  room : s.nextIno ≤ s.ninos
  unused : s.unusedBlocks = s.ninos - s.nextIno
  known : ∀ f ci, s.inode f = some ci → (f = SFS_BLKN_ROOT ∨ Allocated s f) ∧ role f = .inode ∧ FileOk role s f ci
  listed : ∀ f, (s.inode f).isSome = true ↔ ∃ i < HASH_LIST_SIZE, f ∈ s.inodes i
  cached : ∀ i, ∀ b ∈ s.blocks i, i = 0 ∧ Allocated s b ∧ ∃ f k, role b = .index f k

theorem two_le_first (ninos : Nat) : 2 ≤ firstIno ninos := Nat.le_add_right _ _

theorem Allocated.nonzero (allocated : Allocated s b) : b ≠ 0 := by
  have := two_le_first s.ninos
  have := allocated.1
  omega

/- What a step leaves of the pointers of the file `f`. -/
structure Frame (role role' : Nat → Role) (s t : SfsFs) (f : Nat) : Prop where
  ninos : t.ninos = s.ninos
  next : s.nextIno ≤ t.nextIno
  roles : ∀ b, Allocated s b → role' b = role b
  cache : ∀ k b, Indexed role s f k b → t.cache b = s.cache b
  blocks : ∀ b ∈ s.blocks 0, b ∈ t.blocks 0

theorem Frame.allocated (frame : Frame role role' s t f) (before : Allocated s b) : Allocated t b := by
  have next := frame.next
  unfold Allocated at before ⊢
  rw [frame.ninos]
  omega

theorem Frame.indexed (frame : Frame role role' s t f) (before : Indexed role s g k b) : Indexed role' t g k b :=
  ⟨frame.allocated before.allocated, (frame.roles b before.allocated).trans before.role, frame.blocks b before.cached⟩

theorem frame_block (frame : Frame role role' s t f) (ok : FileOk role s f ci) (inside : i < ci.nblks) :
    blockOf t ci i = blockOf s ci i := by
  unfold blockOf
  split_ifs with low middle
  · rfl
  · rw [frame.cache 0 _ (ok.indirect (by omega))]
  · have deep : SFS_L1_NBLKS + (i - SFS_L1_NBLKS) / SFS_BLK_NENTRY * SFS_BLK_NENTRY < ci.nblks := by
      have := Nat.div_mul_le_self (i - SFS_L1_NBLKS) SFS_BLK_NENTRY
      omega
    rw [frame.cache 1 _ (ok.double (by omega)).1, frame.cache _ _ (ok.second _ deep)]

theorem frame_file (frame : Frame role role' s t f) (ok : FileOk role s f ci) : FileOk role' t f ci := by
  refine {
    ok with
    data := fun i inside => ?_
    indirect := fun more => ?_
    rest := fun more j above => ?_
    double := fun more => ?_
    second := fun k inside => ?_
    beyond := fun more k above => ?_
    level2 := fun more => ?_ }
  · obtain ⟨allocated, here⟩ := ok.data i inside
    rw [frame_block frame ok inside]
    exact ⟨frame.allocated allocated, (frame.roles _ allocated).trans here⟩
  · exact frame.indexed (ok.indirect more)
  · rw [frame.cache 0 _ (ok.indirect more)]
    exact ok.rest more j above
  · exact ⟨frame.indexed (ok.double more).1, (ok.double more).2⟩
  · have more : SFS_L1_NBLKS < ci.nblks := by omega
    rw [frame.cache 1 _ (ok.double more).1]
    exact frame.indexed (ok.second k inside)
  · rw [frame.cache 1 _ (ok.double more).1]
    exact ok.beyond more k above
  · rw [frame.cache 1 _ (ok.double more).1]
    exact ok.level2 more

/- The state after a new number has been handed out. -/
def SfsFs.took (s : SfsFs) : SfsFs := { s with unusedBlocks := s.unusedBlocks - 1, nextIno := s.nextIno + 1 }

theorem alloc_ino {r : Nat × SfsFs} (done : sfsAllocIno s = some r) : s.nextIno < s.ninos ∧ r = (s.nextIno, s.took) := by
  unfold sfsAllocIno at done
  split_ifs at done with room
  exact ⟨room, (Option.some.inj done).symm⟩

theorem took_allocated : Allocated s b → Allocated s.took b := fun before => ⟨before.1, Nat.lt_succ_of_lt before.2⟩

theorem new_allocated (sound : MkSound role s) : Allocated s.took s.nextIno := ⟨sound.first, Nat.lt_succ_self _⟩

theorem not_new (allocated : Allocated s b) : b ≠ s.nextIno := Nat.ne_of_lt allocated.2

/- The new number stands for `x`. -/
theorem took_frame (x : Role) (f : Nat) : Frame role (Function.update role s.nextIno x) s s.took f :=
  ⟨rfl, Nat.le_succ _, fun _ allocated => Function.update_of_ne (not_new allocated) .., fun _ _ _ => rfl, fun _ mem => mem⟩

theorem known_not_new (sound : MkSound role s) (known : s.inode f = some ci) : f ≠ s.nextIno := by
  have first := sound.first
  have two := two_le_first s.ninos
  rcases (sound.known f ci known).1 with root | allocated
  · rw [root]
    unfold SFS_BLKN_ROOT
    omega
  · exact not_new allocated

theorem took_sound (sound : MkSound role s) (room : s.nextIno < s.ninos) (x : Role) :
    MkSound (Function.update role s.nextIno x) s.took := by
  refine ⟨sound.small, sound.super, Nat.le_succ_of_le sound.first, room, ?_, fun f ci known => ?_, sound.listed,
    fun i b mem => ?_⟩
  · change s.unusedBlocks - 1 = s.ninos - (s.nextIno + 1)
    rw [sound.unused]
    omega
  · obtain ⟨place, here, ok⟩ := sound.known f ci known
    rw [Function.update_of_ne (known_not_new sound known)]
    exact ⟨place.imp_right took_allocated, here, frame_file (took_frame x f) ok⟩
  · obtain ⟨zero, allocated, f, k, here⟩ := sound.cached i b mem
    refine ⟨zero, took_allocated allocated, f, k, ?_⟩
    rw [Function.update_of_ne (not_new allocated)]
    exact here

/- A new cached block. -/
def SfsFs.grewIndex (s : SfsFs) : SfsFs :=
  { s.took with
    cache := Function.update s.cache s.nextIno fun _ => 0
    blocks := Function.update s.blocks 0 (s.nextIno :: s.blocks 0) }

theorem hash_zero : hash32 0 = 0 := rfl

theorem update_cache_new {cb : Option Nat} {r : Nat × SfsFs} (done : updateCache cb 0 s = some r) :
    s.nextIno < s.ninos ∧ r = (s.nextIno, s.grewIndex) := by
  unfold updateCache allocCacheBlock at done
  rw [if_pos rfl] at done
  rw [if_neg (not_not.mpr rfl), hash_zero] at done
  obtain ⟨m, alloc, rest⟩ := Option.bind_eq_some_iff.mp done
  obtain ⟨room, rfl⟩ := alloc_ino alloc
  exact ⟨room, (Option.some.inj rest).symm⟩

theorem update_cache_same (nonzero : n ≠ 0) : updateCache (some n) n s = some (n, s) := by
  unfold updateCache
  rw [if_neg nonzero, if_neg (not_not.mpr rfl)]

theorem grew_frame (x : Role) (f : Nat) : Frame role (Function.update role s.nextIno x) s s.grewIndex f := by
  refine ⟨rfl, Nat.le_succ _, fun _ allocated => Function.update_of_ne (not_new allocated) .., fun k b indexed => ?_,
    fun b mem => ?_⟩
  · exact Function.update_of_ne (not_new indexed.allocated) ..
  · change b ∈ Function.update s.blocks 0 (s.nextIno :: s.blocks 0) 0
    rw [Function.update_self]
    exact List.mem_cons_of_mem _ mem

theorem grew_indexed (sound : MkSound role s) (f k : Nat) :
    Indexed (Function.update role s.nextIno (.index f k)) s.grewIndex f k s.nextIno := by
  refine ⟨new_allocated sound, Function.update_self .., ?_⟩
  change s.nextIno ∈ Function.update s.blocks 0 (s.nextIno :: s.blocks 0) 0
  rw [Function.update_self]
  exact List.mem_cons_self

theorem grew_sound (sound : MkSound role s) (room : s.nextIno < s.ninos) (f k : Nat) :
    MkSound (Function.update role s.nextIno (.index f k)) s.grewIndex := by
  have took := took_sound sound room (.index f k)
  refine ⟨took.small, took.super, took.first, took.room, took.unused, fun g ci known => ?_, took.listed, fun i b mem => ?_⟩
  · obtain ⟨place, here, _⟩ := took.known g ci known
    exact ⟨place, here, frame_file (grew_frame _ g) (sound.known g ci known).2.2⟩
  · change b ∈ Function.update s.blocks 0 (s.nextIno :: s.blocks 0) i at mem
    by_cases zero : i = 0
    · subst zero
      rw [Function.update_self] at mem
      rcases List.mem_cons.mp mem with rfl | old
      · exact ⟨rfl, new_allocated sound, f, k, Function.update_self ..⟩
      · exact took.cached 0 b old
    · rw [Function.update_of_ne zero] at mem
      exact took.cached i b mem

end Ucore.Mksfs
