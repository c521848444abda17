import Ucore.Tools.MksfsFiles

/- `append_block` puts the number of one block behind the pointers of a file. -/
namespace Ucore.Mksfs
open Words
variable {s t : SfsFs} {f g k b l n i j ino size : Nat} {ci ci' file : CacheInode} {role role' : Nat → Role}

/-- What a step that makes or finds a block of pointers leaves as it was. -/
structure Kept (role role' : Nat → Role) (s t : SfsFs) : Prop where
  frame : ∀ g, Frame role role' s t g
  inode : t.inode = s.inode
  inodes : t.inodes = s.inodes
  image : t.image = s.image
  entry : t.entry = s.entry

theorem Kept.refl (role : Nat → Role) (s : SfsFs) : Kept role role s s :=
  ⟨fun _ => ⟨rfl, Nat.le_refl _, fun _ _ => rfl, fun _ _ _ => rfl, fun _ mem => mem⟩, rfl, rfl, rfl, rfl⟩

theorem Kept.trans {role'' : Nat → Role} {u : SfsFs} (first : Kept role role' s t) (second : Kept role' role'' t u) :
    Kept role role'' s u := by
  refine ⟨fun g => ?_, second.inode.trans first.inode, second.inodes.trans first.inodes, second.image.trans first.image,
    second.entry.trans first.entry⟩
  have one := first.frame g
  have two := second.frame g
  refine ⟨two.ninos.trans one.ninos, Nat.le_trans one.next two.next, fun b allocated => ?_, fun k b indexed => ?_,
    fun b mem => two.blocks b (one.blocks b mem)⟩
  · exact (two.roles b (one.allocated allocated)).trans (one.roles b allocated)
  · exact (two.cache k b (one.indexed indexed)).trans (one.cache k b indexed)

/- The cached block `l` for the pointers `k` of `f`, which is new where the number was 0. -/
theorem reach {cb : Option Nat} (sound : MkSound role s) (ready : n = 0 ∨ cb = some n ∧ Indexed role s f k n)
    (done : updateCache cb n s = some (l, t)) :
    ∃ role', MkSound role' t ∧ Kept role role' s t ∧ Indexed role' t f k l ∧ (n = 0 → ∀ j, t.cache l j = 0) ∧
      (n ≠ 0 → l = n ∧ t = s) := by
  rcases ready with rfl | ⟨rfl, indexed⟩
  · obtain ⟨room, new⟩ := update_cache_new done
    cases new
    refine ⟨_, grew_sound sound room f k, ⟨fun g => grew_frame _ g, rfl, rfl, rfl, rfl⟩, grew_indexed sound f k,
      fun _ j => ?_, fun nonzero => absurd rfl nonzero⟩
    change Function.update s.cache s.nextIno (fun _ => 0) s.nextIno j = 0
    rw [Function.update_self]
  · have nonzero := indexed.allocated.nonzero
    rw [update_cache_same nonzero] at done
    cases done
    exact ⟨role, sound, Kept.refl role s, indexed, fun zero => absurd zero nonzero, fun _ => ⟨rfl, rfl⟩⟩

theorem set_entry_cache_ne (ne : b ≠ l) : (setEntry l i ino s).cache b = s.cache b := Function.update_of_ne ne ..

theorem set_entry_cache (l i ino : Nat) (s : SfsFs) : (setEntry l i ino s).cache l = Function.update (s.cache l) i ino :=
  Function.update_self ..

theorem set_inode_frame (role : Nat → Role) (s : SfsFs) (f : Nat) (ci : CacheInode) (g : Nat) :
    Frame role role s (setInode f ci s) g :=
  ⟨rfl, Nat.le_refl _, fun _ _ => rfl, fun _ _ _ => rfl, fun _ mem => mem⟩

theorem grown_blocks (ok : FileOk role s f file) (room : file.nblks < SFS_LN_NBLKS) :
    u32 (file.inode.blocks + 1) = file.nblks + 1 := by
  rw [ok.blocks]
  apply u32_exact (by omega)
  unfold SFS_LN_NBLKS SFS_MAX_FILE_SIZE SFS_BLKSIZE at room
  unfold wordSize
  omega

/- A block is put behind those that a file has. -/
theorem data_more (ok : FileOk role s f file) (count : ci'.nblks = file.nblks + 1)
    (old : ∀ i < file.nblks, blockOf t ci' i = blockOf s file i) (new : blockOf t ci' file.nblks = ino)
    (allocated : Allocated s ino) (here : role ino = .data f file.nblks) :
    ∀ i < ci'.nblks, Allocated s (blockOf t ci' i) ∧ role (blockOf t ci' i) = .data f i := by
  intro i inside
  rw [count] at inside
  rcases Nat.lt_succ_iff_lt_or_eq.mp inside with before | rfl
  · rw [old i before]
    exact ok.data i before
  · rw [new]
    exact ⟨allocated, here⟩

theorem direct_ok (ok : FileOk role s f file) (room : file.nblks < SFS_LN_NBLKS) (low : file.nblks < SFS_L0_NBLKS)
    (allocated : Allocated s ino) (here : role ino = .data f file.nblks)
    (ci' : CacheInode) (count : ci'.nblks = file.nblks + 1) (blocks : ci'.inode.blocks = file.nblks + 1)
    (direct : ci'.inode.direct = Function.update file.inode.direct file.nblks ino)
    (indirect : ci'.inode.indirect = file.inode.indirect) (double : ci'.inode.dbIndirect = file.inode.dbIndirect) :
    FileOk role s f ci' ∧ (∀ i < file.nblks, blockOf s ci' i = blockOf s file i) ∧ blockOf s ci' file.nblks = ino := by
  have more : ¬ SFS_L0_NBLKS < ci'.nblks := by
    rw [count]
    omega
  have old : ∀ i < file.nblks, blockOf s ci' i = blockOf s file i := by
    intro i inside
    unfold blockOf
    rw [if_pos (by omega), if_pos (by omega), direct, Function.update_of_ne (by omega)]
  have new : blockOf s ci' file.nblks = ino := by
    unfold blockOf
    rw [if_pos low, direct, Function.update_self]
  have levels : SFS_L0_NBLKS ≤ SFS_L1_NBLKS := by decide
  refine ⟨⟨by omega, by rw [blocks, count], fun i inside => ?_, fun i above => ?_, fun _ => ?_, fun deep => absurd deep more,
    fun deep => absurd deep more, fun deep => absurd deep more, fun _ => ?_, fun deep => absurd deep (by omega),
    fun k deep => absurd deep (by omega), fun deep => absurd deep (by omega), fun deep => absurd deep (by omega)⟩, old, new⟩
  · exact data_more ok count old new allocated here i inside
  · rw [direct, Function.update_of_ne (by omega)]
    exact ok.direct i (by omega)
  · rw [indirect]
    exact ok.noIndirect (by omega)
  · rw [double]
    exact ok.noDouble (by omega)

theorem level1_ok (ok : FileOk role s f file) (room : file.nblks < SFS_LN_NBLKS) (low : SFS_L0_NBLKS ≤ file.nblks)
    (high : file.nblks < SFS_L1_NBLKS) (allocated : Allocated s ino) (here : role ino = .data f file.nblks)
    (indexed : Indexed role s f 0 l) (kept : SFS_L0_NBLKS < file.nblks → l = file.inode.indirect)
    (rest : ∀ j, file.nblks ≤ SFS_L0_NBLKS + j → s.cache l j = 0)
    (ci' : CacheInode) (count : ci'.nblks = file.nblks + 1) (blocks : ci'.inode.blocks = file.nblks + 1)
    (direct : ci'.inode.direct = file.inode.direct) (indirect : ci'.inode.indirect = l)
    (double : ci'.inode.dbIndirect = file.inode.dbIndirect) (l1 : ci'.l1 = some l) :
    FileOk role (setEntry l (file.nblks - SFS_L0_NBLKS) ino s) f ci' ∧
    (∀ i < file.nblks, blockOf (setEntry l (file.nblks - SFS_L0_NBLKS) ino s) ci' i = blockOf s file i) ∧
    blockOf (setEntry l (file.nblks - SFS_L0_NBLKS) ino s) ci' file.nblks = ino := by
  have old : ∀ i < file.nblks,
      blockOf (setEntry l (file.nblks - SFS_L0_NBLKS) ino s) ci' i = blockOf s file i := by
    intro i inside
    unfold blockOf
    by_cases direct_block : i < SFS_L0_NBLKS
    · rw [if_pos direct_block, if_pos direct_block, direct]
    · rw [if_neg direct_block, if_neg direct_block, if_pos (by omega), if_pos (by omega), indirect, set_entry_cache,
        Function.update_of_ne (by omega), kept (by omega)]
  have new : blockOf (setEntry l (file.nblks - SFS_L0_NBLKS) ino s) ci' file.nblks = ino := by
    unfold blockOf
    rw [if_neg (by omega), if_pos high, indirect, set_entry_cache, Function.update_self]
  refine ⟨⟨by omega, by rw [blocks, count], fun i inside => ?_, fun i above => ?_, fun few => absurd few (by omega), fun _ => ?_,
    fun _ j above => ?_, fun _ _ => by rw [l1, indirect], fun _ => ?_, fun deep => absurd deep (by omega),
    fun k deep => absurd deep (by omega), fun deep => absurd deep (by omega), fun deep => absurd deep (by omega)⟩, old, new⟩
  · exact data_more ok count old new allocated here i inside
  · rw [direct]
    exact ok.direct i (by omega)
  · rw [indirect]
    exact ⟨indexed.allocated, indexed.role, indexed.cached⟩
  · rw [indirect, set_entry_cache, Function.update_of_ne (by omega)]
    exact rest j (by omega)
  · rw [double]
    exact ok.noDouble (by omega)

theorem level2_ok (ok : FileOk role s f file) (room : file.nblks < SFS_LN_NBLKS) (low : SFS_L1_NBLKS ≤ file.nblks)
    (allocated : Allocated s ino) (here : role ino = .data f file.nblks) {db q r : Nat}
    (quotient : q = (file.nblks - SFS_L1_NBLKS) / SFS_BLK_NENTRY) (remainder : r = (file.nblks - SFS_L1_NBLKS) % SFS_BLK_NENTRY)
    (indexed : Indexed role s f 1 db) (below : Indexed role s f (2 + q) l)
    (kept : SFS_L1_NBLKS < file.nblks → db = file.inode.dbIndirect)
    (kept' : SFS_L1_NBLKS + q * SFS_BLK_NENTRY < file.nblks → l = s.cache db q)
    (rest : ∀ k, q < k → s.cache db k = 0)
    (ci' : CacheInode) (count : ci'.nblks = file.nblks + 1) (blocks : ci'.inode.blocks = file.nblks + 1)
    (direct : ci'.inode.direct = file.inode.direct) (indirect : ci'.inode.indirect = file.inode.indirect)
    (double : ci'.inode.dbIndirect = db) (l1 : ci'.l1 = some l) (l2 : ci'.l2 = some db) :
    FileOk role (setEntry l r ino (setEntry db q l s)) f ci' ∧
    (∀ i < file.nblks, blockOf (setEntry l r ino (setEntry db q l s)) ci' i = blockOf s file i) ∧
    blockOf (setEntry l r ino (setEntry db q l s)) ci' file.nblks = ino := by
  have split := Nat.div_add_mod' (file.nblks - SFS_L1_NBLKS) SFS_BLK_NENTRY
  rw [← quotient, ← remainder] at split
  have positive : 0 < SFS_BLK_NENTRY := by decide
  have levels : SFS_L0_NBLKS < SFS_L1_NBLKS := by decide
  have apart : db ≠ l := by
    rintro rfl
    have same := (Role.index.inj (indexed.role.symm.trans below.role)).2
    omega
  have cache_db : (setEntry l r ino (setEntry db q l s)).cache db = Function.update (s.cache db) q l := by
    rw [set_entry_cache_ne apart, set_entry_cache]
  have cache_l : (setEntry l r ino (setEntry db q l s)).cache l = Function.update (s.cache l) r ino := by
    rw [set_entry_cache, set_entry_cache_ne (Ne.symm apart)]
  have cache_other : ∀ k b, Indexed role s f k b → k ≠ 1 → k ≠ 2 + q →
      (setEntry l r ino (setEntry db q l s)).cache b = s.cache b := by
    intro k b there not_db not_l
    rw [set_entry_cache_ne, set_entry_cache_ne]
    · rintro rfl
      exact not_db (Role.index.inj (there.role.symm.trans indexed.role)).2
    · rintro rfl
      exact not_l (Role.index.inj (there.role.symm.trans below.role)).2
  have keeps : ∀ {k b}, Indexed role s f k b → Indexed role (setEntry l r ino (setEntry db q l s)) f k b :=
    fun there => ⟨there.allocated, there.role, there.cached⟩
  have old : ∀ i < file.nblks, blockOf (setEntry l r ino (setEntry db q l s)) ci' i = blockOf s file i := by
    intro i inside
    unfold blockOf
    by_cases direct_block : i < SFS_L0_NBLKS
    · rw [if_pos direct_block, if_pos direct_block, direct]
    · rw [if_neg direct_block, if_neg direct_block]
      by_cases single : i < SFS_L1_NBLKS
      · rw [if_pos single, if_pos single, indirect, cache_other 0 _ (ok.indirect (by omega)) (by omega) (by omega)]
      · have deep := kept (by omega)
        have back := Nat.div_add_mod' (i - SFS_L1_NBLKS) SFS_BLK_NENTRY
        rw [if_neg single, if_neg single, double, cache_db, ← deep]
        by_cases here_q : (i - SFS_L1_NBLKS) / SFS_BLK_NENTRY = q
        · rw [here_q] at back
          have less : (i - SFS_L1_NBLKS) % SFS_BLK_NENTRY ≠ r := by omega
          rw [here_q, Function.update_self, cache_l, Function.update_of_ne less, kept' (by omega)]
        · have inside_q : SFS_L1_NBLKS + (i - SFS_L1_NBLKS) / SFS_BLK_NENTRY * SFS_BLK_NENTRY < file.nblks := by omega
          have second := ok.second _ inside_q
          rw [← deep] at second
          have not_db : 2 + (i - SFS_L1_NBLKS) / SFS_BLK_NENTRY ≠ 1 := by
            generalize (i - SFS_L1_NBLKS) / SFS_BLK_NENTRY = k
            omega
          rw [Function.update_of_ne here_q,
            cache_other _ _ second not_db fun same => here_q (Nat.add_left_cancel same)]
  have new : blockOf (setEntry l r ino (setEntry db q l s)) ci' file.nblks = ino := by
    unfold blockOf
    rw [if_neg (by omega), if_neg (by omega), double, ← quotient, ← remainder, cache_db, Function.update_self, cache_l,
      Function.update_self]
  have end_q : (ci'.nblks - 1 - SFS_L1_NBLKS) / SFS_BLK_NENTRY = q := by
    rw [count, Nat.add_sub_cancel, ← quotient]
  have less_q : file.nblks < SFS_L1_NBLKS + (q + 1) * SFS_BLK_NENTRY := by
    have small : r < SFS_BLK_NENTRY := remainder ▸ Nat.mod_lt _ positive
    rw [Nat.add_mul]
    omega
  refine ⟨⟨by omega, by rw [blocks, count], fun i inside => ?_, fun i above => ?_, fun few => absurd few (by omega), fun _ => ?_,
    fun _ j above => ?_, fun _ few => absurd few (by omega), fun few => absurd few (by omega), fun _ => ⟨double ▸ keeps indexed,
    by rw [l2, double]⟩, fun k inside => ?_, fun _ k above => ?_, fun _ => ?_⟩, old, new⟩
  · exact data_more ok count old new allocated here i inside
  · rw [direct]
    exact ok.direct i (by omega)
  · rw [indirect]
    exact keeps (ok.indirect (by omega))
  · rw [indirect, cache_other 0 _ (ok.indirect (by omega)) (by omega) (by omega)]
    exact ok.rest (by omega) j (by omega)
  · rw [double, cache_db]
    by_cases here_q : k = q
    · subst here_q
      rw [Function.update_self]
      exact keeps below
    · have inside_k : SFS_L1_NBLKS + k * SFS_BLK_NENTRY < file.nblks := by
        have fewer : k < q + 1 := by
          by_contra not_less
          have := Nat.mul_le_mul_right SFS_BLK_NENTRY (Nat.le_of_not_lt not_less)
          omega
        have reach : (k + 1) * SFS_BLK_NENTRY ≤ q * SFS_BLK_NENTRY := Nat.mul_le_mul_right _ (by omega)
        rw [Nat.add_mul] at reach
        omega
      have second := ok.second k inside_k
      rw [← kept (by omega)] at second
      rw [Function.update_of_ne here_q]
      exact keeps second
  · have past : q < k := by
      by_contra not_less
      have := Nat.mul_le_mul_right SFS_BLK_NENTRY (Nat.le_of_not_lt not_less)
      omega
    rw [double, cache_db, Function.update_of_ne (by omega)]
    exact rest k past
  · rw [end_q, double, cache_db, Function.update_self, l1]

/-- A step that writes the blocks of pointers of `f` only. -/
structure Poked (role : Nat → Role) (s t : SfsFs) (f : Nat) : Prop where
  same : t = { s with cache := t.cache }
  others : ∀ b, t.cache b ≠ s.cache b → ∃ k, Indexed role s f k b

theorem Poked.refl (role : Nat → Role) (s : SfsFs) (f : Nat) : Poked role s s f := ⟨rfl, fun _ ne => absurd rfl ne⟩

theorem Poked.entry (poked : Poked role s t f) (indexed : Indexed role s f k l) (i ino : Nat) :
    Poked role s (setEntry l i ino t) f := by
  refine ⟨?_, fun b ne => ?_⟩
  · conv_lhs => rw [poked.same]
    rfl
  · by_cases here : b = l
    · exact ⟨k, here ▸ indexed⟩
    · rw [set_entry_cache_ne here] at ne
      exact poked.others b ne

theorem Poked.frame (poked : Poked role s t f) (other : g ≠ f) : Frame role role s t g := by
  have same := poked.same
  refine ⟨by rw [same], Nat.le_of_eq (by rw [same]), fun _ _ => rfl, fun k b here => ?_, fun b mem => ?_⟩
  · by_contra ne
    obtain ⟨m, there⟩ := poked.others b ne
    exact other (Role.index.inj (here.role.symm.trans there.role)).1
  · rw [same]
    exact mem

/- The file `f` alone has new pointers. -/
theorem poked_sound (sound : MkSound role s) (known : s.inode f = some file) (poked : Poked role s t f)
    (ok : FileOk role t f ci) : MkSound role (setInode f ci t) := by
  obtain ⟨cache, rfl⟩ : ∃ cache, t = { s with cache } := ⟨_, poked.same⟩
  refine ⟨sound.small, sound.super, sound.first, sound.room, sound.unused, fun g c here => ?_, fun g => ?_, sound.cached⟩
  · change Function.update s.inode f (some ci) g = some c at here
    by_cases same : g = f
    · subst same
      rw [Function.update_self] at here
      cases here
      obtain ⟨place, role_here, _⟩ := sound.known g file known
      exact ⟨place, role_here, frame_file (set_inode_frame ..) ok⟩
    · rw [Function.update_of_ne same] at here
      obtain ⟨place, role_here, before⟩ := sound.known g c here
      exact ⟨place, role_here, frame_file (set_inode_frame ..) (frame_file (poked.frame same) before)⟩
  · change (Function.update s.inode f (some ci) g).isSome = true ↔ ∃ i < HASH_LIST_SIZE, g ∈ s.inodes i
    by_cases same : g = f
    · subst same
      rw [Function.update_self, ← sound.listed g, known]
      exact Iff.rfl
    · rw [Function.update_of_ne same]
      exact sound.listed g

/-- The pointers of `ci` in `t` are those of `file` in `s` and `ino` behind them. -/
def Extends (s : SfsFs) (file : CacheInode) (ino : Nat) (t : SfsFs) (ci : CacheInode) : Prop :=
  (∀ i < file.nblks, blockOf t ci i = blockOf s file i) ∧ blockOf t ci file.nblks = ino

/- Two inodes with the same pointers, in whatever order the counts are set. -/
structure SamePointers (ci ci' : CacheInode) : Prop where
  direct : ci.inode.direct = ci'.inode.direct
  indirect : ci.inode.indirect = ci'.inode.indirect
  double : ci.inode.dbIndirect = ci'.inode.dbIndirect
  l1 : ci.l1 = ci'.l1
  l2 : ci.l2 = ci'.l2

/- Everything of the inode that `append_block` does not write. -/
structure SameFile (ci ci' : CacheInode) : Prop where
  nblks : ci'.nblks = ci.nblks
  real : ci'.real = ci.real
  size : ci'.inode.size = ci.inode.size
  type : ci'.inode.type = ci.inode.type
  nlinks : ci'.inode.nlinks = ci.inode.nlinks
  blocks : ci'.inode.blocks = ci.inode.blocks

/- The blocks of pointers for the next block are there, or it is the first to need them. -/
theorem single_ready (ok : FileOk role s f file) (high : file.nblks < SFS_L1_NBLKS) :
    file.inode.indirect = 0 ∨ file.l1 = some file.inode.indirect ∧ Indexed role s f 0 file.inode.indirect := by
  by_cases first : file.nblks ≤ SFS_L0_NBLKS
  · exact .inl (ok.noIndirect first)
  · exact .inr ⟨ok.level1 (by omega) (by omega), ok.indirect (by omega)⟩

theorem double_ready (ok : FileOk role s f file) :
    file.inode.dbIndirect = 0 ∨ file.l2 = some file.inode.dbIndirect ∧ Indexed role s f 1 file.inode.dbIndirect := by
  by_cases first : file.nblks ≤ SFS_L1_NBLKS
  · exact .inl (ok.noDouble first)
  · exact .inr ⟨(ok.double (by omega)).2, (ok.double (by omega)).1⟩

/- Where no block of data needs it yet the doubly indirect block has no pointer. -/
theorem double_beyond {db : Nat} (ok : FileOk role s f file) (clear : file.inode.dbIndirect = 0 → ∀ j, s.cache db j = 0)
    (back : SFS_L1_NBLKS < file.nblks → db = file.inode.dbIndirect) (k : Nat)
    (above : file.nblks ≤ SFS_L1_NBLKS + k * SFS_BLK_NENTRY) : s.cache db k = 0 := by
  by_cases first : file.nblks ≤ SFS_L1_NBLKS
  · exact clear (ok.noDouble first) k
  · rw [back (by omega)]
    exact ok.beyond (by omega) k above

theorem second_ready {db q : Nat} (ok : FileOk role s f file)
    (back : SFS_L1_NBLKS < file.nblks → db = file.inode.dbIndirect)
    (quotient : q = (file.nblks - SFS_L1_NBLKS) / SFS_BLK_NENTRY) (inside : SFS_L1_NBLKS + q * SFS_BLK_NENTRY < file.nblks) :
    file.l1 = some (s.cache db q) ∧ Indexed role s f (2 + q) (s.cache db q) := by
  have split := Nat.div_add_mod' (file.nblks - SFS_L1_NBLKS) SFS_BLK_NENTRY
  have small := Nat.mod_lt (file.nblks - SFS_L1_NBLKS) (show 0 < SFS_BLK_NENTRY by decide)
  rw [← quotient] at split
  have last : (file.nblks - 1 - SFS_L1_NBLKS) / SFS_BLK_NENTRY = q :=
    Nat.div_eq_of_lt_le (by omega) (by rw [Nat.add_mul]; omega)
  have second := ok.second q inside
  have level := ok.level2 (by omega)
  rw [← back (by omega)] at second level
  rw [last] at level
  exact ⟨level, second⟩

theorem pointer_ok (sound : MkSound role s) (known : s.inode f = some file) (room : file.nblks < SFS_LN_NBLKS)
    (allocated : Allocated s ino) (here : role ino = .data f file.nblks)
    (done : appendPointer file ino s = some (ci, t)) :
    SameFile file ci ∧ ∃ role' u, MkSound role' u ∧ Kept role role' s u ∧ Poked role' u t f ∧
      ∀ ci', ci'.nblks = file.nblks + 1 → ci'.inode.blocks = file.nblks + 1 → SamePointers ci' ci →
        FileOk role' t f ci' ∧ Extends s file ino t ci' := by
  obtain ⟨_, _, ok⟩ := sound.known f file known
  have levels : SFS_L0_NBLKS < SFS_L1_NBLKS := by decide
  have limit : SFS_LN_NBLKS < SFS_L2_NBLKS := by decide
  unfold appendPointer at done
  split_ifs at done with low middle high
  · cases done
    refine ⟨⟨rfl, rfl, rfl, rfl, rfl, rfl⟩, role, s, sound, Kept.refl role s, Poked.refl role s f,
      fun ci' count blocks same => ?_⟩
    exact direct_ok ok room low allocated here ci' count blocks same.direct same.indirect same.double
  · obtain ⟨⟨l, u⟩, reached, rest⟩ := Option.bind_eq_some_iff.mp done
    cases rest
    obtain ⟨role', sound', kept, indexed, clear, same⟩ := reach sound (single_ready ok middle) reached
    have frame := kept.frame f
    have again : SFS_L0_NBLKS < file.nblks → l = file.inode.indirect ∧ u = s := fun more =>
      same (ok.indirect more).allocated.nonzero
    refine ⟨⟨rfl, rfl, rfl, rfl, rfl, rfl⟩, role', u, sound', kept, (Poked.refl role' u f).entry indexed _ _,
      fun ci' count blocks pointers => ?_⟩
    have rest : ∀ j, file.nblks ≤ SFS_L0_NBLKS + j → u.cache l j = 0 := by
      intro j above
      by_cases first : file.nblks ≤ SFS_L0_NBLKS
      · exact clear (ok.noIndirect first) j
      · obtain ⟨back, unchanged⟩ := again (by omega)
        rw [back, unchanged]
        exact ok.rest (by omega) j above
    obtain ⟨good, old, new⟩ := level1_ok (frame_file frame ok) room (by omega) middle (frame.allocated allocated)
      ((frame.roles ino allocated).trans here) indexed (fun more => (again more).1) rest ci' count blocks pointers.direct
      pointers.indirect pointers.double pointers.l1
    exact ⟨good, fun i inside => (old i inside).trans (frame_block frame ok inside), new⟩
  · obtain ⟨⟨db, u⟩, reached, rest⟩ := Option.bind_eq_some_iff.mp done
    obtain ⟨⟨l, v⟩, reached', rest⟩ := Option.bind_eq_some_iff.mp rest
    cases rest
    obtain ⟨role₁, sound₁, kept₁, indexed, clear, same⟩ := reach sound (double_ready ok) reached
    have again : SFS_L1_NBLKS < file.nblks → db = file.inode.dbIndirect ∧ u = s := fun more =>
      same (ok.double more).1.allocated.nonzero
    have ok₁ := frame_file (kept₁.frame f) ok
    obtain ⟨q, quotient⟩ : ∃ q, q = (file.nblks - SFS_L1_NBLKS) / SFS_BLK_NENTRY := ⟨_, rfl⟩
    have split := Nat.div_add_mod' (file.nblks - SFS_L1_NBLKS) SFS_BLK_NENTRY
    have small := Nat.mod_lt (file.nblks - SFS_L1_NBLKS) (show 0 < SFS_BLK_NENTRY by decide)
    rw [← quotient] at split
    have beyond := double_beyond ok₁ clear fun more => (again more).1
    have inner := second_ready ok₁ (fun more => (again more).1) quotient
    have ready' : u.cache db q = 0 ∨ file.l1 = some (u.cache db q) ∧ Indexed role₁ u f (2 + q) (u.cache db q) := by
      by_cases inside : SFS_L1_NBLKS + q * SFS_BLK_NENTRY < file.nblks
      · exact .inr (inner inside)
      · exact .inl (beyond q (by omega))
    rw [← quotient] at reached'
    obtain ⟨role₂, sound₂, kept₂, below, _, same'⟩ := reach sound₁ ready' reached'
    have kept := kept₁.trans kept₂
    have frame := kept.frame f
    have top := (kept₂.frame f).indexed indexed
    have rest : ∀ k, q < k → v.cache db k = 0 := by
      intro k past
      have reach_k : (q + 1) * SFS_BLK_NENTRY ≤ k * SFS_BLK_NENTRY := Nat.mul_le_mul_right _ past
      rw [Nat.add_mul] at reach_k
      rw [(kept₂.frame f).cache 1 db indexed]
      exact beyond k (by omega)
    rw [← quotient]
    refine ⟨⟨rfl, rfl, rfl, rfl, rfl, rfl⟩, role₂, v, sound₂, kept, ((Poked.refl role₂ v f).entry top _ _).entry below _ _,
      fun ci' count blocks pointers => ?_⟩
    obtain ⟨good, old, new⟩ := level2_ok (frame_file frame ok) room (by omega) (frame.allocated allocated)
      ((frame.roles ino allocated).trans here) quotient rfl top below (fun more => (again more).1) (fun inside => by
        obtain ⟨back, unchanged⟩ := same' (inner inside).2.allocated.nonzero
        rw [back, unchanged]) rest ci' count blocks pointers.direct pointers.indirect pointers.double pointers.l1
      pointers.l2
    exact ⟨good, fun i inside => (old i inside).trans (frame_block frame ok inside), new⟩
  · omega

theorem update_cache_total {cb : Option Nat} (ready : n = 0 ∨ cb = some n ∧ Indexed role s f k n)
    (room : s.nextIno < s.ninos) :
    ∃ l t, updateCache cb n s = some (l, t) ∧ t.nextIno ≤ s.nextIno + 1 ∧ t.ninos = s.ninos := by
  rcases ready with rfl | ⟨rfl, indexed⟩
  · refine ⟨s.nextIno, s.grewIndex, ?_, Nat.le_refl _, rfl⟩
    unfold updateCache allocCacheBlock sfsAllocIno
    rw [if_pos rfl, if_neg (not_not.mpr rfl), if_pos room]
    rfl
  · exact ⟨n, s, update_cache_same indexed.allocated.nonzero, Nat.le_succ _, rfl⟩

/- Two free blocks are enough for the pointers to one more block. -/
theorem pointer_total (ino : Nat) (sound : MkSound role s) (known : s.inode f = some file) (room : file.nblks < SFS_LN_NBLKS)
    (blocks : s.nextIno + 2 ≤ s.ninos) :
    ∃ ci t, appendPointer file ino s = some (ci, t) ∧ t.nextIno ≤ s.nextIno + 2 := by
  obtain ⟨_, _, ok⟩ := sound.known f file known
  have limit : SFS_LN_NBLKS < SFS_L2_NBLKS := by decide
  unfold appendPointer
  split_ifs with low middle high
  · exact ⟨_, _, rfl, Nat.le_add_right _ _⟩
  · obtain ⟨l, u, reached, next, _⟩ := update_cache_total (single_ready ok middle) (by omega)
    rw [reached]
    exact ⟨_, _, rfl, Nat.le_succ_of_le next⟩
  · obtain ⟨db, u, reached, next, ninos⟩ := update_cache_total (double_ready ok) (by omega)
    obtain ⟨role₁, _, kept₁, _, clear, same⟩ := reach sound (double_ready ok) reached
    have ok₁ := frame_file (kept₁.frame f) ok
    have back : SFS_L1_NBLKS < file.nblks → db = file.inode.dbIndirect := fun more =>
      (same (ok.double more).1.allocated.nonzero).1
    obtain ⟨q, quotient⟩ : ∃ q, q = (file.nblks - SFS_L1_NBLKS) / SFS_BLK_NENTRY := ⟨_, rfl⟩
    have ready : u.cache db q = 0 ∨ file.l1 = some (u.cache db q) ∧ Indexed role₁ u f (2 + q) (u.cache db q) := by
      by_cases inside : SFS_L1_NBLKS + q * SFS_BLK_NENTRY < file.nblks
      · exact .inr (second_ready ok₁ back quotient inside)
      · exact .inl (double_beyond ok₁ clear back q (by omega))
    obtain ⟨l, v, reached', next', _⟩ := update_cache_total ready (by omega)
    rw [reached]
    dsimp only [Option.bind_eq_bind, Option.bind_some]
    rw [← quotient, reached']
    exact ⟨_, _, rfl, by change v.nextIno ≤ _; omega⟩
  · omega

end Ucore.Mksfs
