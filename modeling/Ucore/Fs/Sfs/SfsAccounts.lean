import Ucore.Fs.Sfs.FileCalls

/- The accounts of the blocks of a volume: growth, truncation and reclaim of inodes, with
   their failures. -/
namespace Ucore
open Programs Words Transitions

/-- What `sfs_reclaim` does with the blocks of an inode. -/
def sfsReclaimBlocks (k : Nat) : SfsM Int := do
  let din := (← sfsInode k).din
  let ret ← if din.nlinks = 0 then sfsTruncfile k 0 else pure 0
  if ret ≠ 0 then return ret
  else
    let ret ← sfsFsync k
    if ret ≠ 0 then return ret
    else
      sfsFreeInode k
      return 0

inductive BlockCall where
  | load (k index : Nat)
  | shorten (k : Nat)
  | truncate (k : Nat) (len : Int)
  | reclaim (k : Nat)

def BlockCall.inode : BlockCall → Nat
  | .load k _ => k
  | .shorten k => k
  | .truncate k _ => k
  | .reclaim k => k

/-- A volume and its live inodes. -/
structure Mounted where
  sfs : Sfs
  live : Set Nat

/-- A call on a live inode that ends, with success or an error code; an inode without links is
gone once it is reclaimed. -/
def BlockStep (m : Mounted) (c : BlockCall) (m' : Mounted) : Prop :=
  c.inode ∈ m.live ∧
    match c with
    | .load k index => (∃ r, sfsBmapLoadNolock k index m.sfs = .ok (r, m'.sfs)) ∧ m'.live = m.live
    | .shorten k => (∃ ret, sfsBmapTruncateNolock k m.sfs = .ok (ret, m'.sfs)) ∧ m'.live = m.live
    | .truncate k len => (∃ ret, sfsTruncfile k len m.sfs = .ok (ret, m'.sfs)) ∧ m'.live = m.live
    | .reclaim k => (m.sfs.inodes k).din.nlinks = 0 ∧ ∃ ret,
        sfsReclaimBlocks k m.sfs = .ok (ret, m'.sfs) ∧
          m'.live = if ret = 0 then m.live \ {k} else m.live

/-- The free map, the super block and the inodes agree. -/
structure Consistent (m : Mounted) : Prop where
  maps : BlockMaps m.sfs m.live
  home : Homed m.sfs m.live

/-- The accounts: free blocks are counted, every pointer of a live inode names a data block in
use, and no block is pointed to twice. -/
structure Accounted (m : Mounted) : Prop where
  unused : m.sfs.unusedBlocks = m.sfs.freemap.freeCount
  inuse : ∀ k ∈ m.live, ∀ a : Slot, a.Valid → pointer m.sfs k a ≠ 0 →
    InUse m.sfs (pointer m.sfs k a) ∧ pointer m.sfs k a ∉ m.live
  once : ∀ f ∈ m.live, ∀ g ∈ m.live, ∀ a b : Slot, a.Valid → b.Valid → pointer m.sfs f a ≠ 0 →
    pointer m.sfs f a = pointer m.sfs g b → f = g ∧ a = b

section
variable {s t : Sfs} {F : Set Nat} {k i : Nat} {m m' : Mounted} {c : BlockCall}

theorem consistent_accounted (consistent : Consistent m) : Accounted m := by
  refine ⟨consistent.maps.volume.counted, ?_, consistent.maps.unshared⟩
  intro k mem a valid nonzero
  refine ⟨pointer_inuse consistent.maps mem valid nonzero, ?_⟩
  intro alive
  exact (consistent.home _ alive).2 k mem a valid rfl

theorem load_touched (maps : BlockMaps s F) (mem : k ∈ F) {r : Except Int Nat}
    (run : sfsBmapLoadNolock k i s = .ok (r, t)) : Touched F s k t := by
  by_cases most : i ≤ (s.inodes k).din.blocks
  · rcases load_outcome maps mem most with ⟨_, b, u, ran, loaded⟩ | ⟨_, _, u, ran, idle⟩ |
      ⟨_, _, ran⟩
    · rw [ran] at run
      cases run
      exact grown_touched loaded.maps loaded.others loaded.size loaded.grown
    · rw [ran] at run
      cases run
      exact grown_touched (idle_maps maps idle) (fun g _ => by rw [idle.inodes])
        (by rw [idle.inodes]) (idle_grown maps mem idle)
    · rw [ran] at run
      cases run
  · rw [load_beyond_stops (by omega)] at run
    cases run

theorem shorten_touched (maps : BlockMaps s F) (mem : k ∈ F) {ret : Int}
    (run : sfsBmapTruncateNolock k s = .ok (ret, t)) : Touched F s k t := by
  by_cases none : (s.inodes k).din.blocks = 0
  · have stops : sfsBmapTruncateNolock k s = .error .assertion := by
      unfold sfsBmapTruncateNolock
      rw [run_bind inode_run]
      exact run_check_stop (fun some => some none)
    rw [stops] at run
    cases run
  · obtain ⟨u, ran, shrunk⟩ := truncate_run maps mem
      (by omega : (s.inodes k).din.blocks - 1 + 1 = (s.inodes k).din.blocks)
    rw [ran] at run
    cases run
    exact shrunk_touched shrunk

theorem trunc_touched {len : Int} (maps : BlockMaps s F) (mem : k ∈ F) {ret : Int}
    (run : sfsTruncfile k len s = .ok (ret, t)) : Touched F s k t := by
  have outcome := truncfile_outcome maps mem len
  rw [run] at outcome
  have small : 0 ≤ len ∧ len ≤ SFS_MAX_FILE_SIZE → len.toNat ≤ SFS_MAX_FILE_SIZE := by omega
  cases outcome with
  | invalid bad => exact touched_refl maps
  | asItWas good same fitted => exact touched_refl maps
  | enlarged u good new more room few extended =>
    exact resize_touched (grown_touched extended.maps extended.others extended.size
      extended.grown) (small good)
  | full u good new more noRoom few extended =>
    exact grown_touched extended.maps extended.others extended.size extended.grown
  | reduced u good new fewer shrunk => exact resize_touched (shrunk_touched shrunk) (small good)

/- Giving back a block that only file `k` has to do with. -/
theorem released_consistent {b : Nat} (maps : BlockMaps s (F \ {k})) (home : Homed s (F \ {k}))
    (apart : Unpointed s (F \ {k}) b) (away : b ∉ F \ {k}) (nonzero : b ≠ 0)
    (released : Released s b t) : BlockMaps t (F \ {k}) ∧ Homed t (F \ {k}) := by
  have same : ∀ g (a : Slot), pointer t g a = pointer s g a := by
    intro g a
    unfold pointer entry
    rw [released.inodes, released.disk]
  have keep : ∀ g ∈ F \ {k}, ∀ a : Slot, a.Valid → InUse s (pointer s g a) →
      InUse t (pointer s g a) := by
    intro g mem a valid inuse
    exact (released_inuse released _).mpr ⟨inuse, apart g mem a valid⟩
  refine ⟨⟨released.volume, ?_, ?_⟩, ?_⟩
  · intro g mem
    have map := maps.map g mem
    have bounded := map.bounded
    constructor
    · rw [released.inodes]
      exact bounded
    · intro j low
      rw [released.inodes] at low
      rw [same]
      exact keep g mem (.data j) (Nat.lt_of_lt_of_le low bounded) (map.below j low)
    · intro j high low
      rw [released.inodes] at high
      rw [same]
      exact map.above j high low
    · rw [released.inodes]
      intro some
      exact keep g mem .entries trivial (map.entries some)
  · intro f mf g mg a c va vc some shared
    rw [same] at some shared
    rw [same] at shared
    exact maps.unshared f mf g mg a c va vc some shared
  · intro g mem
    refine ⟨(released_inuse released g).mpr ⟨(home g mem).1, ?_⟩, ?_⟩
    · rintro rfl
      exact away mem
    · intro f mf a valid
      rw [same]
      exact (home g mem).2 f mf a valid

theorem maps_fewer {G : Set Nat} (maps : BlockMaps s F) (sub : G ⊆ F) : BlockMaps s G :=
  ⟨maps.volume, fun k mem => maps.map k (sub mem), fun f mf g mg =>
    maps.unshared f (sub mf) g (sub mg)⟩

theorem homed_fewer {G : Set Nat} (home : Homed s F) (sub : G ⊆ F) : Homed s G :=
  fun k mem => ⟨(home k (sub mem)).1, fun g mg => (home k (sub mem)).2 g (sub mg)⟩

/- The inode block and the entry block of an inode without links. -/
theorem free_inode_consistent (maps : BlockMaps s F) (home : Homed s F) (mem : k ∈ F)
    (unlinked : (s.inodes k).din.nlinks = 0) :
    ∃ t, sfsFreeInode k s = .ok ((), t) ∧ BlockMaps t (F \ {k}) ∧ Homed t (F \ {k}) := by
  have sub : F \ {k} ⊆ F := Set.sdiff_subset
  obtain ⟨t, free, released⟩ := block_free_run maps.volume (home k mem).1
  obtain ⟨mapsT, homeT⟩ := released_consistent (maps_fewer maps sub) (homed_fewer home sub)
    (fun g mg => (home k mem).2 g (sub mg)) (fun here => here.2 rfl) (home k mem).1.1 released
  unfold sfsFreeInode
  rw [run_bind inode_run, if_pos unlinked, run_bind free]
  by_cases none : (s.inodes k).din.indirect = 0
  · rw [if_neg (not_not.mpr none)]
    exact ⟨t, rfl, mapsT, homeT⟩
  · have ne : (s.inodes k).din.indirect ≠ k := (home k mem).2 k mem .entries trivial
    have inuse : InUse t (s.inodes k).din.indirect :=
      (released_inuse released _).mpr ⟨(maps.map k mem).entries none, ne⟩
    obtain ⟨u, free', released'⟩ := block_free_run mapsT.volume inuse
    have apart : Unpointed t (F \ {k}) (s.inodes k).din.indirect := by
      intro g mg a valid same
      have before : pointer t g a = pointer s g a := by
        unfold pointer entry
        rw [released.inodes, released.disk]
      rw [before] at same
      have shared := maps.unshared k mem g (sub mg) .entries a trivial valid none same.symm
      exact mg.2 shared.1.symm
    have away : (s.inodes k).din.indirect ∉ F \ {k} := by
      intro here
      exact (home _ (sub here)).2 k mem .entries trivial rfl
    obtain ⟨mapsU, homeU⟩ := released_consistent mapsT homeT apart away none released'
    rw [if_pos none]
    exact ⟨u, free', mapsU, homeU⟩

theorem reclaim_consistent (maps : BlockMaps s F) (home : Homed s F) (mem : k ∈ F)
    (unlinked : (s.inodes k).din.nlinks = 0) {ret : Int}
    (run : sfsReclaimBlocks k s = .ok (ret, t)) :
    if ret = 0 then BlockMaps t (F \ {k}) ∧ Homed t (F \ {k}) else BlockMaps t F ∧ Homed t F := by
  unfold sfsReclaimBlocks at run
  rw [run_bind inode_run] at run
  dsimp only at run
  rw [if_pos unlinked] at run
  cases cut : sfsTruncfile k 0 s with
  | error e =>
    rw [run_bind_stop cut] at run
    cases run
  | ok r =>
    obtain ⟨code, u⟩ := r
    have touched := trunc_touched maps mem cut
    have homeU := homed_touched maps home mem touched
    have links : (u.inodes k).din.nlinks = 0 := by
      rw [((same_kinds_of_run keeps_truncfile cut).kind k).nlinks, unlinked]
    rw [run_bind cut] at run
    by_cases failed : code ≠ 0
    · rw [if_pos failed] at run
      cases run
      rw [if_neg failed]
      exact ⟨touched.maps, homeU⟩
    · rw [if_neg failed, run_bind (fsync_run touched.maps.volume (homeU k mem).1),
        if_neg (by decide)] at run
      have unlinked' : ((synced u k).inodes k).din.nlinks = 0 := by
        rw [synced_din, links]
      obtain ⟨w, freed, mapsW, homeW⟩ := free_inode_consistent
        (synced_maps touched.maps homeU mem) (synced_homed homeU mem) mem unlinked'
      rw [run_bind freed] at run
      cases run
      rw [if_pos rfl]
      exact ⟨mapsW, homeW⟩

theorem step_consistent (consistent : Consistent m) (step : BlockStep m c m') : Consistent m' := by
  obtain ⟨maps, home⟩ := consistent
  obtain ⟨mem, step⟩ := step
  have kept : m'.live = m.live → Touched m.live m.sfs c.inode m'.sfs → Consistent m' := by
    intro same touched
    refine ⟨?_, ?_⟩
    · rw [same]
      exact touched.maps
    · rw [same]
      exact homed_touched maps home mem touched
  cases c with
  | load k index =>
    obtain ⟨⟨r, run⟩, same⟩ := step
    exact kept same (load_touched maps mem run)
  | shorten k =>
    obtain ⟨⟨ret, run⟩, same⟩ := step
    exact kept same (shorten_touched maps mem run)
  | truncate k len =>
    obtain ⟨⟨ret, run⟩, same⟩ := step
    exact kept same (trunc_touched maps mem run)
  | reclaim k =>
    obtain ⟨unlinked, ret, run, same⟩ := step
    have after := reclaim_consistent maps home mem unlinked run
    by_cases gone : ret = 0
    · rw [if_pos gone] at after same
      refine ⟨?_, ?_⟩
      · rw [same]
        exact after.1
      · rw [same]
        exact after.2
    · rw [if_neg gone] at after same
      refine ⟨?_, ?_⟩
      · rw [same]
        exact after.1
      · rw [same]
        exact after.2

/-- Growth, truncation and reclaim keep the accounts of a consistent volume, also where they
fail. -/
theorem blocks_stay_accounted {m m' : Mounted} (consistent : Consistent m) {calls : List BlockCall}
    (run : Run BlockStep m calls m') : Consistent m' ∧ Accounted m' := by
  have keep : ∀ m c m', Consistent m → BlockStep m c m' → Consistent m' :=
    fun _ _ _ consistent step => step_consistent consistent step
  have kept := run_invariant keep run consistent
  exact ⟨kept, consistent_accounted kept⟩

end

/-- An empty file, and one that has lost its last link. -/
def unlinkedVolume : Mounted where
  sfs := smallVolume fun k => { emptyFile with nlinks := if k = 2 then 0 else 1 }
  live := {1, 2}

theorem unlinked_consistent : Consistent unlinkedVolume := by
  have null : ∀ g, ∀ a : Slot, pointer unlinkedVolume.sfs g a = 0 := by
    intro g a
    cases a with
    | data i => simp [pointer, unlinkedVolume, smallVolume, emptyFile]
    | entries => rfl
  refine ⟨null_maps (small_volume _) null fun _ => rfl, ?_⟩
  rintro k (rfl | rfl)
  · exact ⟨by decide, fun g _ a _ => by rw [null]; decide⟩
  · exact ⟨by decide, fun g _ a _ => by rw [null]; decide⟩

theorem growth_and_reclaim_on_small_volume : ∃ m,
    Run BlockStep unlinkedVolume [.load 1 0, .truncate 1 20000, .reclaim 2] m ∧
    m.live = {1, 2} \ {2} ∧ Accounted m := by
  have seen : endsWith (fun _ t => endsWith (fun ret u => decide (ret = -E_NO_MEM) &&
      endsWith (fun ret _ => decide (ret = 0)) (sfsReclaimBlocks 2 u)) (sfsTruncfile 1 20000 t))
      (sfsBmapLoadNolock 1 0 unlinkedVolume.sfs) = true := by
    decide +kernel
  obtain ⟨r, t, loaded, left⟩ := ends_with seen
  obtain ⟨ret, u, failed, left⟩ := ends_with left
  rw [Bool.and_eq_true] at left
  obtain ⟨ret', w, reclaimed, gone⟩ := ends_with left.2
  obtain rfl := of_decide_eq_true gone
  have unlinked : (u.inodes 2).din.nlinks = 0 := by
    rw [((same_kinds_of_run keeps_truncfile failed).kind 2).nlinks,
      ((same_kinds_of_run keeps_bmap_load loaded).kind 2).nlinks]
    rfl
  have first : BlockStep unlinkedVolume (.load 1 0) ⟨t, {1, 2}⟩ :=
    ⟨Or.inl rfl, ⟨r, loaded⟩, rfl⟩
  have second : BlockStep ⟨t, {1, 2}⟩ (.truncate 1 20000) ⟨u, {1, 2}⟩ :=
    ⟨Or.inl rfl, ⟨ret, failed⟩, rfl⟩
  have third : BlockStep ⟨u, {1, 2}⟩ (.reclaim 2) ⟨w, {1, 2} \ {2}⟩ :=
    ⟨Or.inr rfl, unlinked, 0, reclaimed, rfl⟩
  have run := Run.call first (.call second (.call third (.stop _)))
  exact ⟨_, run, rfl, (blocks_stay_accounted unlinked_consistent run).2⟩

end Ucore
