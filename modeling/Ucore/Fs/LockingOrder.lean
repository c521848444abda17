import Ucore.Fs.Locking

/- The order of the semaphores of the file system, and that every function keeps it. -/
namespace Ucore.Locking
open LockOrder LockProg

/-- The address space and the table of files come first, then the lists of the virtual file system, `fs_sem`, the
inode, and the disk. -/
def rank : Sem → Nat
  | .mm _ => 0
  | .files _ => 0
  | .vdevList => 1
  | .bootfs => 1
  | .fs => 2
  | .inode _ => 3
  | .io => 4
  | .disk0 => 5

section
variable {r : Nat} {p : Fun} {mm : Option Nat} {files sin : Nat}

theorem maybe_keeps (keeps : Keeps rank r p) : Keeps rank r (maybe p) := keeps_choice keeps_skip keeps

theorem disk0_io_keeps : Keeps rank 5 disk0Io := maybe_keeps (keeps_down le_rfl (closes_last closes_up))

/- The functions that take `io_sem`. -/

theorem sfs_rwblock_keeps : Keeps rank 4 sfsRwblock := keeps_locked le_rfl (keeps_loop disk0_io_keeps)

theorem sfs_rbuf_keeps : Keeps rank 4 sfsRbuf := keeps_locked le_rfl disk0_io_keeps

theorem sfs_wbuf_keeps : Keeps rank 4 sfsWbuf :=
  keeps_down le_rfl (closes_inside le_rfl disk0_io_keeps
    (closes_inside le_rfl (maybe_keeps disk0_io_keeps) (closes_last closes_up)))

theorem sfs_sync_super_keeps : Keeps rank 4 sfsSyncSuper := keeps_locked le_rfl disk0_io_keeps

theorem sfs_block_alloc_keeps : Keeps rank 4 sfsBlockAlloc :=
  maybe_keeps (keeps_locked le_rfl (keeps_loop disk0_io_keeps))

theorem sfs_bmap_get_sub_keeps : Keeps rank 4 sfsBmapGetSubNolock := by
  have alloc : Keeps rank 4 (block [sfsBlockAlloc, maybe sfsWbuf]) :=
    keeps_cons sfs_block_alloc_keeps (keeps_cons (maybe_keeps sfs_wbuf_keeps) keeps_nil)
  refine keeps_choice ?_ (maybe_keeps ?_)
  · exact keeps_cons sfs_rbuf_keeps (keeps_cons (maybe_keeps alloc) keeps_nil)
  · exact keeps_cons sfs_block_alloc_keeps (keeps_cons (maybe_keeps alloc) keeps_nil)

theorem sfs_bmap_load_keeps : Keeps rank 4 sfsBmapLoadNolock :=
  keeps_choice (maybe_keeps sfs_block_alloc_keeps) sfs_bmap_get_sub_keeps

theorem sfs_bmap_truncate_keeps : Keeps rank 4 sfsBmapTruncateNolock :=
  maybe_keeps (keeps_cons sfs_rbuf_keeps (keeps_cons (maybe_keeps sfs_wbuf_keeps) keeps_nil))

theorem sfs_dirent_read_keeps : Keeps rank 4 sfsDirentReadNolock :=
  keeps_cons sfs_bmap_load_keeps (keeps_cons (maybe_keeps sfs_rbuf_keeps) keeps_nil)

theorem sfs_dirent_search_keeps : Keeps rank 4 sfsDirentSearchNolock := maybe_keeps (keeps_loop sfs_dirent_read_keeps)

theorem sfs_dirent_findino_keeps : Keeps rank 4 sfsDirentFindinoNolock := keeps_loop sfs_dirent_read_keeps

theorem sfs_io_nolock_keeps : Keeps rank 4 sfsIoNolock := by
  have bufOp : Keeps rank 4 (block [sfsBmapLoadNolock, maybe (choice sfsRbuf sfsWbuf)]) :=
    keeps_cons sfs_bmap_load_keeps (keeps_cons (maybe_keeps (keeps_choice sfs_rbuf_keeps sfs_wbuf_keeps)) keeps_nil)
  have blocks : Keeps rank 4 (block [sfsBmapLoadNolock, maybe sfsRwblock]) :=
    keeps_cons sfs_bmap_load_keeps (keeps_cons (maybe_keeps sfs_rwblock_keeps) keeps_nil)
  exact maybe_keeps (keeps_cons (maybe_keeps bufOp) (keeps_cons (keeps_loop blocks)
    (keeps_cons (maybe_keeps bufOp) keeps_nil)))

/- The functions that take the semaphore of an inode. -/

theorem sfs_io_keeps : Keeps rank 3 (sfsIo sin) := keeps_locked le_rfl sfs_io_nolock_keeps

theorem sfs_fsync_keeps : Keeps rank 3 (sfsFsync sin) := maybe_keeps (keeps_locked le_rfl (maybe_keeps sfs_wbuf_keeps))

theorem sfs_truncfile_keeps : Keeps rank 3 (sfsTruncfile sin) :=
  maybe_keeps (keeps_locked le_rfl (keeps_choice (keeps_loop sfs_bmap_load_keeps) (keeps_loop sfs_bmap_truncate_keeps)))

theorem sfs_getdirentry_keeps : Keeps rank 3 (sfsGetdirentry sin) :=
  maybe_keeps (keeps_down le_rfl (closes_inside le_rfl (keeps_loop sfs_dirent_read_keeps)
    (closes_last (closes_choice closes_up closes_up))))

theorem inode_open_dec_keeps : Keeps rank 3 (inodeOpenDec sin) := maybe_keeps sfs_fsync_keeps

/- The functions that take `fs_sem`, inside which an inode may be taken. -/

theorem sfs_load_inode_keeps : Keeps rank 2 sfsLoadInode := by
  refine keeps_down le_rfl (closes_last (closes_choice closes_up (closes_choice closes_up ?_)))
  exact closes_inside le_rfl (keeps_mono (by decide) sfs_rbuf_keeps)
    (closes_last (closes_choice closes_up (closes_choice closes_up closes_up)))

theorem sfs_reclaim_keeps : Keeps rank 2 (sfsReclaim sin) := by
  refine keeps_down le_rfl (closes_last (closes_choice closes_up ?_))
  refine closes_inside le_rfl (maybe_keeps sfs_truncfile_keeps) (closes_last (closes_choice closes_up ?_))
  exact closes_inside le_rfl (maybe_keeps sfs_fsync_keeps) (closes_last (closes_choice closes_up closes_up))

theorem inode_ref_dec_keeps : Keeps rank 2 (inodeRefDec sin) := maybe_keeps sfs_reclaim_keeps

/- The inode is put back before `fs_sem` is taken. -/
theorem sfs_lookup_once_keeps : Keeps rank 2 (sfsLookupOnce sin) :=
  keeps_down (Nat.le_succ 2) (closes_inside (Nat.le_succ 2) sfs_dirent_search_keeps
    (closes_then closes_up (keeps_cons (maybe_keeps sfs_load_inode_keeps) keeps_nil)))

theorem sfs_namefile_keeps : Keeps rank 2 sfsNamefile := by
  have entry : ∀ parent, Keeps rank 2 (block [down (.inode parent), sfsDirentFindinoNolock, up (.inode parent)]) :=
    fun parent => keeps_locked (Nat.le_succ 2) sfs_dirent_findino_keeps
  have turn : ∀ node parent, Keeps rank 2 (block [sfsLookupOnce node, inodeRefDec node,
      block [down (.inode parent), sfsDirentFindinoNolock, up (.inode parent)]]) :=
    fun _ parent => keeps_cons sfs_lookup_once_keeps (keeps_cons inode_ref_dec_keeps (keeps_cons (entry parent) keeps_nil))
  have failed : ∀ parent, Keeps rank 2 (block [block [down (.inode parent), sfsDirentFindinoNolock, up (.inode parent)],
      inodeRefDec parent]) :=
    fun parent => keeps_cons (entry parent) (keeps_cons inode_ref_dec_keeps keeps_nil)
  refine maybe_keeps (keeps_cons (keeps_loop (keeps_any fun node => keeps_any fun parent => turn node parent))
    (keeps_cons (keeps_any fun node => ?_) keeps_nil))
  refine keeps_cons sfs_lookup_once_keeps (keeps_cons (keeps_choice inode_ref_dec_keeps ?_) keeps_nil)
  exact keeps_cons inode_ref_dec_keeps (keeps_cons (keeps_choice inode_ref_dec_keeps (keeps_any failed)) keeps_nil)

theorem sfs_lookup_keeps : Keeps rank 2 (sfsLookup sin) :=
  keeps_choice inode_ref_dec_keeps (keeps_cons sfs_lookup_once_keeps (keeps_cons inode_ref_dec_keeps keeps_nil))

theorem sfs_sync_keeps : Keeps rank 2 sfsSync := by
  have super : Keeps rank 4 (block [sfsSyncSuper, maybe sfsSyncFreemap]) :=
    keeps_cons sfs_sync_super_keeps (keeps_cons (maybe_keeps sfs_rwblock_keeps) keeps_nil)
  exact keeps_down le_rfl (closes_inside le_rfl (keeps_loop (keeps_any fun _ => sfs_fsync_keeps))
    (closes_then closes_up (keeps_cons (maybe_keeps (keeps_mono (by decide) super)) keeps_nil)))

theorem vfs_close_keeps : Keeps rank 2 (vfsClose sin) :=
  keeps_cons (keeps_mono (by decide) inode_open_dec_keeps) (keeps_cons inode_ref_dec_keeps keeps_nil)

theorem fd_array_free_keeps : Keeps rank 2 fdArrayFree := maybe_keeps (keeps_any fun _ => vfs_close_keeps)

theorem fd_array_close_keeps : Keeps rank 2 fdArrayClose := maybe_keeps fd_array_free_keeps

theorem files_destroy_keeps : Keeps rank 2 filesDestroy :=
  keeps_cons (maybe_keeps (keeps_any fun _ => inode_ref_dec_keeps)) (keeps_cons (keeps_loop fd_array_close_keeps) keeps_nil)

theorem vfs_getcwd_keeps : Keeps rank 2 vfsGetcwd :=
  maybe_keeps (keeps_any fun _ => keeps_cons (maybe_keeps sfs_namefile_keeps) (keeps_cons inode_ref_dec_keeps keeps_nil))

/- A function of file.c does something to the inode and releases the file. -/
theorem with_file_keeps (keeps : Keeps rank 2 p) : Keeps rank 2 (block [p, fdArrayRelease]) :=
  keeps_cons keeps (keeps_cons (maybe_keeps fd_array_free_keeps) keeps_nil)

theorem file_io_keeps : Keeps rank 2 fileIo :=
  maybe_keeps (maybe_keeps (with_file_keeps (maybe_keeps (keeps_choice (keeps_mono (by decide) disk0_io_keeps)
    (keeps_any fun _ => keeps_mono (by decide) sfs_io_keeps)))))

theorem file_seek_keeps : Keeps rank 2 fileSeek :=
  maybe_keeps (with_file_keeps (maybe_keeps (keeps_any fun _ => keeps_mono (by decide) (maybe_keeps sfs_truncfile_keeps))))

theorem file_fsync_keeps : Keeps rank 2 fileFsync :=
  maybe_keeps (with_file_keeps (maybe_keeps (keeps_any fun _ => keeps_mono (by decide) sfs_fsync_keeps)))

theorem file_getdirentry_keeps : Keeps rank 2 fileGetdirentry :=
  maybe_keeps (with_file_keeps (keeps_any fun _ => keeps_mono (by decide) sfs_getdirentry_keeps))

/- The functions that take the list of devices or `bootfs_sem`. -/

theorem vfs_cleanup_keeps : Keeps rank 1 vfsCleanup :=
  maybe_keeps (keeps_locked le_rfl (keeps_loop (keeps_loop sfs_sync_keeps)))

theorem vfs_get_root_keeps : Keeps rank 1 vfsGetRoot :=
  maybe_keeps (keeps_locked le_rfl (maybe_keeps sfs_load_inode_keeps))

theorem vfs_get_bootfs_keeps : Keeps rank 1 vfsGetBootfs := maybe_keeps (keeps_down le_rfl (closes_last closes_up))

theorem get_device_keeps : Keeps rank 1 getDevice := by
  have root : ∀ node, Keeps rank 2 (block [sfsGetRoot, inodeRefDec node]) :=
    fun node => keeps_cons sfs_load_inode_keeps (keeps_cons inode_ref_dec_keeps keeps_nil)
  exact keeps_choice keeps_skip (keeps_choice vfs_get_root_keeps (keeps_choice vfs_get_bootfs_keeps
    (maybe_keeps (keeps_mono (by decide) (keeps_any root)))))

theorem vfs_lookup_keeps : Keeps rank 1 vfsLookup := by
  have component : ∀ node, Keeps rank 2 (block [maybe (sfsLookup node), inodeRefDec node]) :=
    fun node => keeps_cons (maybe_keeps sfs_lookup_keeps) (keeps_cons inode_ref_dec_keeps keeps_nil)
  exact keeps_cons get_device_keeps (keeps_cons (maybe_keeps (keeps_mono (by decide) (keeps_any component))) keeps_nil)

theorem vfs_open_keeps : Keeps rank 1 vfsOpen := by
  have opened : ∀ node, Keeps rank 2 (choice (inodeRefDec node)
      (maybe (block [sfsTruncfile node, maybe (block [inodeOpenDec node, inodeRefDec node])]))) :=
    fun node => keeps_choice inode_ref_dec_keeps (maybe_keeps (keeps_cons (keeps_mono (by decide) sfs_truncfile_keeps)
      (keeps_cons (maybe_keeps vfs_close_keeps) keeps_nil)))
  exact maybe_keeps (keeps_cons vfs_lookup_keeps (keeps_cons (keeps_choice (maybe_keeps get_device_keeps)
    (maybe_keeps (keeps_mono (by decide) (keeps_any opened)))) keeps_nil))

theorem file_open_keeps : Keeps rank 1 fileOpen := by
  have failed : ∀ node, Keeps rank 2 (block [vfsClose node, fdArrayFree]) :=
    fun node => keeps_cons vfs_close_keeps (keeps_cons fd_array_free_keeps keeps_nil)
  exact maybe_keeps (maybe_keeps (keeps_cons vfs_open_keeps (keeps_cons (keeps_choice
    (keeps_mono (by decide) fd_array_free_keeps) (maybe_keeps (keeps_mono (by decide) (keeps_any failed)))) keeps_nil)))

/- The operations, which take the address space or the table of files. -/

theorem copy_user_keeps : Keeps rank 0 (copyUser mm) := by
  cases mm with
  | none => exact keeps_cons keeps_skip (keeps_cons keeps_skip keeps_nil)
  | some n => exact keeps_down le_rfl (closes_last closes_up)

theorem copy_path_keeps : Keeps rank 0 (copyPath mm) := by
  refine maybe_keeps ?_
  cases mm with
  | none => exact keeps_cons keeps_skip (keeps_cons (keeps_choice keeps_skip keeps_skip) keeps_nil)
  | some n => exact keeps_down le_rfl (closes_last (closes_choice closes_up closes_up))

theorem sysfile_open_keeps : Keeps rank 0 (sysfileOpen mm) :=
  keeps_cons copy_path_keeps (keeps_cons (maybe_keeps (keeps_mono (by decide) file_open_keeps)) keeps_nil)

theorem sysfile_read_keeps : Keeps rank 0 (sysfileRead mm) :=
  maybe_keeps (keeps_loop (keeps_cons (keeps_mono (by decide) file_io_keeps)
    (keeps_cons (maybe_keeps copy_user_keeps) keeps_nil)))

theorem sysfile_write_keeps : Keeps rank 0 (sysfileWrite mm) :=
  maybe_keeps (keeps_loop (keeps_cons copy_user_keeps
    (keeps_cons (maybe_keeps (keeps_mono (by decide) file_io_keeps)) keeps_nil)))

theorem sysfile_fstat_keeps : Keeps rank 0 (sysfileFstat mm) :=
  keeps_cons (maybe_keeps (keeps_mono (by decide) (maybe_keeps fd_array_free_keeps)))
    (keeps_cons (maybe_keeps copy_user_keeps) keeps_nil)

/- The old directory is dropped with the table of files taken. -/
theorem vfs_set_curdir_keeps : Keeps rank 0 (vfsSetCurdir files) :=
  keeps_locked le_rfl (maybe_keeps (maybe_keeps (keeps_any fun _ => keeps_mono (Nat.le_succ 1) inode_ref_dec_keeps)))

theorem sysfile_chdir_keeps : Keeps rank 0 (sysfileChdir mm files) := by
  have change : ∀ node, Keeps rank 0 (block [vfsSetCurdir files, inodeRefDec node]) :=
    fun node => keeps_cons vfs_set_curdir_keeps (keeps_cons (keeps_mono (by decide) inode_ref_dec_keeps) keeps_nil)
  have chdir : Keeps rank 0 (vfsChdir files) :=
    keeps_cons (keeps_mono (by decide) vfs_lookup_keeps) (keeps_cons (maybe_keeps (keeps_any change)) keeps_nil)
  exact keeps_cons copy_path_keeps (keeps_cons (maybe_keeps chdir) keeps_nil)

/- The name is put together with the address space taken. -/
theorem sysfile_getcwd_keeps : Keeps rank 0 (sysfileGetcwd mm) := by
  refine maybe_keeps ?_
  cases mm with
  | none =>
    exact keeps_cons keeps_skip (keeps_cons (maybe_keeps (keeps_mono (by decide) vfs_getcwd_keeps))
      (keeps_cons keeps_skip keeps_nil))
  | some n => exact keeps_locked le_rfl (maybe_keeps (keeps_mono (Nat.le_succ 1) vfs_getcwd_keeps))

theorem sysfile_getdirentry_keeps : Keeps rank 0 (sysfileGetdirentry mm) :=
  maybe_keeps (keeps_cons copy_user_keeps (keeps_cons (maybe_keeps (keeps_cons (keeps_mono (by decide) file_getdirentry_keeps)
    (keeps_cons (maybe_keeps copy_user_keeps) keeps_nil))) keeps_nil))

theorem do_exit_keeps : Keeps rank 0 doExit := maybe_keeps (keeps_mono (by decide) files_destroy_keeps)

theorem do_fork_keeps : Keeps rank 0 (doFork mm) :=
  maybe_keeps (keeps_cons (maybe_keeps copy_user_keeps) (keeps_cons (maybe_keeps do_exit_keeps) keeps_nil))

theorem do_execve_keeps : Keeps rank 0 (doExecve mm) := by
  have load : Keeps rank 0 loadIcode :=
    keeps_loop (keeps_cons (keeps_mono (by decide) file_seek_keeps) (keeps_cons (maybe_keeps sysfile_read_keeps) keeps_nil))
  have rest : Keeps rank 0 (block [filesCloseall, sysfileOpen mm, choice doExit (block [loadIcode, maybe doExit])]) :=
    keeps_cons (keeps_mono (by decide) (keeps_loop fd_array_close_keeps)) (keeps_cons sysfile_open_keeps
      (keeps_cons (keeps_choice do_exit_keeps (keeps_cons load (keeps_cons (maybe_keeps do_exit_keeps) keeps_nil))) keeps_nil))
  refine maybe_keeps ?_
  cases mm with
  | none =>
    exact keeps_cons keeps_skip (keeps_cons (keeps_choice keeps_skip (keeps_choice keeps_skip
      (keeps_cons keeps_skip rest))) keeps_nil)
  | some n =>
    exact keeps_down le_rfl (closes_last (closes_choice closes_up (closes_choice closes_up (closes_then closes_up rest))))

theorem operation_keeps {op : Fun} (operation : Operation mm files op) : Keeps rank 0 op := by
  cases operation with
  | openFile => exact sysfile_open_keeps
  | close => exact maybe_keeps (keeps_mono (by decide) fd_array_close_keeps)
  | read => exact sysfile_read_keeps
  | write => exact sysfile_write_keeps
  | seek => exact keeps_mono (by decide) file_seek_keeps
  | fstat => exact sysfile_fstat_keeps
  | fsync => exact keeps_mono (by decide) file_fsync_keeps
  | chdir => exact sysfile_chdir_keeps
  | getcwd => exact sysfile_getcwd_keeps
  | getdirentry => exact sysfile_getdirentry_keeps
  | dup => exact keeps_skip
  | fork => exact do_fork_keeps
  | exec => exact do_execve_keeps
  | exit => exact do_exit_keeps
  | sync => exact keeps_mono (by decide) vfs_cleanup_keeps

end

/-- In every state that any number of processes reach, in whatever order they go through the operations: no
processes are blocked on one another, none asks for a semaphore that it holds, and none is in user mode with one. -/
theorem file_system_never_deadlocks : ∀ s, Reachable operations s → Safe s := by
  intro s reached
  have bounded : ∀ l, rank l ≤ 5 := by
    intro l
    cases l <;> simp [rank]
  refine reachable_safe bounded ?_ reached
  rintro op ⟨mm, files, operation⟩
  exact keeps_fine (operation_keeps operation)

/- Two threads of one address space: the second one waits while the first puts the name together. -/
theorem second_getcwd_waits : ∃ s, Reachable operations s ∧ (s.procs 1).waiting = some (.mm 0) ∧
    .mm 0 ∈ (s.procs 0).held ∧ Safe s := by
  have known : sysfileGetcwd (some 0) ∈ operations := ⟨some 0, 0, .getcwd⟩
  have reached := (.start : Reachable operations idle)
    |>.step (.enter 0 _ rfl known) |>.step (.right 0 _ _ _ rfl) |>.step (.seq 0 _ _ _ rfl)
    |>.step (.take 0 _ _ rfl rfl (Nat.lt_succ_self 0))
    |>.step (.enter 1 _ rfl known) |>.step (.right 1 _ _ _ rfl) |>.step (.seq 1 _ _ _ rfl)
    |>.step (.wait 1 _ _ rfl rfl rfl)
  exact ⟨_, reached, rfl, List.mem_singleton_self _, file_system_never_deadlocks _ reached⟩

end Ucore.Locking
