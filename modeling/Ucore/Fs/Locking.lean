import Ucore.Lib.LockOrder

/- The semaphores of the file system of lab8: every function of kern/fs, and the parts of process/proc.c and
   mm/vmm.h that call them, as its sequence of `down` and `up` steps. What a test of the function decides is a
   choice, a loop is run any number of times, and the inode that a function works on is any. -/
namespace Ucore.Locking
open LockOrder LockProg

/-- The semaphores: `mm_sem` of an address space, `files_sem` of a table of files, `vdev_list_sem`, `bootfs_sem`,
`fs_sem` and `io_sem` of the file system, `sem` of an inode, and `disk0_sem`. -/
inductive Sem where
  | mm (n : Nat)
  | files (n : Nat)
  | vdevList
  | bootfs
  | fs
  | inode (n : Nat)
  | io
  | disk0
  deriving DecidableEq

abbrev Fun := LockProg Sem

/- A path that is taken or not. -/
def maybe (p : Fun) : Fun := choice skip p

-- devs/dev_disk0.c

def disk0Io : Fun := maybe (block [down .disk0, up .disk0])

-- sfs/sfs_io.c

def sfsRwblockNolock : Fun := disk0Io

def sfsRwblock : Fun := block [down .io, loop sfsRwblockNolock, up .io]

def sfsRbuf : Fun := block [down .io, sfsRwblockNolock, up .io]

def sfsWbuf : Fun := block [down .io, sfsRwblockNolock, maybe sfsRwblockNolock, up .io]

def sfsSyncSuper : Fun := block [down .io, sfsRwblockNolock, up .io]

def sfsSyncFreemap : Fun := sfsRwblock

def sfsClearBlock : Fun := block [down .io, loop sfsRwblockNolock, up .io]

-- sfs/sfs_inode.c

def sfsBlockAlloc : Fun := maybe sfsClearBlock

/- The inode is there; there is no memory; the read fails; there is no memory for the inode; it is loaded. -/
def sfsLoadInode : Fun :=
  block [down .fs, choice (up .fs) (choice (up .fs)
    (block [sfsRbuf, choice (up .fs) (choice (up .fs) (up .fs))]))]

def sfsBmapGetSubNolock : Fun :=
  let alloc := block [sfsBlockAlloc, maybe sfsWbuf]
  choice (block [sfsRbuf, maybe alloc]) (maybe (block [sfsBlockAlloc, maybe alloc]))

def sfsBmapGetNolock : Fun := choice (maybe sfsBlockAlloc) sfsBmapGetSubNolock

def sfsBmapFreeSubNolock : Fun := block [sfsRbuf, maybe sfsWbuf]

def sfsBmapFreeNolock : Fun := maybe sfsBmapFreeSubNolock

def sfsBmapLoadNolock : Fun := sfsBmapGetNolock

def sfsBmapTruncateNolock : Fun := sfsBmapFreeNolock

def sfsDirentReadNolock : Fun := block [sfsBmapLoadNolock, maybe sfsRbuf]

def sfsDirentSearchNolock : Fun := maybe (loop sfsDirentReadNolock)

def sfsDirentFindinoNolock : Fun := loop sfsDirentReadNolock

def sfsLookupOnce (sin : Nat) : Fun :=
  block [down (.inode sin), sfsDirentSearchNolock, up (.inode sin), maybe sfsLoadInode]

/- The reads or writes of `sfs_io_nolock`; an early exit skips what comes after. -/
def sfsIoNolock : Fun :=
  let bufOp := block [sfsBmapLoadNolock, maybe (choice sfsRbuf sfsWbuf)]
  maybe (block [maybe bufOp, loop (block [sfsBmapLoadNolock, maybe sfsRwblock]), maybe bufOp])

def sfsIo (sin : Nat) : Fun := block [down (.inode sin), sfsIoNolock, up (.inode sin)]

def sfsFsync (sin : Nat) : Fun := maybe (block [down (.inode sin), maybe sfsWbuf, up (.inode sin)])

def sfsClose (sin : Nat) : Fun := sfsFsync sin

def sfsTruncfile (sin : Nat) : Fun :=
  maybe (block [down (.inode sin), choice (loop sfsBmapLoadNolock) (loop sfsBmapTruncateNolock), up (.inode sin)])

def sfsTryseek (sin : Nat) : Fun := maybe (sfsTruncfile sin)

/- The inode is still used; `vop_truncate` fails; `vop_fsync` fails; the inode goes. -/
def sfsReclaim (sin : Nat) : Fun :=
  block [down .fs, choice (up .fs)
    (block [maybe (sfsTruncfile sin), choice (up .fs)
      (block [maybe (sfsFsync sin), choice (up .fs) (up .fs)])])]

/- `vop_ref_dec`, on an inode of the file system or of a device. -/
def inodeRefDec (sin : Nat) : Fun := maybe (sfsReclaim sin)

/- `vop_open_dec`. -/
def inodeOpenDec (sin : Nat) : Fun := maybe (sfsClose sin)

/- The turns of the loop, with the directory and its parent; the last one fails to find a name, is at the root,
or has no room. -/
def sfsNamefile : Fun :=
  let parentEntry (parent : Nat) := block [down (.inode parent), sfsDirentFindinoNolock, up (.inode parent)]
  maybe (block [
    loop (any fun node => any fun parent => block [sfsLookupOnce node, inodeRefDec node, parentEntry parent]),
    any fun node => block [sfsLookupOnce node, choice (inodeRefDec node)
      (block [inodeRefDec node, choice (inodeRefDec node)
        (any fun parent => block [parentEntry parent, inodeRefDec parent])])]])

def sfsGetdirentrySubNolock : Fun := loop sfsDirentReadNolock

def sfsGetdirentry (sin : Nat) : Fun :=
  maybe (block [down (.inode sin), sfsGetdirentrySubNolock, choice (up (.inode sin)) (up (.inode sin))])

def sfsLookup (sin : Nat) : Fun :=
  choice (inodeRefDec sin) (block [sfsLookupOnce sin, inodeRefDec sin])

-- sfs/sfs_fs.c

def sfsSync : Fun :=
  block [down .fs, loop (any sfsFsync), up .fs, maybe (block [sfsSyncSuper, maybe sfsSyncFreemap])]

def sfsGetRoot : Fun := sfsLoadInode

def sfsCleanup : Fun := loop sfsSync

-- vfs/vfsdev.c and vfs/vfs.c

def vfsCleanup : Fun := maybe (block [down .vdevList, loop sfsCleanup, up .vdevList])

def vfsGetRoot : Fun := maybe (block [down .vdevList, maybe sfsGetRoot, up .vdevList])

def vfsGetBootfs : Fun := maybe (block [down .bootfs, up .bootfs])

-- vfs/vfslookup.c and vfs/vfsfile.c

def getDevice : Fun :=
  choice skip (choice vfsGetRoot (choice vfsGetBootfs (maybe (any fun node => block [sfsGetRoot, inodeRefDec node]))))

def vfsLookup : Fun := block [getDevice, maybe (any fun node => block [maybe (sfsLookup node), inodeRefDec node])]

def vfsLookupParent : Fun := getDevice

def vfsClose (node : Nat) : Fun := block [inodeOpenDec node, inodeRefDec node]

/- No inode of the file system has `vop_create`. -/
def vfsOpen : Fun :=
  maybe (block [vfsLookup, choice (maybe vfsLookupParent) (maybe (any fun node =>
    choice (inodeRefDec node)
      (maybe (block [sfsTruncfile node, maybe (block [inodeOpenDec node, inodeRefDec node])]))))])

-- vfs/vfspath.c

def vfsSetCurdir (files : Nat) : Fun :=
  block [down (.files files), maybe (maybe (any inodeRefDec)), up (.files files)]

def vfsChdir (files : Nat) : Fun :=
  block [vfsLookup, maybe (any fun node => block [vfsSetCurdir files, inodeRefDec node])]

def vfsGetcwd : Fun := maybe (any fun node => block [maybe sfsNamefile, inodeRefDec node])

-- file.c and fs.c

def fdArrayFree : Fun := maybe (any vfsClose)

def fdArrayRelease : Fun := maybe fdArrayFree

def fdArrayClose : Fun := maybe fdArrayFree

def fileOpen : Fun :=
  maybe (maybe (block [vfsOpen, choice fdArrayFree (maybe (any fun node => block [vfsClose node, fdArrayFree]))]))

def fileClose : Fun := maybe fdArrayClose

/- `file_read` and `file_write`, on a file or on a device, of which only disk0 takes a semaphore. -/
def fileIo : Fun := maybe (maybe (block [maybe (choice disk0Io (any sfsIo)), fdArrayRelease]))

def fileSeek : Fun := maybe (block [maybe (any sfsTryseek), fdArrayRelease])

def fileFstat : Fun := maybe fdArrayRelease

def fileFsync : Fun := maybe (block [maybe (any sfsFsync), fdArrayRelease])

def fileGetdirentry : Fun := maybe (block [any sfsGetdirentry, fdArrayRelease])

def filesDestroy : Fun := block [maybe (any inodeRefDec), loop fdArrayClose]

def filesCloseall : Fun := loop fdArrayClose

-- sysfile.c; a kernel thread has no address space

def lockMm : Option Nat → Fun
  | none => skip
  | some n => down (.mm n)

def unlockMm : Option Nat → Fun
  | none => skip
  | some n => up (.mm n)

def copyPath (mm : Option Nat) : Fun := maybe (block [lockMm mm, choice (unlockMm mm) (unlockMm mm)])

def copyUser (mm : Option Nat) : Fun := block [lockMm mm, unlockMm mm]

def sysfileOpen (mm : Option Nat) : Fun := block [copyPath mm, maybe fileOpen]

def sysfileClose : Fun := fileClose

def sysfileRead (mm : Option Nat) : Fun := maybe (loop (block [fileIo, maybe (copyUser mm)]))

def sysfileWrite (mm : Option Nat) : Fun := maybe (loop (block [copyUser mm, maybe fileIo]))

def sysfileSeek : Fun := fileSeek

def sysfileFstat (mm : Option Nat) : Fun := block [fileFstat, maybe (copyUser mm)]

def sysfileFsync : Fun := fileFsync

def sysfileChdir (mm : Option Nat) (files : Nat) : Fun := block [copyPath mm, maybe (vfsChdir files)]

def sysfileGetcwd (mm : Option Nat) : Fun := maybe (block [lockMm mm, maybe vfsGetcwd, unlockMm mm])

def sysfileGetdirentry (mm : Option Nat) : Fun :=
  maybe (block [copyUser mm, maybe (block [fileGetdirentry, maybe (copyUser mm)])])

/- `file_dup` counts one more use of the inode. -/
def sysfileDup : Fun := skip

-- process/proc.c

/- `copy_mm` locks the address space of the parent; `put_files` of the child where a later part fails. -/
def doFork (mm : Option Nat) : Fun := maybe (block [maybe (block [lockMm mm, unlockMm mm]), maybe (maybe filesDestroy)])

def doExit : Fun := maybe filesDestroy

/- `load_icode` reads while the process has no address space. -/
def loadIcode : Fun := loop (block [sysfileSeek, maybe (sysfileRead none)])

def doExecve (mm : Option Nat) : Fun :=
  maybe (block [lockMm mm, choice (unlockMm mm) (choice (unlockMm mm)
    (block [unlockMm mm, filesCloseall, sysfileOpen mm, choice doExit (block [loadIcode, maybe doExit])]))])

/-- The operations of the processes, on whatever address space and table of files they have. -/
inductive Operation (mm : Option Nat) (files : Nat) : Fun → Prop
  | openFile : Operation mm files (sysfileOpen mm)
  | close : Operation mm files sysfileClose
  | read : Operation mm files (sysfileRead mm)
  | write : Operation mm files (sysfileWrite mm)
  | seek : Operation mm files sysfileSeek
  | fstat : Operation mm files (sysfileFstat mm)
  | fsync : Operation mm files sysfileFsync
  | chdir : Operation mm files (sysfileChdir mm files)
  | getcwd : Operation mm files (sysfileGetcwd mm)
  | getdirentry : Operation mm files (sysfileGetdirentry mm)
  | dup : Operation mm files sysfileDup
  | fork : Operation mm files (doFork mm)
  | exec : Operation mm files (doExecve mm)
  | exit : Operation mm files doExit
  | sync : Operation mm files vfsCleanup

def operations : Set Fun := { op | ∃ mm files, Operation mm files op }

end Ucore.Locking
