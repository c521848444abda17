import Ucore.Fs.File

/- lab8/kern/fs/sysfile.c: the system calls on files. User memory answers for itself: a
   path is `none` where `copy_string` fails, and `copied` tells which of the transfers of a
   call succeed. -/
namespace Ucore
open Programs Words

def IOBUF_SIZE : Nat := 4096

def copyPath (path : Option Name) : VfsM (Except Int Name) := do
  if !(← kmalloc) then return .error (-E_NO_MEM)
  else
    match path with
    | none => return .error (-E_INVAL)
    | some path => return .ok path

def sysfileOpen (path : Option Name) (openFlags : Nat) : VfsM Int := do
  match ← copyPath path with
  | .error ret => return ret
  | .ok path => fileOpen path openFlags

def sysfileClose (fd : Int) : VfsM Int := fileClose fd

/- How a transfer loop ends. -/
def transferred (copied : Nat) (ret : Int) : Int := if copied ≠ 0 then i32 copied else ret

/- The loop of `sysfile_read`. Every turn but the last delivers a byte, so that `len` turns
   are enough; `out` is user memory from `base` on. -/
def sysfileReadLoop (fd : Int) (user : Nat → Bool) :
    Nat → Nat → Nat → DiskBlock → DiskBlock → VfsM (Int × DiskBlock)
  | 0, _, copied, _, out => return (transferred copied 0, out)
  | turns + 1, len, copied, buffer, out => do
      if len = 0 then return (transferred copied 0, out)
      else
        let (ret, alen, buffer) ← fileRead fd buffer (min IOBUF_SIZE len)
        if alen = 0 then return (transferred copied ret, out)
        else if user copied then
          check .assertion (alen ≤ len)
          let out := overlay out buffer alen copied
          if ret ≠ 0 then return (transferred (copied + alen) ret, out)
          else sysfileReadLoop fd user turns (len - alen) (copied + alen) buffer out
        else return (transferred copied (if ret = 0 then -E_INVAL else ret), out)

def sysfileRead (fd : Int) (len : Nat) (user : Nat → Bool) (out : DiskBlock) :
    VfsM (Int × DiskBlock) := do
  if len = 0 then return (0, out)
  else if !(← fileTestfd fd true false) then return (-E_INVAL, out)
  else if !(← kmalloc) then return (-E_NO_MEM, out)
  else sysfileReadLoop fd user len len 0 (fun _ => 0) out

/- The loop of `sysfile_write`; `src` is user memory from `base` on. -/
def sysfileWriteLoop (fd : Int) (user : Nat → Bool) (src : DiskBlock) :
    Nat → Nat → Nat → VfsM Int
  | 0, _, copied => return transferred copied 0
  | turns + 1, len, copied => do
      if len = 0 then return transferred copied 0
      else if !(user copied) then return transferred copied (-E_INVAL)
      else
        let (ret, alen, _) ← fileWrite fd (fun i => src (copied + i)) (min IOBUF_SIZE len)
        check .assertion (alen ≤ len)
        if ret ≠ 0 ∨ alen = 0 then return transferred (copied + alen) ret
        else sysfileWriteLoop fd user src turns (len - alen) (copied + alen)

def sysfileWrite (fd : Int) (len : Nat) (user : Nat → Bool) (src : DiskBlock) : VfsM Int := do
  if len = 0 then return 0
  else if !(← fileTestfd fd false true) then return -E_INVAL
  else if !(← kmalloc) then return -E_NO_MEM
  else sysfileWriteLoop fd user src len len 0

def sysfileSeek (fd pos whence : Int) : VfsM Int := fileSeek fd pos whence

def sysfileFstat (fd : Int) (user : Bool) : VfsM (Int × Stat) := do
  let (ret, stat) ← fileFstat fd
  if ret ≠ 0 then return (ret, stat)
  else return (if user then 0 else -E_INVAL, stat)

def sysfileFsync (fd : Int) : VfsM Int := fileFsync fd

/- `offset` is `none` where it cannot be read. -/
def sysfileGetdirentry (fd : Int) (offset : Option Int) (user : Bool) :
    VfsM (Int × Int × Name) := do
  if !(← kmalloc) then return (-E_NO_MEM, 0, [])
  else
    match offset with
    | none => return (-E_INVAL, 0, [])
    | some offset => do
        let (ret, offset, name) ← fileGetdirentry fd offset
        if ret ≠ 0 then return (ret, offset, name)
        else return (if user then 0 else -E_INVAL, offset, name)

def sysfileDup (fd1 fd2 : Int) : VfsM Int := fileDup fd1 fd2

def sysfileChdir (path : Option Name) : VfsM Int := do
  match ← copyPath path with
  | .error ret => return ret
  | .ok path => vfsChdir path

end Ucore
