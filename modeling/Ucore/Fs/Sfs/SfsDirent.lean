import Ucore.Fs.Vfs.Inode

/- lab8/kern/fs/sfs/sfs_inode.c: loading inodes, and the entries of directories. -/
namespace Ucore
open Programs Words

def SFS_MAX_FNAME_LEN : Nat := 255
def SFS_BLKN_ROOT : Nat := 1

/-- A C string without its NUL. -/
abbrev Name := List UInt8

/-- `struct sfs_disk_entry`. -/
structure SfsDiskEntry where
  ino : Nat
  name : Name

def sizeofDiskEntry : Nat := 260

/- The name ends at its first NUL, and at the latest at its last byte. -/
def bytesDiskEntry (b : DiskBlock) : SfsDiskEntry where
  ino := field b 0
  name := ((List.range SFS_MAX_FNAME_LEN).map fun i => b (4 + i)).takeWhile (· ≠ 0)

def sfsDirentReadNolock (k slot : Nat) : SfsM (Except Int SfsDiskEntry) := do
  let din := (← sfsInode k).din
  check .assertion (din.type = .dir ∧ slot < din.blocks)
  match ← sfsBmapLoadNolock k slot with
  | .error ret => return .error ret
  | .ok ino =>
      sfsAssertInuse ino
      match ← sfsRbuf sizeofDiskEntry ino 0 with
      | .error ret => return .error ret
      | .ok bytes => return .ok (bytesDiskEntry bytes)

/- The loop of `sfs_dirent_search_nolock`: `count` slots from `slot` on. -/
def sfsDirentScan (k : Nat) (name : Name) : Nat → Nat → SfsM (Except Int (Nat × Nat))
  | 0, _ => return .error (-E_NOENT)
  | count + 1, slot => do
      match ← sfsDirentReadNolock k slot with
      | .error ret => return .error ret
      | .ok entry =>
          if entry.ino ≠ 0 ∧ name = entry.name then return .ok (entry.ino, slot)
          else sfsDirentScan k name count (slot + 1)

/- The inode number of the entry and its slot. -/
def sfsDirentSearchNolock (k : Nat) (name : Name) : VfsM (Except Int (Nat × Nat)) := do
  check .assertion (name.length ≤ SFS_MAX_FNAME_LEN)
  if !(← kmalloc) then return .error (-E_NO_MEM)
  else
    let din := (← onSfs (sfsInode k)).din
    onSfs (sfsDirentScan k name din.blocks 0)

/- `lookup_sfs_nolock` and `sfs_load_inode` when the inode is in memory. -/
def lookupSfsNolock (node : Node) : VfsM Unit := do
  let refCount ← inodeRefInc node
  if refCount = 1 then
    let i ← inodeOf node
    setInode node (some { i with reclaimCount := i.reclaimCount + 1 })

/- `sfs_load_inode` when it is not. -/
def sfsReadInode (ino : Nat) : VfsM (Except Int Node) := do
  if !(← kmalloc) then return .error (-E_NO_MEM)
  else
    onSfs (sfsAssertInuse ino)
    match ← onSfs (sfsRbuf sizeofDiskInode ino 0) with
    | .error ret => return .error ret
    | .ok bytes => do
        let din := bytesDiskInode bytes
        check .assertion (din.nlinks ≠ 0)
        if !(← kmalloc) then return .error (-E_NO_MEM)
        else
          match sfsGetOps din.type with
          | none => stop .assertion
          | some inOps =>
              onSfs (modify fun s =>
                { s with inodes := Function.update s.inodes ino { din, dirty := false } })
              setInode (.sfs ino) (some { refCount := 1, openCount := 0, inOps, reclaimCount := 1 })
              return .ok (.sfs ino)

def sfsLoadInode (ino : Nat) : VfsM (Except Int Node) := do
  match (← get).inodes (.sfs ino) with
  | some _ => do
      lookupSfsNolock (.sfs ino)
      return .ok (.sfs ino)
  | none => sfsReadInode ino

def sfsLookupOnce (k : Nat) (name : Name) : VfsM (Except Int Node) := do
  match ← sfsDirentSearchNolock k name with
  | .error ret => return .error ret
  | .ok (ino, _) => sfsLoadInode ino

def sfsLookup (node : Node) (path : Name) : VfsM (Except Int Node) := do
  check .assertion (path ≠ [] ∧ path.head? ≠ some 47)
  let _ ← inodeRefInc node
  let k ← sfsInfo node
  let sin ← onSfs (sfsInode k)
  if sin.din.type ≠ .dir then
    let _ ← inodeRefDec node
    return .error (-E_NOTDIR)
  else
    let found ← sfsLookupOnce k path
    let _ ← inodeRefDec node
    return found

def devLookup (node : Node) (path : Name) : VfsM (Except Int Node) := do
  if path ≠ [] then return .error (-E_NOENT)
  else
    let _ ← inodeRefInc node
    return .ok node

def vopLookup (node : Node) (path : Name) : VfsM (Except Int Node) := do
  match ← vopOp node .vopLookup with
  | .sfsNodeDirops => sfsLookup node path
  | .devNodeOps => devLookup node path
  | .sfsNodeFileops => stop (.nullOp .vopLookup)

/- `sfs_getdirentry_sub_nolock`: `count` slots from `i` on, of which `slot` entries are
   passed over. -/
def sfsGetdirentrySubNolock (k : Nat) : Nat → Nat → Nat → SfsM (Except Int SfsDiskEntry)
  | 0, _, _ => return .error (-E_NOENT)
  | count + 1, i, slot => do
      match ← sfsDirentReadNolock k i with
      | .error ret => return .error ret
      | .ok entry =>
          if entry.ino = 0 then sfsGetdirentrySubNolock k count (i + 1) slot
          else if slot = 0 then return .ok entry
          else sfsGetdirentrySubNolock k count (i + 1) (slot - 1)

/-- `sizeof(entry->name)`. -/
def sfsDentrySize : Nat := 256

/- The returned code, how far the buffer has been used, and the name delivered. -/
def sfsGetdirentry (node : Node) (offset : Int) (resid : Nat) : VfsM (Int × Nat × Name) := do
  if !(← kmalloc) then return (-E_NO_MEM, 0, [])
  else
    let k ← sfsInfo node
    let din := (← onSfs (sfsInode k)).din
    if offset < 0 ∨ offset % sfsDentrySize ≠ 0 then return (-E_INVAL, 0, [])
    else
      let slot := i32 (offset.toNat / sfsDentrySize)
      if u32 slot > din.blocks then return (-E_NOENT, 0, [])
      else
        match ← onSfs (sfsGetdirentrySubNolock k din.blocks 0 (u32 slot)) with
        | .error ret => return (ret, 0, [])
        | .ok entry =>
            let alen := min resid sfsDentrySize
            return (if sfsDentrySize ≤ resid then 0 else -E_NO_MEM, alen, entry.name)

def vopGetdirentry (node : Node) (offset : Int) (resid : Nat) : VfsM (Int × Nat × Name) := do
  match ← vopOp node .vopGetdirentry with
  | .sfsNodeDirops => sfsGetdirentry node offset resid
  | _ => stop (.nullOp .vopGetdirentry)

end Ucore
