import Ucore.Fs.Sfs.SfsDirent

/- lab8/kern/fs/vfs: path lookup and the current directory (vfslookup.c, vfspath.c, and
   `vfs_get_root`, `vfs_get_bootfs`). -/
namespace Ucore
open Programs

def curFiles : VfsM FilesStruct := do
  let v ← get
  return v.files v.current

def setFiles (p : Nat) (f : FilesStruct) : VfsM Unit :=
  modify fun v => { v with files := Function.update v.files p f }

/-- `fsop_get_root`: the root directory has to load. -/
def sfsGetRoot : VfsM Node := do
  match ← sfsLoadInode SFS_BLKN_ROOT with
  | .error _ => stop .assertion
  | .ok node => return node

def stdinName : Name := [115, 116, 100, 105, 110]
def stdoutName : Name := [115, 116, 100, 111, 117, 116]
def disk0Name : Name := [100, 105, 115, 107, 48]

/- The device list: `disk0` is mounted, the other two are not mountable. -/
def vfsGetRoot (devname : Name) : VfsM (Except Int Node) := do
  if devname = disk0Name then
    let node ← sfsGetRoot
    return .ok node
  else if devname = stdoutName then
    let _ ← inodeRefInc (.dev .stdout)
    return .ok (.dev .stdout)
  else if devname = stdinName then
    let _ ← inodeRefInc (.dev .stdin)
    return .ok (.dev .stdin)
  else return .error (-E_NO_DEV)

def vfsGetCurdir : VfsM (Except Int Node) := do
  match (← curFiles).pwd with
  | none => return .error (-E_NOENT)
  | some node => do
      let _ ← inodeRefInc node
      return .ok node

def vfsGetBootfs : VfsM (Except Int Node) := do
  match (← get).bootfs with
  | none => return .error (-E_NOENT)
  | some node => do
      let _ ← inodeRefInc node
      return .ok node

def isSlash (c : UInt8) : Bool := c = 47
def isColon (c : UInt8) : Bool := c = 58

/- The root of the file system of the current directory, for a path that starts with a
   colon. -/
def vfsGetCurRoot : VfsM (Except Int Node) := do
  match ← vfsGetCurdir with
  | .error ret => return .error ret
  | .ok node => do
      -- Devices have no `in_fs`.
      let _ ← sfsInfo node
      let root ← sfsGetRoot
      let _ ← inodeRefDec node
      return .ok root

/- `*subpath` beside the inode found. -/
def withSubpath (subpath : Name) (m : VfsM (Except Int Node)) :
    VfsM (Except Int (Node × Name)) := do
  match ← m with
  | .error ret => return .error ret
  | .ok node => return .ok (node, subpath)

/- The inode to start from, and the rest of the path. -/
def getDevice (path : Name) : VfsM (Except Int (Node × Name)) :=
  let front := path.takeWhile fun c => !isColon c && !isSlash c
  match path.drop front.length with
  | [] => withSubpath path vfsGetCurdir
  | c :: rest =>
      let subpath := rest.dropWhile isSlash
      if front ≠ [] then
        if isColon c then withSubpath subpath (vfsGetRoot front)
        else withSubpath path vfsGetCurdir
      else if isSlash c then withSubpath subpath vfsGetBootfs
      else withSubpath subpath vfsGetCurRoot

def vfsLookup (path : Name) : VfsM (Except Int Node) := do
  match ← getDevice path with
  | .error ret => return .error ret
  | .ok (node, subpath) =>
      if subpath ≠ [] then
        let found ← vopLookup node subpath
        let _ ← inodeRefDec node
        return found
      else return .ok node

/- What `get_device` leaves of the path: it ends a device name with a NUL. -/
def pathLeft (path : Name) : Name :=
  let front := path.takeWhile fun c => !isColon c && !isSlash c
  if front ≠ [] ∧ (path.drop front.length).head? = some 58 then front else path

def vfsLookupParent (path : Name) : VfsM (Except Int (Node × Name)) := getDevice path

def vfsSetCurdir (dir : Node) : VfsM Int := do
  let f ← curFiles
  if f.pwd = some dir then return 0
  else
    let (ret, type) ← vopGettype dir
    if ret ≠ 0 then return ret
    else if !S_ISDIR type then return -E_NOTDIR
    else
      let _ ← inodeRefInc dir
      let v ← get
      setFiles v.current { f with pwd := some dir }
      match f.pwd with
      | none => return 0
      | some old => do
          let _ ← inodeRefDec old
          return 0

def vfsChdir (path : Name) : VfsM Int := do
  match ← vfsLookup path with
  | .error ret => return ret
  | .ok node => do
      let ret ← vfsSetCurdir node
      let _ ← inodeRefDec node
      return ret

/- lab8/kern/fs/vfs/vfsfile.c. -/

/-- Whether the access mode lets `vfs_open` write; `none` is a bad mode. -/
def accessMode (openFlags : Nat) : Option (Bool × Bool) :=
  if openFlags &&& O_ACCMODE = O_RDONLY then some (true, false)
  else if openFlags &&& O_ACCMODE = O_WRONLY then some (false, true)
  else if openFlags &&& O_ACCMODE = O_RDWR then some (true, true)
  else none

/- `vfs_open` up to `vop_open`: the inode of the path, found or created. -/
def vfsOpenNode (path : Name) (openFlags : Nat) : VfsM (Except Int Node) := do
  let excl := hasFlag openFlags O_EXCL
  let create := hasFlag openFlags O_CREAT
  match ← vfsLookup path with
  | .error ret =>
      if ret = -16 ∧ create then
        match ← vfsLookupParent (pathLeft path) with
        | .error ret => return .error ret
        | .ok (dir, _) =>
            -- The result of `vop_create` is checked nowhere but by `assert(node != NULL)`.
            match ← vopCreate dir with
            | .error _ => stop .assertion
            | .ok node => return .ok node
      else return .error ret
  | .ok node =>
      if excl ∧ create then return .error (-E_EXISTS)
      else return .ok node

def vfsOpen (path : Name) (openFlags : Nat) : VfsM (Except Int Node) := do
  match accessMode openFlags with
  | none => return .error (-E_INVAL)
  | some (_, canWrite) =>
      if hasFlag openFlags O_TRUNC ∧ !canWrite then return .error (-E_INVAL)
      else
        match ← vfsOpenNode path openFlags with
        | .error ret => return .error ret
        | .ok node => do
            let ret ← vopOpen node openFlags
            if ret ≠ 0 then
              let _ ← inodeRefDec node
              return .error ret
            else
              let _ ← inodeOpenInc node
              if hasFlag openFlags O_TRUNC ∨ hasFlag openFlags O_CREAT then
                let ret ← vopTruncate node 0
                if ret ≠ 0 then
                  let _ ← inodeOpenDec node
                  let _ ← inodeRefDec node
                  return .error ret
                else return .ok node
              else return .ok node

def vfsClose (node : Node) : VfsM Unit := do
  let _ ← inodeOpenDec node
  let _ ← inodeRefDec node

end Ucore
