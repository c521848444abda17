import Ucore.Fs.Vfs.Vfs

/- lab8/kern/fs/devs: the devices that have a name of their own, `stdin` and `stdout`. -/
namespace Ucore
open Programs

/-- `dop_open`. -/
def dopOpen (d : Device) (openFlags : Nat) : Int :=
  match d with
  | .stdin => if openFlags ≠ O_RDONLY then -E_INVAL else 0
  | .stdout => if openFlags ≠ O_WRONLY then -E_INVAL else 0

def devOpen (node : Node) (openFlags : Nat) : VfsM Int := do
  if hasFlag openFlags (O_CREAT ||| O_TRUNC ||| O_EXCL ||| O_APPEND) then return -E_INVAL
  else
    let d ← devInfo node
    return dopOpen d openFlags

/- `dev_stdin_read`, for a reader that is not woken before it has what is typed. -/
def devStdinRead (len : Nat) : VfsM (List UInt8) := do
  let v ← get
  set { v with keyboard := v.keyboard.drop len }
  return v.keyboard.take len

/- The returned code, how far the buffer has been used, and the buffer. -/
def devIo (node : Node) (buf : DiskBlock) (len : Nat) (write : Bool) :
    VfsM (Int × Nat × DiskBlock) := do
  match ← devInfo node, write with
  | .stdin, false => do
      let typed ← devStdinRead len
      return (typed.length, typed.length, overlay buf (fun i => typed.getD i 0) typed.length 0)
  | .stdout, true => return (0, len, buf)
  | _, _ => return (-E_INVAL, 0, buf)

/- Both devices have no blocks. -/
def devFstat (mode : Nat) : Stat := ⟨mode, 1, 0, 0⟩

def devTryseek : Int := -E_INVAL

end Ucore
