import Ucore.Fs.SysfileRuns
import Ucore.Mm.ExecSteps

/- `load_icode_read` of lab8/kern/process/proc.c with the system calls of a process on the volume: each of its answers
   is one that the loader gets from the list of bytes that the file is. -/
namespace Ucore.Exec.Volume
open Programs SysfileRuns Transitions

/- `buf` is what is in the memory that it reads into. -/
def loadIcodeRead (fd : Int) (len : Nat) (offset : Int) (user : Nat → Bool) (buf : DiskBlock) : VfsM (Int × DiskBlock) := do
  let ret ← sysfileSeek fd offset LSEEK_SET
  if ret ≠ 0 then return (ret, buf)
  else
    let (ret, buf) ← sysfileRead fd len user buf
    if ret ≠ len then return (if ret < 0 then ret else -1, buf)
    else return (0, buf)

section
variable {v w : Vfs} {F : Set Nat} {of : Int → Option Nat} {fd ret : Int} {k offset len : Nat} {user : Nat → Bool}
  {buf out : DiskBlock} {file : Binary} {s t : Sfs}

end

section
variable {v w : Vfs} {F : Set Nat} {of : Int → Option Nat} {fd : Int} {k : Nat} {file : Binary} {c : Read} {calls : List Read}

end

/- A byte is written to a file of one byte, and `load_icode_read` reads it, and another behind it. -/
def loadOutcome : Option (Int × Int × Int) :=
  (sysfileWrite 0 1 (fun _ => true) (fun _ => 7) editor).toOption.bind fun a =>
    (loadIcodeRead 0 1 (0 : Nat) (fun _ => true) (fun _ => 0) a.2).toOption.bind fun b =>
      (loadIcodeRead 0 1 (1 : Nat) (fun _ => true) (fun _ => 0) b.2).toOption.map fun c => (a.1, b.1.1, c.1.1)

theorem load_outcome : loadOutcome = some (1, 0, -1) := by decide +kernel

end Ucore.Exec.Volume
