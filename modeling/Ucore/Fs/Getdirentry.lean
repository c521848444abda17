import Ucore.Fs.SysfileReads
import Ucore.Fs.Vfs.PathLookup

/- The entries of an open directory, as `file_getdirentry` gives them one after another. -/
namespace Ucore
open Programs Words

/- One allocation later. -/
def Vfs.allocated (v : Vfs) (n : Nat) : Vfs := { v with memory := fun i => v.memory (i + n) }

section
variable {v : Vfs} {D : Set Nat} {s : Sfs} {k slot count first : Nat} {fd offset : Int} {r : FileRef} {file : File}

/- The answer with the offset that it leaves. -/
def moved (offset : Int) (answer : Int × Nat × Name) : Int × Int × Name :=
  (answer.1, if answer.1 = 0 then offset + answer.2.1 else offset, answer.2.2)

end

end Ucore
