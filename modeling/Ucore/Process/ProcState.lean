/- The states of a process in lab8/kern/process/proc.h, and what it waits for. -/
namespace Ucore.Process

inductive ProcState where
  | uninit
  | sleeping
  | runnable
  | zombie
  deriving DecidableEq

/-- The values of `wait_state` that the kernel sets. -/
inductive WaitState where
  | none
  | child
  | ksem
  | timer
  | kbd
  deriving DecidableEq

/- The bit `WT_INTERRUPTED`. -/
def WaitState.interrupted : WaitState → Bool
  | .none => false
  | .ksem => false
  | .child => true
  | .timer => true
  | .kbd => true

end Ucore.Process
