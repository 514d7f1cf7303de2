import Mathlib
namespace RiscvKernel.SleepLock

/-- struct lock without its condition: the thread holding the lock or -1. -/
structure Lock where
  tid : Int
  deriving DecidableEq, Repr

def lockInit : Lock := ⟨-1⟩

/-- lock_acquire as long as nobody else runs: none when the caller would go to
sleep in condition_wait. -/
def lockAcquire (lk : Lock) (self : Nat) : Option Lock :=
  if lk.tid = -1 then some ⟨self⟩ else none

theorem lockAcquire_lockInit (self : Nat) : lockAcquire lockInit self = some ⟨self⟩ := rfl

def lockRelease (_ : Lock) : Lock := ⟨-1⟩

end RiscvKernel.SleepLock
