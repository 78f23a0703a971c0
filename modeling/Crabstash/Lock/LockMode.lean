import Mathlib.Data.Nat.Notation

/-!
# Lock modes

`LockMode` of `lock_mode.rs` with its compatibility matrix and upgrade paths, and
`LockError`.
-/

namespace Crabstash

/-- The modes: shared, exclusive, and the three intention modes. -/
inductive LockMode where
  | s
  | x
  | is
  | ix
  | six
  deriving DecidableEq, Repr

namespace LockMode

/-- `is_compatible`. -/
def isCompatible : LockMode → LockMode → Bool
  | is, is => true
  | is, ix => true
  | is, s => true
  | is, six => true
  | ix, is => true
  | ix, ix => true
  | s, is => true
  | s, s => true
  | six, is => true
  | _, _ => false

/-- `can_upgrade_to`. -/
def canUpgradeTo : LockMode → LockMode → Bool
  | s, x => true
  | s, six => true
  | is, ix => true
  | is, s => true
  | is, x => true
  | is, six => true
  | ix, x => true
  | ix, six => true
  | _, _ => false

theorem isCompatible_comm (mode mode' : LockMode) :
    mode.isCompatible mode' = mode'.isCompatible mode := by
  cases mode <;> cases mode' <;> rfl

end LockMode

/-- `LockError`. -/
inductive LockError where
  | timeout
  | deadlock
  | transactionAborted
  | lockEscalationFailed
  | rangeConflict
  | rangeLocksDisabled
  | notHeld
  | invalidUpgrade
  deriving DecidableEq, Repr

end Crabstash
