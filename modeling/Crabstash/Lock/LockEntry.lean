import Crabstash.Common.Key
import Crabstash.Foundations.HashMap
import Crabstash.Lock.LockMode

/-!
# Lock entries

`LockEntry` of `lock_entry.rs`: the holders of one key.  `acquire` and `upgrade` wait in a
loop; one turn of it, under the mutex of the holders, is a function here, and the loop is
in the steps of the lock table.

Nothing reads the wait queue, and a waiter is woken by every release, so that the queue and
the condition variable are left out.
-/

namespace Crabstash

/-- The holders of a key; the queue behind them is a matter of `EntryWakeups`. -/
structure LockEntry where
  holders : HashMap ℕ LockMode
  deriving DecidableEq

namespace LockEntry

/-- `LockEntry::new`. -/
def new : LockEntry := { holders := ∅ }

/-- `is_compatible_with_holders`: what the transaction itself holds is never in the way. -/
def isCompatibleWithHolders (e : LockEntry) (txnId : ℕ) (mode : LockMode) : Bool :=
  e.holders.entries.all fun h => h.1 == txnId || mode.isCompatible h.2

/-- `holders.insert(txn_id, mode)`. -/
def insert (e : LockEntry) (txnId : ℕ) (mode : LockMode) : LockEntry :=
  { holders := e.holders.insert txnId mode }

/-- What is held already is enough, or there is no way from it to the mode. -/
def keeps (e : LockEntry) (txnId : ℕ) (mode : LockMode) : Bool :=
  match e.holders.lookup txnId with
  | some heldMode => heldMode == mode || !heldMode.canUpgradeTo mode
  | none => false

/-- `try_acquire`: whether the lock is granted, and the entry after it. -/
def tryAcquire (e : LockEntry) (txnId : ℕ) (mode : LockMode) : Bool × LockEntry :=
  -- a held mode that cannot be upgraded is taken to be enough
  if e.keeps txnId mode then (true, e)
  else if e.isCompatibleWithHolders txnId mode then (true, e.insert txnId mode)
  else (false, e)

/-- A turn of the loop of `acquire`. -/
def acquireTurn (e : LockEntry) (txnId : ℕ) (mode : LockMode) : Option LockEntry :=
  if e.isCompatibleWithHolders txnId mode then some (e.insert txnId mode) else none

/-- The beginning of `upgrade`: is the mode held already? -/
def checkUpgrade (e : LockEntry) (txnId : ℕ) (targetMode : LockMode) : Except LockError Bool :=
  match e.holders.lookup txnId with
  | none => .error .notHeld
  | some currentMode =>
      if currentMode = targetMode then .ok true
      else if !currentMode.canUpgradeTo targetMode then .error .invalidUpgrade
      else .ok false

/-- A turn of the loop of `upgrade`. -/
def upgradeTurn (e : LockEntry) (txnId : ℕ) (targetMode : LockMode) : Option LockEntry :=
  if e.holders.entries.all fun h => h.1 == txnId || h.2.isCompatible targetMode then
    some (e.insert txnId targetMode)
  else none

/-- `release` without the waking of those that wait. -/
def release (e : LockEntry) (txnId : ℕ) : LockEntry := { holders := e.holders.erase txnId }

/-- `get_holders`, in the order of the map. -/
def getHolders (e : LockEntry) : List (ℕ × LockMode) := e.holders.entries.map fun h => (h.1, h.2)

/-! ## Who holds what -/

/-- `get_mode`. -/
def getMode (e : LockEntry) (txnId : ℕ) : Option LockMode := e.holders.lookup txnId

@[simp] theorem getMode_new (txnId : ℕ) : new.getMode txnId = none := rfl

theorem getMode_insert (e : LockEntry) (txnId txnId' : ℕ) (mode : LockMode) :
    (e.insert txnId mode).getMode txnId' = if txnId' = txnId then some mode else e.getMode txnId' := by
  unfold getMode insert
  split
  · next heq =>
      rw [heq]
      exact AList.lookup_insert _
  · next hne => exact AList.lookup_insert_ne hne

theorem getMode_release (e : LockEntry) (txnId txnId' : ℕ) :
    (e.release txnId).getMode txnId' = if txnId' = txnId then none else e.getMode txnId' := by
  unfold getMode release
  split
  · next heq =>
      rw [heq]
      exact AList.lookup_erase _ _
  · next hne => exact AList.lookup_erase_ne hne

/-- The test on the holders, in terms of the modes. -/
theorem isCompatibleWithHolders_iff {e : LockEntry} {txnId : ℕ} {mode : LockMode} :
    e.isCompatibleWithHolders txnId mode = true ↔
      ∀ txnId' mode', e.getMode txnId' = some mode' →
        txnId' = txnId ∨ mode.isCompatible mode' = true := by
  unfold isCompatibleWithHolders getMode
  rw [List.all_eq_true]
  constructor
  · intro h txnId' mode' hheld
    have := h ⟨txnId', mode'⟩ (AList.mem_lookup_iff.mp hheld)
    simpa using this
  · rintro h ⟨txnId', mode'⟩ hmem
    have := h txnId' mode' (AList.mem_lookup_iff.mpr hmem)
    simpa using this

theorem tryAcquire_cases (e : LockEntry) (txnId : ℕ) (mode : LockMode) :
    (e.keeps txnId mode = true ∧ e.tryAcquire txnId mode = (true, e)) ∨
    (e.keeps txnId mode = false ∧ e.isCompatibleWithHolders txnId mode = true ∧
      e.tryAcquire txnId mode = (true, e.insert txnId mode)) ∨
    (e.keeps txnId mode = false ∧ e.isCompatibleWithHolders txnId mode = false ∧
      e.tryAcquire txnId mode = (false, e)) := by
  unfold tryAcquire
  cases hkeeps : e.keeps txnId mode with
  | true => simp
  | false =>
      cases hcompatible : e.isCompatibleWithHolders txnId mode with
      | true => simp
      | false => simp

/-- The test of an upgrade is the same. -/
theorem upgradeTurn_eq (e : LockEntry) (txnId : ℕ) (mode : LockMode) :
    e.upgradeTurn txnId mode = e.acquireTurn txnId mode := by
  unfold upgradeTurn acquireTurn isCompatibleWithHolders
  simp only [LockMode.isCompatible_comm mode]

end LockEntry
end Crabstash
