import Mathlib.Logic.Relation
import Mathlib.Order.WithBot

/-!
# Serialization graphs

The dependencies between committed transactions over versioned data.  A
transaction commits at a time, writes keys, and has read versions of keys; a
version is named by the commit time of its writer, and `⊥` is the initial one.
The versions of a key are ordered by commit time.

One transaction depends on another that it reads from (`WR`), that wrote an
earlier version of a key it writes (`WW`), or that read a version it overwrites
(`RW`).  Where every dependency goes forward in commit time, there are no cycles
and the commit order is a serial order (`acyclic`).  Two of the three kinds do so
by what they are, so it is the third that has to be shown.
-/

namespace Crabstash

/-- The committed transactions of an execution. -/
structure History (τ κ ν : Type*) where
  Committed : τ → Prop
  commitTs : τ → ν
  /-- The transaction has read this version of the key. -/
  Reads : τ → κ → WithBot ν → Prop
  Writes : τ → κ → Prop

namespace History

variable {τ κ ν : Type*} [LinearOrder ν] (h : History τ κ ν)

/-- The second transaction reads a version that the first wrote. -/
def WR (a b : τ) : Prop :=
  h.Committed a ∧ h.Committed b ∧ ∃ key, h.Writes a key ∧ h.Reads b key (h.commitTs a)

/-- The second transaction overwrites a version that the first wrote. -/
def WW (a b : τ) : Prop :=
  h.Committed a ∧ h.Committed b ∧ ∃ key, h.Writes a key ∧ h.Writes b key ∧
    h.commitTs a < h.commitTs b

/-- The second transaction overwrites a version that the first read. -/
def RW (a b : τ) : Prop :=
  h.Committed a ∧ h.Committed b ∧ a ≠ b ∧ ∃ key version, h.Reads a key version ∧
    h.Writes b key ∧ version < h.commitTs b

/-- The edges of the serialization graph. -/
def Depends (a b : τ) : Prop := h.WR a b ∨ h.WW a b ∨ h.RW a b

/-- There is a way around in the serialization graph. -/
def Cyclic : Prop := ∃ a, Relation.TransGen h.Depends a a

variable {h}

/-- Where transactions read only what was committed before they commit, and what
overwrites a version they read commits after them, there is no cycle. -/
theorem acyclic (hreads : ∀ a key (version : ν), h.Committed a → h.Reads a key version →
      version < h.commitTs a)
    (hoverwrites : ∀ a b, h.RW a b → h.commitTs a < h.commitTs b) : ¬ h.Cyclic := by
  have hforward : ∀ a b, h.Depends a b → h.commitTs a < h.commitTs b := by
    rintro a b (⟨_, hb, key, _, hread⟩ | ⟨_, _, _, _, _, hlt⟩ | hrw)
    · exact hreads b key _ hb hread
    · exact hlt
    · exact hoverwrites a b hrw
  rintro ⟨a, hcycle⟩
  have hlift : Relation.TransGen (· < ·) (h.commitTs a) (h.commitTs a) :=
    hcycle.lift h.commitTs hforward
  rw [Relation.transGen_eq_self] at hlift
  exact lt_irrefl _ hlift

end History
end Crabstash
