import Mathlib.Data.List.Basic
import Mathlib.Order.Lattice

/-!
# Priority queues

`BinaryHeap` of the Rust standard library, as far as it is documented: elements
go in in any order and a greatest one comes out.  The queue is the list of its
elements, in no particular order, and `popMax` takes a greatest one out of it.
The order is given by a test `lt`; that it is one is the assumption that `lt`
compares ranks in some linear order.
-/

namespace Crabstash.PriorityQueue

variable {α : Type*}

/-- A greatest element, and the others. -/
def popMax (lt : α → α → Bool) : List α → Option (α × List α)
  | [] => none
  | a :: rest =>
      match popMax lt rest with
      | none => some (a, [])
      | some (greatest, others) =>
          if lt a greatest then some (greatest, a :: others) else some (a, greatest :: others)

theorem popMax_eq_none {lt : α → α → Bool} {heap : List α} (h : popMax lt heap = none) :
    heap = [] := by
  cases heap with
  | nil => rfl
  | cons a rest =>
      rw [popMax] at h
      split at h
      · contradiction
      · split at h <;> contradiction

variable {β : Type*} [LinearOrder β] {lt : α → α → Bool} {rank : α → β}

theorem popMax_eq_some (hlt : ∀ a b, lt a b = true ↔ rank a < rank b) {heap others : List α}
    {greatest : α} (h : popMax lt heap = some (greatest, others)) :
    heap.Perm (greatest :: others) ∧ ∀ a ∈ others, rank a ≤ rank greatest := by
  induction heap generalizing greatest others with
  | nil => contradiction
  | cons a rest ih =>
      rw [popMax] at h
      split at h
      · next hnone =>
          obtain ⟨rfl, rfl⟩ := Prod.mk.inj (Option.some.inj h)
          rw [popMax_eq_none hnone]
          exact ⟨List.Perm.refl _, fun _ h => absurd h List.not_mem_nil⟩
      · next top tail hsome =>
          obtain ⟨hperm, hle⟩ := ih hsome
          split at h
          · next hlow =>
              obtain ⟨rfl, rfl⟩ := Prod.mk.inj (Option.some.inj h)
              refine ⟨(hperm.cons a).trans (List.Perm.swap ..), ?_⟩
              intro b hb
              rcases List.mem_cons.mp hb with rfl | hb
              · exact ((hlt _ _).mp hlow).le
              · exact hle b hb
          · next hhigh =>
              obtain ⟨rfl, rfl⟩ := Prod.mk.inj (Option.some.inj h)
              have htop : rank top ≤ rank a := not_lt.mp fun h => hhigh ((hlt _ _).mpr h)
              refine ⟨hperm.cons a, ?_⟩
              intro b hb
              rcases List.mem_cons.mp hb with rfl | hb
              · exact htop
              · exact (hle b hb).trans htop

end Crabstash.PriorityQueue
