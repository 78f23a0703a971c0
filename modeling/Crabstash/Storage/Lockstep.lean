import Mathlib.Data.List.Forall2
import Crabstash.Storage.Iterator

/-!
# Iterators in step

Two kinds of iterators may differ in where they get their entries from and still go
through the same items.  `Lockstep R` says that iterators related by `R` stand on the same
item and stay related when both move on, which neither fails to do.

The merges only look at keys and at what is valid, so they carry a lockstep of the
iterators inside them to one of the merges.  The heap of a `MergeIterator` is compared
entry by entry; `popMax` takes corresponding entries out of corresponding heaps.
-/

namespace Crabstash

open StorageIterator

/-- Iterators related by `R` stand on the same item, and move on without an error to
iterators that are related again. -/
structure Lockstep {ι κ : Type} [StorageIterator ι] [StorageIterator κ] (R : ι → κ → Prop) :
    Prop where
  key_eq : ∀ {a b}, R a b → key a = key b
  value_eq : ∀ {a b}, R a b → value a = value b
  isValid_eq : ∀ {a b}, R a b → isValid a = isValid b
  remaining_eq : ∀ {a b}, R a b → remaining a = remaining b
  next_eq : ∀ {a b}, R a b → ∃ a' b', next a = (.ok (), a') ∧ next b = (.ok (), b') ∧ R a' b'

theorem PriorityQueue.popMax_related {α β : Type} {R : α → β → Prop} {lt : α → α → Bool}
    {lt' : β → β → Bool} (hlt : ∀ a b a' b', R a b → R a' b' → lt a a' = lt' b b')
    {heap : List α} {heap' : List β} (hheap : List.Forall₂ R heap heap') :
    Option.Rel (fun p q => R p.1 q.1 ∧ List.Forall₂ R p.2 q.2) (popMax lt heap)
      (popMax lt' heap') := by
  induction hheap with
  | nil => exact Option.Rel.none
  | @cons a b rest rest' hab hrest ih =>
      rw [popMax, popMax]
      cases hpop : popMax lt rest with
      | none =>
          rw [hpop] at ih
          cases hpop' : popMax lt' rest' with
          | none => exact Option.Rel.some ⟨hab, List.Forall₂.nil⟩
          | some q =>
              rw [hpop'] at ih
              cases ih
      | some p =>
          rw [hpop] at ih
          cases hpop' : popMax lt' rest' with
          | none =>
              rw [hpop'] at ih
              cases ih
          | some q =>
              rw [hpop'] at ih
              obtain ⟨hgreatest, hothers⟩ : R p.1 q.1 ∧ List.Forall₂ R p.2 q.2 := by
                cases ih with
                | some h => exact h
              simp only [hlt _ _ _ _ hab hgreatest]
              split
              · exact Option.Rel.some ⟨hgreatest, List.Forall₂.cons hab hothers⟩
              · exact Option.Rel.some ⟨hab, List.Forall₂.cons hgreatest hothers⟩

section

variable {ι κ : Type} [StorageIterator ι] [StorageIterator κ] {R : ι → κ → Prop}

/-- Entries of two heaps with related iterators. -/
def HeapEntry.Related (R : ι → κ → Prop) (e : HeapEntry ι) (e' : HeapEntry κ) : Prop :=
  R e.iter e'.iter ∧ e.index = e'.index

namespace MergeIterator

/-- Merges of related iterators. -/
structure Related (R : ι → κ → Prop) (it : MergeIterator ι) (it' : MergeIterator κ) : Prop where
  heap : List.Forall₂ (HeapEntry.Related R) it.heap it'.heap
  current : Option.Rel (HeapEntry.Related R) it.current it'.current

/-- The iterators that the merge still goes through. -/
def members (it : MergeIterator ι) : List ι :=
  it.heap.map HeapEntry.iter ++ it.current.toList.map HeapEntry.iter

omit [StorageIterator ι] [StorageIterator κ] in
/-- What holds of the related pairs whose left side is in the merge. -/
theorem Related.imp {Q : ι → κ → Prop} {it : MergeIterator ι} {it' : MergeIterator κ}
    (h : Related R it it') (himp : ∀ a ∈ it.members, ∀ b, R a b → Q a b) : Related Q it it' := by
  obtain ⟨heap, current⟩ := it
  obtain ⟨heap', current'⟩ := it'
  obtain ⟨hheap, hcurrent⟩ := h
  constructor
  · rw [List.forall₂_iff_get] at hheap ⊢
    refine ⟨hheap.1, ?_⟩
    intro i hi hi'
    obtain ⟨hrelated, hindex⟩ := hheap.2 i hi hi'
    refine ⟨himp _ ?_ _ hrelated, hindex⟩
    exact List.mem_append_left _ (List.mem_map_of_mem (List.get_mem ..))
  · cases hcurrent with
    | none => exact Option.Rel.none
    | some hentry =>
        refine Option.Rel.some ⟨himp _ ?_ _ hentry.1, hentry.2⟩
        exact List.mem_append_right _ (List.mem_map_of_mem (List.mem_singleton_self _))

omit [StorageIterator ι] [StorageIterator κ] in
theorem Related.exists_of_mem {it : MergeIterator ι} {it' : MergeIterator κ}
    (h : Related R it it') {a : ι} (ha : a ∈ it.members) : ∃ b, R a b := by
  by_contra hnone
  push Not at hnone
  -- otherwise the merges would be related by a relation that `a` is not in
  have hnot : Related (fun a' _ => a' ≠ a) it it' := by
    apply h.imp
    rintro a' _ b hab rfl
    exact hnone b hab
  rcases List.mem_append.mp ha with ha | ha
  · obtain ⟨e, he, rfl⟩ := List.mem_map.mp ha
    obtain ⟨i, hi, rfl⟩ := List.getElem_of_mem he
    have hlength := hnot.heap.length_eq
    exact (hnot.heap.get hi (hlength ▸ hi)).1 rfl
  · obtain ⟨heap, current⟩ := it
    obtain ⟨heap', current'⟩ := it'
    obtain ⟨_, hcurrent⟩ := hnot
    cases hcurrent with
    | none => exact absurd ha List.not_mem_nil
    | some hentry =>
        obtain ⟨e, he, rfl⟩ := List.mem_map.mp ha
        rw [Option.mem_toList, Option.some.injEq] at he
        exact hentry.1 (congrArg HeapEntry.iter he)

theorem lt_eq (h : Lockstep R) {e f : HeapEntry ι} {e' f' : HeapEntry κ}
    (he : HeapEntry.Related R e e') (hf : HeapEntry.Related R f f') : e.lt f = e'.lt f' := by
  unfold HeapEntry.lt HeapEntry.cmp
  rw [h.key_eq he.1, h.key_eq hf.1, he.2, hf.2]

theorem related_popCurrent (h : Lockstep R) {heap : List (HeapEntry ι)}
    {heap' : List (HeapEntry κ)} (hheap : List.Forall₂ (HeapEntry.Related R) heap heap') :
    Related R (popCurrent heap) (popCurrent heap') := by
  have hpop := PriorityQueue.popMax_related (R := HeapEntry.Related R)
    (fun _ _ _ _ => lt_eq h) hheap
  unfold popCurrent
  generalize PriorityQueue.popMax HeapEntry.lt heap = p at hpop
  generalize PriorityQueue.popMax HeapEntry.lt heap' = q at hpop
  cases hpop with
  | none => exact ⟨List.Forall₂.nil, Option.Rel.none⟩
  | some hboth => exact ⟨hboth.2, Option.Rel.some hboth.1⟩

theorem related_new (h : Lockstep R) {iters : List ι} {iters' : List κ}
    (hiters : List.Forall₂ R iters iters') : Related R (new iters) (new iters') := by
  have hall : ∀ n, List.Forall₂ (HeapEntry.Related R)
      (((iters.zipIdx n).map fun e => ⟨e.1, e.2⟩).filter
        fun e : HeapEntry ι => isValid e.iter)
      (((iters'.zipIdx n).map fun e => ⟨e.1, e.2⟩).filter
        fun e : HeapEntry κ => isValid e.iter) := by
    induction hiters with
    | nil =>
        intro n
        exact List.Forall₂.nil
    | @cons a b rest rest' hab hrest ih =>
        intro n
        simp only [List.zipIdx_cons, List.map_cons, List.filter_cons, h.isValid_eq hab]
        split
        · exact List.Forall₂.cons ⟨hab, rfl⟩ (ih (n + 1))
        · exact ih (n + 1)
  exact related_popCurrent h (hall 0)

theorem heapRemaining_eq (h : Lockstep R) {heap : List (HeapEntry ι)} {heap' : List (HeapEntry κ)}
    (hheap : List.Forall₂ (HeapEntry.Related R) heap heap') :
    heapRemaining heap = heapRemaining heap' := by
  unfold heapRemaining
  induction hheap with
  | nil => rfl
  | cons hentry _ ih => rw [List.map_cons, List.map_cons, List.sum_cons, List.sum_cons, ih,
      h.remaining_eq hentry.1]

theorem related_pushValid (h : Lockstep R) {heap : List (HeapEntry ι)} {heap' : List (HeapEntry κ)}
    (hheap : List.Forall₂ (HeapEntry.Related R) heap heap') {e : HeapEntry ι} {e' : HeapEntry κ}
    (hentry : HeapEntry.Related R e e') :
    List.Forall₂ (HeapEntry.Related R) (pushValid heap e) (pushValid heap' e') := by
  unfold pushValid
  rw [h.isValid_eq hentry.1]
  split
  · exact List.Forall₂.cons hentry hheap
  · exact hheap

theorem related_skipDuplicates (h : Lockstep R) (data : Bytes) (fuel : ℕ)
    {heap : List (HeapEntry ι)} {heap' : List (HeapEntry κ)}
    (hheap : List.Forall₂ (HeapEntry.Related R) heap heap') :
    ∃ rest rest', skipDuplicates data fuel heap = (.ok (), rest) ∧
      skipDuplicates data fuel heap' = (.ok (), rest') ∧
      List.Forall₂ (HeapEntry.Related R) rest rest' := by
  induction fuel generalizing heap heap' with
  | zero => exact ⟨heap, heap', rfl, rfl, hheap⟩
  | succ fuel ih =>
      have hpop := PriorityQueue.popMax_related (R := HeapEntry.Related R)
        (fun _ _ _ _ => lt_eq h) hheap
      rw [skipDuplicates, skipDuplicates]
      generalize PriorityQueue.popMax HeapEntry.lt heap = p at hpop
      generalize PriorityQueue.popMax HeapEntry.lt heap' = q at hpop
      cases hpop with
      | none => exact ⟨heap, heap', rfl, rfl, hheap⟩
      | @some p q hboth =>
          obtain ⟨htop, hothers⟩ := hboth
          simp only [h.key_eq htop.1]
          by_cases hdata : (key q.1.iter).data ≠ data
          · rw [if_pos hdata, if_pos hdata]
            exact ⟨heap, heap', rfl, rfl, hheap⟩
          · rw [if_neg hdata, if_neg hdata]
            obtain ⟨a, b, hnext, hnext', hab⟩ := h.next_eq htop.1
            rw [hnext, hnext']
            exact ih (related_pushValid h hothers ⟨hab, htop.2⟩)

theorem lockstep (h : Lockstep R) : Lockstep (Related R) where
  key_eq := by
    rintro ⟨heap, current⟩ ⟨heap', current'⟩ ⟨_, hcurrent⟩
    show (current.map fun e => key e.iter).getD _ = (current'.map fun e => key e.iter).getD _
    cases hcurrent with
    | none => rfl
    | some hentry => exact h.key_eq hentry.1
  value_eq := by
    rintro ⟨heap, current⟩ ⟨heap', current'⟩ ⟨_, hcurrent⟩
    show (current.bind fun e => value e.iter) = current'.bind fun e => value e.iter
    cases hcurrent with
    | none => rfl
    | some hentry => exact h.value_eq hentry.1
  isValid_eq := by
    rintro ⟨heap, current⟩ ⟨heap', current'⟩ ⟨_, hcurrent⟩
    show current.isSome = current'.isSome
    cases hcurrent with
    | none => rfl
    | some _ => rfl
  remaining_eq := by
    rintro ⟨heap, current⟩ ⟨heap', current'⟩ ⟨hheap, hcurrent⟩
    show heapRemaining heap + (current.map fun e => remaining e.iter).getD 0 =
      heapRemaining heap' + (current'.map fun e => remaining e.iter).getD 0
    rw [heapRemaining_eq h hheap]
    cases hcurrent with
    | none => rfl
    | some hentry =>
        rw [Option.map_some, Option.map_some, h.remaining_eq hentry.1]
  next_eq := by
    rintro ⟨heap, current⟩ ⟨heap', current'⟩ ⟨hheap, hcurrent⟩
    show ∃ a b, advance _ = (.ok (), a) ∧ advance _ = (.ok (), b) ∧ Related R a b
    unfold advance
    cases hcurrent with
    | none => exact ⟨_, _, rfl, rfl, hheap, Option.Rel.none⟩
    | @some e e' hentry =>
        obtain ⟨a, b, hnext, hnext', hab⟩ := h.next_eq hentry.1
        have hmoved : HeapEntry.Related R { e with iter := a } { e' with iter := b } :=
          ⟨hab, hentry.2⟩
        have hpushed := related_pushValid h hheap hmoved
        -- the bounds of the two loops are the same, as are the heaps
        obtain ⟨rest, rest', hskip, hskip', hrest⟩ :=
          related_skipDuplicates h (key e'.iter).data
            (heapRemaining (pushValid heap' { e' with iter := b })) hpushed
        refine ⟨popCurrent rest, popCurrent rest', ?_, ?_, related_popCurrent h hrest⟩
        · simp only [hnext, h.key_eq hentry.1, heapRemaining_eq h hpushed, hskip]
        · simp only [hnext', hskip']

end MergeIterator

namespace BoundedIterator

/-- The same cut of related iterators. -/
structure Related (R : ι → κ → Prop) (it : BoundedIterator ι) (it' : BoundedIterator κ) :
    Prop where
  inner : R it.inner it'.inner
  endBound : it.endBound = it'.endBound
  valid : it.valid = it'.valid

theorem related_checkBound (h : Lockstep R) {it : BoundedIterator ι} {it' : BoundedIterator κ}
    (hit : Related R it it') : Related R it.checkBound it'.checkBound := by
  unfold checkBound
  rw [h.isValid_eq hit.inner, h.key_eq hit.inner]
  split
  · exact ⟨hit.inner, hit.endBound, rfl⟩
  · refine ⟨hit.inner, hit.endBound, ?_⟩
    simp only [hit.endBound]

theorem related_new (h : Lockstep R) {inner : ι} {inner' : κ} (hinner : R inner inner')
    (endBound : Bound) : Related R (new inner endBound) (new inner' endBound) :=
  related_checkBound h ⟨hinner, rfl, rfl⟩

theorem lockstep (h : Lockstep R) : Lockstep (Related R) where
  key_eq := fun hit => h.key_eq hit.inner
  value_eq := fun hit => h.value_eq hit.inner
  isValid_eq := by
    intro it it' hit
    show (it.valid && isValid it.inner) = (it'.valid && isValid it'.inner)
    rw [hit.valid, h.isValid_eq hit.inner]
  remaining_eq := fun hit => h.remaining_eq hit.inner
  next_eq := by
    intro it it' hit
    obtain ⟨a, b, hnext, hnext', hab⟩ := h.next_eq hit.inner
    refine ⟨({ it with inner := a } : BoundedIterator ι).checkBound,
      ({ it' with inner := b } : BoundedIterator κ).checkBound, ?_, ?_, ?_⟩
    · simp only [next] at hnext ⊢
      rw [hnext]
    · simp only [next] at hnext' ⊢
      rw [hnext']
    · exact related_checkBound h ⟨hab, hit.endBound, hit.valid⟩

end BoundedIterator
end

namespace TwoMergeIterator

variable {α β α' β' : Type} [StorageIterator α] [StorageIterator β] [StorageIterator α']
  [StorageIterator β'] {R : α → α' → Prop} {Q : β → β' → Prop}

/-- Both halves are related, and the same one has the current item. -/
structure Related (R : α → α' → Prop) (Q : β → β' → Prop) (it : TwoMergeIterator α β)
    (it' : TwoMergeIterator α' β') : Prop where
  a : R it.a it'.a
  b : Q it.b it'.b
  useA : it.useA = it'.useA

theorem related_new (hR : Lockstep R) (hQ : Lockstep Q) {a : α} {a' : α'} {b : β} {b' : β'}
    (ha : R a a') (hb : Q b b') : Related R Q (new a b) (new a' b') := by
  refine ⟨ha, hb, ?_⟩
  show chooseA a b = chooseA a' b'
  unfold chooseA
  rw [hR.isValid_eq ha, hQ.isValid_eq hb, hR.key_eq ha, hQ.key_eq hb]

theorem lockstep (hR : Lockstep R) (hQ : Lockstep Q) : Lockstep (Related R Q) where
  key_eq := by
    intro it it' hit
    show (if it.useA then key it.a else key it.b) = if it'.useA then key it'.a else key it'.b
    rw [hR.key_eq hit.a, hQ.key_eq hit.b, hit.useA]
  value_eq := by
    intro it it' hit
    show (if it.useA then value it.a else value it.b) =
      if it'.useA then value it'.a else value it'.b
    rw [hR.value_eq hit.a, hQ.value_eq hit.b, hit.useA]
  isValid_eq := by
    intro it it' hit
    show (isValid it.a || isValid it.b) = (isValid it'.a || isValid it'.b)
    rw [hR.isValid_eq hit.a, hQ.isValid_eq hit.b]
  remaining_eq := by
    intro it it' hit
    show remaining it.a + remaining it.b = remaining it'.a + remaining it'.b
    rw [hR.remaining_eq hit.a, hQ.remaining_eq hit.b]
  next_eq := by
    intro it it' hit
    show ∃ x y, advance it = (.ok (), x) ∧ advance it' = (.ok (), y) ∧ Related R Q x y
    unfold advance
    obtain ⟨x, x', hnextA, hnextA', hx⟩ := hR.next_eq hit.a
    obtain ⟨y, y', hnextB, hnextB', hy⟩ := hQ.next_eq hit.b
    rw [hit.useA, hQ.isValid_eq hit.b, hR.key_eq hit.a, hQ.key_eq hit.b]
    -- which of the two is used, and whether both move, is decided alike
    by_cases huse : it'.useA = true
    · rw [if_pos huse, if_pos huse]
      by_cases hsame : (isValid it'.b && (key it'.a).data == (key it'.b).data) = true
      · simp only [if_pos hsame, hnextA, hnextA', hnextB, hnextB']
        exact ⟨_, _, rfl, rfl, related_new hR hQ hx hy⟩
      · simp only [if_neg hsame, hnextA, hnextA']
        exact ⟨_, _, rfl, rfl, related_new hR hQ hx hit.b⟩
    · rw [if_neg huse, if_neg huse, hnextB, hnextB']
      exact ⟨_, _, rfl, rfl, related_new hR hQ hit.a hy⟩

end TwoMergeIterator

/-- Iterators that never fail are in step with themselves. -/
theorem Lockstep.refl {ι : Type} [StorageIterator ι]
    (hnext : ∀ it : ι, ∃ it', next it = (.ok (), it')) : Lockstep (Eq : ι → ι → Prop) where
  key_eq := fun heq => congrArg key heq
  value_eq := fun heq => congrArg value heq
  isValid_eq := fun heq => congrArg isValid heq
  remaining_eq := fun heq => congrArg remaining heq
  next_eq := by
    intro a b heq
    subst heq
    obtain ⟨it', hit'⟩ := hnext a
    exact ⟨it', it', hit', hit', rfl⟩

end Crabstash
