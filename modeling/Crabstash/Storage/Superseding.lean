import Crabstash.Storage.SnapshotStability

/-!
# Writes after a reopening

`Lsm::open` replays the recorded logs with the timestamps they have, and starts the
counter at 1 again.  A new write of a key therefore supersedes what was recovered only
if the counter has, by the number of writes made since, caught up with the recovered
versions of that key; until then a read that is late enough still finds the recovered
version, and before the first write `Lsm::get`, which reads at 1, does not even see it.

`SupersedingStep` is the condition on one operation, for one key, and `superseded_run`
is what follows for a whole session over any directory.  `get_superseded_ne` is a
session in which three writes bring an overwritten value back.
-/

namespace Crabstash

open Run

/-- What the last of some writes of `key` stores, after earlier ones. -/
def Op.effectOn (key : Bytes) (earlier : Option (Option Bytes)) (op : Op) :
    Option (Option Bytes) :=
  op.operations.foldl (fun last op => if op.key = key then some op.effect else last) earlier

/-- What the last operation on `key` stores; none if there is no operation on it. -/
def lastEffect (key : Bytes) (ops : List Op) : Option (Option Bytes) :=
  run (Op.effectOn key) none ops

namespace Lsm

/-- No version of `key` in the memtable is newer than its first write in the operation,
and if the memtable is rotated, its flush is safe for the key. -/
structure SupersedingStep (key : Bytes) (s : Lsm) (op : Op) : Prop where
  newer : ∀ i ∈ firstWriteOf key op.operations, ∀ e ∈ s.memtable.iter,
    e.1.data = key → e.1.timestamp ≤ s.nextTs + i
  flush : s.Rotates op → (s.logged op).FlushSafe key

instance (key : Bytes) (s : Lsm) (op : Op) : Decidable (SupersedingStep key s op) :=
  decidable_of_iff ((∀ i ∈ firstWriteOf key op.operations, ∀ e ∈ s.memtable.iter,
      e.1.data = key → e.1.timestamp ≤ s.nextTs + i) ∧
    (s.Rotates op → (s.logged op).FlushSafe key))
    ⟨fun h => ⟨h.1, h.2⟩, fun h => ⟨h.1, h.2⟩⟩

/-- The newest value of `key` is the effect of the last operation on it, and no version of
the key is as new as the counter.  Nothing is said of a key that has not been written. -/
structure Superseded (key : Bytes) (s : Lsm) (last : Option (Option Bytes)) : Prop where
  immutableMemtables : s.immutableMemtables = []
  newest : ∀ effect, last = some effect → s.newest key = effect
  below : last ≠ none → ∀ e ∈ s.memtable.iter, e.1.data = key → e.1.timestamp < s.nextTs

/-- One write of a list, at a timestamp that the counter has passed. -/
private structure Writing (key : Bytes) (ts : ℕ) (s : Lsm) (last : Option (Option Bytes)) :
    Prop where
  newest : ∀ effect, last = some effect → s.newest key = effect
  below : last ≠ none → ∀ e ∈ s.memtable.iter, e.1.data = key → e.1.timestamp < ts

private theorem Writing.write {key : Bytes} {ts : ℕ} {s : Lsm} {last : Option (Option Bytes)}
    (h : Writing key ts s last) (op : BatchOperation)
    (hnewer : op.key = key → ∀ e ∈ s.memtable.iter, e.1.data = key → e.1.timestamp ≤ ts) :
    Writing key (ts + 1) (s.write op.key op.effect ts)
      (if op.key = key then some op.effect else last) := by
  by_cases hkey : op.key = key
  · subst hkey
    rw [if_pos rfl]
    refine ⟨?_, ?_⟩
    · intro effect heffect
      rw [newest_write_self (hnewer rfl), Option.some.inj heffect]
    · intro _ e he hdata
      rcases MemTable.mem_iter_record.mp he with rfl | ⟨he, _⟩
      · exact Nat.lt_succ_self ts
      · exact Nat.lt_succ_of_le (hnewer rfl e he hdata)
  · rw [if_neg hkey]
    refine ⟨?_, ?_⟩
    · intro effect heffect
      rw [newest_write_of_ne s hkey]
      exact h.newest effect heffect
    · intro hwritten e he hdata
      rcases MemTable.mem_iter_record.mp he with rfl | ⟨he, _⟩
      · exact absurd hdata hkey
      · exact Nat.lt_succ_of_lt (h.below hwritten e he hdata)

private theorem Writing.writes {key : Bytes} {ts : ℕ} {s : Lsm} {last : Option (Option Bytes)}
    (h : Writing key ts s last) (operations : List BatchOperation)
    (hnewer : ∀ i ∈ firstWriteOf key operations, ∀ e ∈ s.memtable.iter,
      e.1.data = key → e.1.timestamp ≤ ts + i) :
    Writing key (ts + operations.length) (s.writes ts operations)
      (operations.foldl (fun last op => if op.key = key then some op.effect else last) last) := by
  induction operations generalizing s ts last with
  | nil => exact h
  | cons op rest ih =>
      -- the first write of the key is not below the versions there
      have hthis : op.key = key → ∀ e ∈ s.memtable.iter, e.1.data = key → e.1.timestamp ≤ ts := by
        intro hkey
        apply hnewer 0
        simp [firstWriteOf, List.findIdx?_cons, hkey]
      have hwritten := h.write op hthis
      have hrest : ∀ i ∈ firstWriteOf key rest,
          ∀ e ∈ (s.write op.key op.effect ts).memtable.iter,
            e.1.data = key → e.1.timestamp ≤ ts + 1 + i := by
        intro i hi e he hdata
        -- after it the versions of the key are below the next timestamp
        by_cases hkey : op.key = key
        · rw [if_pos hkey] at hwritten
          have hlt := hwritten.below (Option.some_ne_none _) e he hdata
          omega
        · have hmem : i + 1 ∈ firstWriteOf key (op :: rest) := by
            have hfirst : firstWriteOf key rest = some i := hi
            unfold firstWriteOf at hfirst ⊢
            simp [List.findIdx?_cons, hkey, hfirst]
          rcases MemTable.mem_iter_record.mp he with rfl | ⟨he, _⟩
          · exact absurd hdata hkey
          · have hle := hnewer (i + 1) hmem e he hdata
            omega
      have hall := ih hwritten hrest
      rw [List.length_cons, Nat.add_comm rest.length, ← Nat.add_assoc]
      exact hall

theorem Superseded.step {key : Bytes} {s : Lsm} {last : Option (Option Bytes)} {op : Op}
    (h : Superseded key s last) (hstep : SupersedingStep key s op) :
    Superseded key (s.step op) (op.effectOn key last) := by
  have hwriting : Writing key s.nextTs (s.advance op.operations.length) last :=
    ⟨h.newest, h.below⟩
  have hwritten := hwriting.writes op.operations hstep.newer
  have hlogged : Superseded key (s.logged op) (op.effectOn key last) := by
    refine ⟨?_, hwritten.newest, ?_⟩
    · exact (immutableMemtables_writes _ _ _).trans h.immutableMemtables
    · rw [logged, nextTs_writes]
      exact hwritten.below
  rw [step_eq]
  split
  · next hrotates =>
      refine ⟨hlogged.immutableMemtables, ?_, ?_⟩
      · intro effect heffect
        rw [newest_rotate hlogged.immutableMemtables (hstep.flush hrotates)]
        exact hlogged.newest effect heffect
      · intro _ e he
        exact absurd he List.not_mem_nil
  · exact hlogged

/-- A session over any directory, in which every operation is superseding for the key.
Recovered versions up to timestamp 1 are seen from the start, and from the first write
of the key on a read returns the effect of the last one: `Lsm::get`, and any read at a
timestamp not below those that have been given out. -/
theorem superseded_run (memtableSize : ℕ) (dir : Dir) (key : Bytes) (ops : List Op)
    (hsteps : Along step (SupersedingStep key) (openDir memtableSize dir) ops) :
    ((∀ e ∈ (openDir memtableSize dir).memtable.iter, e.1.data = key → e.1.timestamp ≤ 1) →
      (openDir memtableSize dir).get key = (openDir memtableSize dir).newest key) ∧
    ∀ effect, lastEffect key ops = some effect →
      (run step (openDir memtableSize dir) ops).get key = effect ∧
      ∀ ts, (run step (openDir memtableSize dir) ops).nextTs ≤ ts + 1 →
        (run step (openDir memtableSize dir) ops).getAtTs key ts = effect := by
  refine ⟨getAtTs_eq_newest rfl, ?_⟩
  intro effect heffect
  have hopened : Superseded key (openDir memtableSize dir) none :=
    ⟨rfl, fun _ h => absurd h (Option.some_ne_none _).symm, fun h => absurd rfl h⟩
  have hrun : Superseded key (run step (openDir memtableSize dir) ops) (lastEffect key ops) :=
    hsteps.simulation (fun _ _ _ h hstep => h.step hstep) hopened
  have hbelow := hrun.below (heffect ▸ Option.some_ne_none _)
  have hlate : ∀ ts, (run step (openDir memtableSize dir) ops).nextTs ≤ ts + 1 →
      (run step (openDir memtableSize dir) ops).getAtTs key ts = effect := by
    intro ts hts
    rw [← hrun.newest effect heffect]
    apply getAtTs_eq_newest hrun.immutableMemtables
    intro e he hdata
    have hlt := hbelow e he hdata
    omega
  exact ⟨hlate _ (Nat.le_succ _), hlate⟩

/-- What a session with memtables of size 3 leaves behind: `[1] ↦ [3]` at timestamp 3, in
a recorded log. -/
def recoverable : Dir :=
  (run sessionStep (openDir 3 Dir.empty)
    [.op (.put [1] [1]), .op (.put [1] [2]), .op (.put [1] [3]), .sync]).endSession 0

/-- Three writes of another key, and the counter has passed the recovered version. -/
theorem superseded_run_caughtUp :
    (run step (openDir 100 recoverable)
      [.put [2] [1], .put [2] [2], .put [2] [3], .put [1] [4]]).get [1] = some [4] :=
  ((superseded_run 100 recoverable [1] _ (by decide +kernel)).2 (some [4]) rfl).1

/-- The new value is read as long as the counter is below the recovered version, and one
more write, of another key, brings the recovered value back. -/
theorem get_superseded_ne :
    (run step (openDir 100 recoverable) [.put [1] [4], .put [2] [1]]).get [1] ≠ some [4] := by
  decide +kernel

end Lsm
end Crabstash
