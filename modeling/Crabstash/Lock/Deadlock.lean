import Crabstash.Foundations.Run
import Crabstash.Foundations.StrongComponents
import Crabstash.Lock.WaitFor
import Mathlib.Data.List.Sort

/-!
# Deadlock detection

`detect_deadlock` searches the wait-for graph for its strong components and names a victim of
the first one that has more than one member.  A component of one member is no deadlock only
because no transaction waits for itself, which `add_wait_edge` sees to.

The orders in which the keys of the graph and the holders of each waiter come are those of a
hash map and of hash sets (`IterationOrder`).  They decide which component comes first and in
which order its members come, hence which victim is named among equals, and nothing else.
-/

namespace Crabstash

/-- How `select_victims` sorts: high priority numbers first, then late starts, then few locks. -/
def TxnInfo.victimOrder (a b : TxnInfo) : Ordering :=
  ((compare a.priority b.priority).swap.then (compare a.startTs b.startTs).swap).then
    (compare a.lockCount b.lockCount)

namespace WaitForGraph

/-! ## The detector -/

/-- `decrement_lock_count`, in natural numbers. -/
def decrementLockCount (g : WaitForGraph) (txnId : ℕ) : WaitForGraph :=
  match g.txnInfo.lookup txnId with
  | none => g
  | some info =>
      { g with txnInfo := g.txnInfo.insert txnId { info with lockCount := info.lockCount - 1 } }

/-- The orders in which the iterations of one call come to the keys and to the holders. -/
structure IterationOrder (g : WaitForGraph) where
  keys : List ℕ
  keys_perm : keys.Perm g.edges.keys
  holders : ℕ → List ℕ
  holders_perm : ∀ waiter, (holders waiter).Perm ((g.edges.lookup waiter).getD [])

instance (g : WaitForGraph) : Inhabited g.IterationOrder where
  default :=
    { keys := g.edges.keys
      keys_perm := List.Perm.refl _
      holders := fun waiter => (g.edges.lookup waiter).getD []
      holders_perm := fun _ => List.Perm.refl _ }

/-- `cycle[0]` is evaluated whether or not it is needed. -/
def selectVictims (g : WaitForGraph) (cycle : List ℕ) : Option (List ℕ) := do
  let candidates := cycle.filterMap fun id => (g.txnInfo.lookup id).map fun info => (id, info)
  let sorted := candidates.insertionSort fun a b => (a.2.victimOrder b.2).isLE = true
  let first ← cycle.head?
  return [(sorted.head?.map Prod.fst).getD first]

/-- Every transaction with an edge, at least once. -/
def transactions (g : WaitForGraph) : List ℕ := g.edges.entries.flatMap fun e => e.1 :: e.2

/-- `detect_deadlock`; the outer `none` is a panic. -/
def detectDeadlock (g : WaitForGraph) (order : g.IterationOrder) : Option (Option (List ℕ)) := do
  let state ← StrongComponents.search order.holders g.transactions.length order.keys
    StrongComponents.State.new
  match state.sccs.find? fun scc => 1 < scc.length with
  | none => return none
  | some scc => return some (← g.selectVictims scc)

/-! ## Victims -/

section

variable {g : WaitForGraph}

theorem victimOrder_isLE {a b : TxnInfo} : (a.victimOrder b).isLE = true ↔
    b.priority < a.priority ∨ b.priority = a.priority ∧
      (b.startTs < a.startTs ∨ b.startTs = a.startTs ∧ a.lockCount ≤ b.lockCount) := by
  unfold TxnInfo.victimOrder
  rcases Nat.lt_trichotomy a.priority b.priority with hlt | heq | hgt
  · rw [Nat.compare_eq_lt.mpr hlt]
    simp
    omega
  · rw [Nat.compare_eq_eq.mpr heq]
    rcases Nat.lt_trichotomy a.startTs b.startTs with hlt | heq' | hgt
    · rw [Nat.compare_eq_lt.mpr hlt]
      simp
      omega
    · rw [Nat.compare_eq_eq.mpr heq']
      simp [heq, heq', Nat.isLE_compare]
    · rw [Nat.compare_eq_gt.mpr hgt]
      simp
      omega
  · rw [Nat.compare_eq_gt.mpr hgt]
    simp
    omega

instance : Std.Total fun a b : ℕ × TxnInfo => (a.2.victimOrder b.2).isLE = true where
  total a b := by
    rw [victimOrder_isLE, victimOrder_isLE]
    omega

instance : IsTrans (ℕ × TxnInfo) fun a b => (a.2.victimOrder b.2).isLE = true where
  trans a b c := by
    rw [victimOrder_isLE, victimOrder_isLE, victimOrder_isLE]
    omega

/-- The victim is a member of the cycle, and no registered one comes before it. -/
theorem selectVictims_spec {cycle : List ℕ} (hcycle : cycle ≠ []) :
    ∃ victim ∈ cycle, g.selectVictims cycle = some [victim] ∧
      ∀ member ∈ cycle, ∀ info, g.txnInfo.lookup member = some info →
        ∃ info', g.txnInfo.lookup victim = some info' ∧ (info'.victimOrder info).isLE = true := by
  obtain ⟨first, rest, rfl⟩ := List.exists_cons_of_ne_nil hcycle
  set cycle := first :: rest with hdef
  set candidates := cycle.filterMap fun id => (g.txnInfo.lookup id).map fun info => (id, info)
    with hcandidates
  have hmem : ∀ id info, (id, info) ∈ candidates ↔
      id ∈ cycle ∧ g.txnInfo.lookup id = some info := by
    intro id info
    simp only [hcandidates, List.mem_filterMap, Option.map_eq_some_iff, Prod.mk.injEq]
    constructor
    · rintro ⟨id', hid, info', hlookup, rfl, rfl⟩
      exact ⟨hid, hlookup⟩
    · rintro ⟨hid, hlookup⟩
      exact ⟨id, hid, info, hlookup, rfl, rfl⟩
  set sorted := candidates.insertionSort fun a b => (a.2.victimOrder b.2).isLE = true with hsorted
  have hperm : sorted.Perm candidates := List.perm_insertionSort _ _
  have hselect : g.selectVictims cycle = some [(sorted.head?.map Prod.fst).getD first] := rfl
  cases hhead : sorted with
  | nil =>
      rw [hhead] at hselect hperm
      -- nobody is registered, and the first member is the victim
      refine ⟨first, List.mem_cons_self .., hselect, ?_⟩
      intro member hmember info hlookup
      have hin := hperm.mem_iff.mpr ((hmem member info).mpr ⟨hmember, hlookup⟩)
      exact absurd hin List.not_mem_nil
  | cons candidate others =>
      obtain ⟨victim, info'⟩ := candidate
      rw [hhead] at hselect hperm
      have hvictim := (hmem victim info').mp (hperm.mem_iff.mp (List.mem_cons_self ..))
      refine ⟨victim, hvictim.1, hselect, ?_⟩
      intro member hmember info hlookup
      refine ⟨info', hvictim.2, ?_⟩
      have hpairwise : sorted.Pairwise fun a b => (a.2.victimOrder b.2).isLE = true :=
        List.pairwise_insertionSort _ _
      rw [hhead, List.pairwise_cons] at hpairwise
      have hin := hperm.mem_iff.mpr ((hmem member info).mpr ⟨hmember, hlookup⟩)
      rcases List.mem_cons.mp hin with heq | hin
      · rw [(Prod.mk.inj heq).2]
        exact victimOrder_isLE.mpr (Or.inr ⟨rfl, Or.inr ⟨rfl, le_rfl⟩⟩)
      · exact hpairwise.1 _ hin

/-! ## The search -/

/-- There is a way from one transaction to the other. -/
def WaitsFor (g : WaitForGraph) : ℕ → ℕ → Prop := Relation.ReflTransGen g.HasEdge

/-- The transaction waits for itself, if not directly. -/
def OnCycle (g : WaitForGraph) (txnId : ℕ) : Prop := Relation.TransGen g.HasEdge txnId txnId

theorem IterationOrder.mem_holders (order : g.IterationOrder) {waiter holder : ℕ} :
    holder ∈ order.holders waiter ↔ g.HasEdge waiter holder :=
  (order.holders_perm waiter).mem_iff

theorem IterationOrder.reach_iff (order : g.IterationOrder) {waiter holder : ℕ} :
    StrongComponents.Reach order.holders waiter holder ↔ g.WaitsFor waiter holder := by
  unfold StrongComponents.Reach WaitsFor
  rw [show (fun a b => b ∈ order.holders a) = g.HasEdge from
    funext₂ fun a b => propext order.mem_holders]

theorem mem_transactions_of_hasEdge {waiter holder : ℕ} (h : g.HasEdge waiter holder) :
    waiter ∈ g.edges.keys ∧ holder ∈ g.transactions := by
  unfold HasEdge at h
  cases hlookup : g.edges.lookup waiter with
  | none =>
      rw [hlookup] at h
      exact absurd h List.not_mem_nil
  | some holders =>
      rw [hlookup] at h
      have hentry := AList.mem_lookup_iff.mp hlookup
      exact ⟨List.mem_keys_of_mem hentry,
        List.mem_flatMap.mpr ⟨_, hentry, List.mem_cons_of_mem _ h⟩⟩

theorem mem_transactions_of_mem_keys {waiter : ℕ} (h : waiter ∈ g.edges.keys) :
    waiter ∈ g.transactions := by
  obtain ⟨e, he, rfl⟩ := List.mem_map.mp h
  exact List.mem_flatMap.mpr ⟨e, he, List.mem_cons_self ..⟩

/-- The search finds the strong components of all that wait. -/
theorem exists_search (order : g.IterationOrder) :
    ∃ state, StrongComponents.search order.holders g.transactions.length order.keys
        StrongComponents.State.new = some state ∧ state.Wf order.holders ∧
      ∀ waiter holder, g.HasEdge waiter holder → ∃ scc ∈ state.sccs, waiter ∈ scc := by
  have hclosed : ∀ v ∈ g.transactions.toFinset, ∀ w ∈ order.holders v,
      w ∈ g.transactions.toFinset := fun v _ w hw =>
    List.mem_toFinset.mpr (mem_transactions_of_hasEdge (order.mem_holders.mp hw)).2
  have hkeys : ∀ v ∈ order.keys, v ∈ g.transactions.toFinset := fun v hv =>
    List.mem_toFinset.mpr (mem_transactions_of_mem_keys (order.keys_perm.mem_iff.mp hv))
  obtain ⟨state, hsearch, hwf, hstack, -, hvisited⟩ :=
    StrongComponents.exists_search hclosed (List.toFinset_card_le g.transactions) hkeys
      StrongComponents.State.wf_new rfl
  refine ⟨state, hsearch, hwf, ?_⟩
  intro waiter holder hedge
  have hkey := order.keys_perm.mem_iff.mpr (mem_transactions_of_hasEdge hedge).1
  exact hwf.exists_component hstack (hvisited waiter hkey)

/-- Members of one component that are not the same are on a cycle. -/
theorem OnCycle.of_mutual {a b : ℕ} (hne : a ≠ b) (hab : g.WaitsFor a b) (hba : g.WaitsFor b a) :
    g.OnCycle a :=
  ((Relation.reflTransGen_iff_eq_or_transGen.mp hab).resolve_left hne.symm).trans_left hba

/-- A transaction on a cycle has somebody else on it, as nobody waits for itself. -/
theorem OnCycle.exists_mutual (hloopless : ∀ v, ¬g.HasEdge v v) {a : ℕ} (h : g.OnCycle a) :
    ∃ b, a ≠ b ∧ g.HasEdge a b ∧ g.WaitsFor b a := by
  obtain ⟨b, hab, hba⟩ := Relation.TransGen.head'_iff.mp h
  refine ⟨b, ?_, hab, hba⟩
  rintro rfl
  exact hloopless a hab

theorem detectDeadlock_spec (hloopless : ∀ v, ¬g.HasEdge v v) (order : g.IterationOrder) :
    ∃ result, g.detectDeadlock order = some result ∧
      (result = none ↔ ¬∃ txnId, g.OnCycle txnId) ∧
      ∀ victims, result = some victims → ∃ victim, victims = [victim] ∧ g.OnCycle victim ∧
        ∀ member, g.WaitsFor victim member → g.WaitsFor member victim →
          ∀ info, g.txnInfo.lookup member = some info →
            ∃ info', g.txnInfo.lookup victim = some info' ∧
              (info'.victimOrder info).isLE = true := by
  obtain ⟨state, hsearch, hwf, hfound⟩ := exists_search order
  have hmutual : ∀ scc ∈ state.sccs, ∀ a ∈ scc, ∀ b,
      b ∈ scc ↔ g.WaitsFor a b ∧ g.WaitsFor b a := by
    intro scc hscc a ha b
    rw [hwf.component scc hscc a ha b, order.reach_iff, order.reach_iff]
  cases hfind : state.sccs.find? fun scc => 1 < scc.length with
  | none =>
      refine ⟨none, ?_, iff_of_true rfl ?_, fun _ h => absurd h (by simp)⟩
      · simp only [detectDeadlock, hsearch, hfind, Option.bind_eq_bind, Option.bind_some]
        rfl
      · rintro ⟨a, hcycle⟩
        -- two members of a cycle would be in one component
        obtain ⟨b, hne, hab, hba⟩ := hcycle.exists_mutual hloopless
        obtain ⟨scc, hscc, ha⟩ := hfound a b hab
        have hb := (hmutual scc hscc a ha b).mpr ⟨Relation.ReflTransGen.single hab, hba⟩
        have hshort := List.find?_eq_none.mp hfind scc hscc
        rw [decide_eq_true_eq] at hshort
        rw [← List.toFinset_card_of_nodup (hwf.nodupSccs scc hscc)] at hshort
        exact hshort (Finset.one_lt_card.mpr
          ⟨a, List.mem_toFinset.mpr ha, b, List.mem_toFinset.mpr hb, hne⟩)
  | some scc =>
      have hscc := List.mem_of_find?_eq_some hfind
      have hlong := List.find?_some hfind
      rw [decide_eq_true_eq] at hlong
      obtain ⟨victim, hvictim, hselect, hfirst⟩ :=
        g.selectVictims_spec (List.ne_nil_of_length_pos (by omega : 0 < scc.length))
      have hcycle : g.OnCycle victim := by
        have hcard := hlong
        rw [← List.toFinset_card_of_nodup (hwf.nodupSccs scc hscc)] at hcard
        obtain ⟨other, hother, hne⟩ := Finset.exists_mem_ne hcard victim
        have hboth := (hmutual scc hscc victim hvictim other).mp (List.mem_toFinset.mp hother)
        exact OnCycle.of_mutual hne.symm hboth.1 hboth.2
      refine ⟨some [victim], ?_, iff_of_false (by simp) (not_not.mpr ⟨victim, hcycle⟩), ?_⟩
      · simp only [detectDeadlock, hsearch, hfind, Option.bind_eq_bind, Option.bind_some, hselect]
        rfl
      · rintro victims ⟨⟩
        refine ⟨victim, rfl, hcycle, ?_⟩
        intro member hto hfrom info hlookup
        exact hfirst member ((hmutual scc hscc victim hvictim member).mpr ⟨hto, hfrom⟩) info hlookup

end

/-! ## Runs -/

end WaitForGraph

/-- A call of one of the methods that change the graph. -/
inductive GraphStep where
  | registerTxn (txnId startTs priority : ℕ)
  | unregisterTxn (txnId : ℕ)
  | addWaitEdge (waiter holder : ℕ)
  | removeWaitEdge (waiter holder : ℕ)
  | removeAllWaits (waiter : ℕ)
  | incrementLockCount (txnId : ℕ)
  | decrementLockCount (txnId : ℕ)

namespace WaitForGraph

/-- The graph after a call. -/
def step (g : WaitForGraph) : GraphStep → WaitForGraph
  | .registerTxn txnId startTs priority => g.registerTxn txnId startTs priority
  | .unregisterTxn txnId => g.unregisterTxn txnId
  | .addWaitEdge waiter holder => g.addWaitEdge waiter holder
  | .removeWaitEdge waiter holder => g.removeWaitEdge waiter holder
  | .removeAllWaits waiter => g.removeAllWaits waiter
  | .incrementLockCount txnId => g.incrementLockCount txnId
  | .decrementLockCount txnId => g.decrementLockCount txnId

section

variable {g : WaitForGraph}

theorem edges_incrementLockCount (txnId : ℕ) : (g.incrementLockCount txnId).edges = g.edges := by
  unfold WaitForGraph.incrementLockCount
  split <;> rfl

theorem edges_decrementLockCount (txnId : ℕ) : (g.decrementLockCount txnId).edges = g.edges := by
  unfold WaitForGraph.decrementLockCount
  split <;> rfl

/-- No method makes a transaction wait for itself. -/
theorem loopless_step (h : ∀ v, ¬g.HasEdge v v) (call : GraphStep) :
    ∀ v, ¬(g.step call).HasEdge v v := by
  intro v hedge
  cases call with
  | registerTxn txnId startTs priority => exact h v hedge
  | unregisterTxn txnId => exact h v ((hasEdge_unregisterTxn txnId).mp hedge).1
  | addWaitEdge waiter holder =>
      rcases hasEdge_addWaitEdge.mp hedge with hold | ⟨hne, hwaiter, hholder⟩
      · exact h v hold
      · exact hne (hwaiter.symm.trans hholder)
  | removeWaitEdge waiter holder => exact h v (hasEdge_removeWaitEdge.mp hedge).1
  | removeAllWaits waiter => exact h v (hasEdge_removeAllWaits.mp hedge).1
  | incrementLockCount txnId =>
      unfold step HasEdge at hedge
      rw [edges_incrementLockCount] at hedge
      exact h v hedge
  | decrementLockCount txnId =>
      unfold step HasEdge at hedge
      rw [edges_decrementLockCount] at hedge
      exact h v hedge

theorem loopless_run (calls : List GraphStep) :
    ∀ v, ¬(Run.run step WaitForGraph.new calls).HasEdge v v :=
  Run.invariant (fun g : WaitForGraph => ∀ v, ¬g.HasEdge v v) (fun _ call h => loopless_step h call)
    (fun _ => List.not_mem_nil) calls

/-- After any calls and in any order of iteration, the detector finds a deadlock if and only if
there is one.  Its victim is on a cycle; if somebody in the component of the victim is registered
then the victim is too, and no registered member comes before it. -/
theorem detectDeadlock_run (calls : List GraphStep)
    (order : (Run.run step WaitForGraph.new calls).IterationOrder) :
    let g := Run.run step WaitForGraph.new calls
    ∃ result, g.detectDeadlock order = some result ∧
      (result = none ↔ ¬∃ txnId, g.OnCycle txnId) ∧
      ∀ victims, result = some victims → ∃ victim, victims = [victim] ∧ g.OnCycle victim ∧
        ∀ member, g.WaitsFor victim member → g.WaitsFor member victim →
          ∀ info, g.txnInfo.lookup member = some info →
            ∃ info', g.txnInfo.lookup victim = some info' ∧
              ¬info'.priority < info.priority ∧
              ¬(info.priority = info'.priority ∧ info'.startTs < info.startTs) ∧
              ¬(info.priority = info'.priority ∧ info.startTs = info'.startTs ∧
                info.lockCount < info'.lockCount) := by
  intro g
  obtain ⟨result, hdetect, hnone, hvictims⟩ := g.detectDeadlock_spec (loopless_run calls) order
  refine ⟨result, hdetect, hnone, ?_⟩
  intro victims hresult
  obtain ⟨victim, hvictim, hcycle, hfirst⟩ := hvictims victims hresult
  refine ⟨victim, hvictim, hcycle, ?_⟩
  intro member hto hfrom info hlookup
  obtain ⟨info', hlookup', hle⟩ := hfirst member hto hfrom info hlookup
  rw [victimOrder_isLE] at hle
  exact ⟨info', hlookup', by omega, by omega, by omega⟩

/-- Two rings that share a transaction without registration, of which the last is the youngest. -/
example :
    let g := Run.run step WaitForGraph.new
      [.registerTxn 1 10 7, .registerTxn 3 30 7, .addWaitEdge 1 2, .addWaitEdge 2 1,
        .addWaitEdge 2 3, .addWaitEdge 3 2, .addWaitEdge 4 1]
    g.detectDeadlock default = some (some [3]) := by
  decide +kernel

end
end WaitForGraph
end Crabstash
