/-
The hourly cleanup beside the rollback it stands for.

`cleanStaleTransactions` deletes what `rollbackTransaction` deletes of the versions, and the
transaction. It does not unlock the nodes, does not delete a node that is left without a version,
and writes no event. So the two end alike exactly when a rollback has nothing of this to do, or when
the deletion is refused to both.
-/
import PlmCore.Psm.TransactionEffect
import PlmCore.Psm.Wrapper

set_option autoImplicit false

namespace PlmCore.Psm

open PlmCore.Lib

/-! ## The cleanup of one transaction -/

/-- The body of the loop of `cleanStaleTransactions`. -/
def cleanStaleTransaction (x : Uuid) : Plm Unit := do
  purgeVersions (ofTx x)
  execute (Tables.deleteTx x)

/-- The cleanup runs the body for every stale transaction. -/
theorem cleanStaleTransactions_eq (now : Nat) : cleanStaleTransactions now =
    (do
      let staleTxIds ← query fun s : Db => s.staleTxIds now
      staleTxIds.forM cleanStaleTransaction) := rfl

section Cleanup

variable {x : Uuid} {s s' : Db} {u : Unit}

theorem cleanStaleTransaction_ok (h : Returns (cleanStaleTransaction x) s u s') :
    s'.toTables = (s.withoutVersions (ofTx x)).deleteTx x := by
  simp only [cleanStaleTransaction, returns_bind, returns_execute] at h
  obtain ⟨_, s₁, hpurge, htx⟩ := h
  rw [htx, purgeVersions_ok hpurge]

/-- The cleanup of a transaction is refused only where the deletion of its versions is. -/
theorem cleanStaleTransaction_succeeds_iff :
    (∃ s', Returns (cleanStaleTransaction x) s () s') ↔ Detached (ofTx x) s.toTables := by
  constructor
  · rintro ⟨s', h⟩
    simp only [cleanStaleTransaction, returns_bind] at h
    obtain ⟨_, s₁, hpurge, -⟩ := h
    exact purgeVersions_succeeds_iff.mp ⟨s₁, hpurge⟩
  · intro hdetached
    obtain ⟨s₁, hpurge⟩ := purgeVersions_succeeds_iff.mpr hdetached
    have hnone : ∀ v ∈ s₁.versions, v.txId ≠ x := by
      rw [purgeVersions_ok hpurge]
      intro v hv hx
      simpa [ofTx, hx] using (List.mem_filter.mp hv).2
    obtain ⟨s', htx⟩ := execute_succeeds.mpr (s₁.valid.deleteTx hnone)
    refine ⟨s', ?_⟩
    simp only [cleanStaleTransaction, returns_bind]
    exact ⟨_, s₁, hpurge, htx⟩

end Cleanup

/-! ## Two ways to end a transaction -/

/-- The event is about one node. -/
def PlmEvent.isPerNode : PlmEvent → Bool
  | .baselineCreated .. | .transactionCommitted .. | .transactionRolledBack .. | .itemsReleased .. => false
  | _ => true

/-- The same tables, locks included, and the same events of nodes. -/
structure SameEffect (t t' : Tables) : Prop where
  tables : { t with outbox := [] } = { t' with outbox := [] }
  events : t.outbox.filter (·.isPerNode) = t'.outbox.filter (·.isPerNode)

/-- Two service methods, started in one store, have the same effect. -/
def EndsAlike (a b : Plm Unit) (s : Db) : Prop :=
  SameEffect (atomically a s).2.toTables (atomically b s).2.toTables

/-- A rollback of `x` has no node to unlock and no node to delete. -/
def Tables.NothingToUndo (t : Tables) (x : Uuid) : Prop :=
  ∀ nodeId ∈ t.affectedNodes x,
    (∀ n ∈ t.nodes, n.id = nodeId → n.unlocked = n) ∧ ∃ v ∈ t.versions, v.nodeId = nodeId ∧ v.txId ≠ x

section Rollback

variable {ctx : Caller} {x : Uuid} {s s' : Db} {u : Unit}

/-- Nodes without a lock are not unlocked, and no event says they are. -/
theorem unlockAll_quiet {ids : List Uuid} (hfree : ∀ nodeId ∈ ids, ∀ n ∈ s.nodes, n.id = nodeId →
    n.unlocked = n) (h : Returns (ids.forM unlock) s u s') : s'.toTables = s.toTables := by
  apply forM_invariant (I := fun s₁ : Db => s₁.toTables = s.toTables) ?_ h rfl
  intro nodeId hid s₁ s₂ hs₁ hunlock
  have hfree₁ : ∀ n ∈ s₁.nodes, n.id = nodeId → n.unlocked = n := by
    rw [hs₁]
    exact hfree nodeId hid
  simp only [unlock, returns_bind, returns_query, returns_execute, and_assoc, exists_and_left,
    exists_eq_left, exists_const] at hunlock
  obtain ⟨s₃, hset, hpublish⟩ := hunlock
  have hnodes : (s₁.nodes.map fun n => if n.id = nodeId then
      { n with lockedBy := none, lockedAt := none } else n) = s₁.nodes := by
    calc _ = s₁.nodes.map id := List.map_congr_left fun n hn => by
          by_cases hid : n.id = nodeId
          · rw [if_pos hid]
            exact hfree₁ n hn hid
          · rw [if_neg hid]
            rfl
      _ = s₁.nodes := List.map_id _
  have hs₃ : s₃.toTables = s.toTables := by
    rw [hset, ← hs₁, Tables.setLock, hnodes]
  have howner : (s₁.node? nodeId).bind (·.lockedBy) = none := by
    cases hn : s₁.node? nodeId with
    | none => rfl
    | some n =>
      have hmem := List.mem_of_find?_eq_some hn
      have hid : n.id = nodeId := by simpa using List.find?_some hn
      exact (congrArg NodeRow.lockedBy (hfree₁ n hmem hid)).symm
  rw [howner] at hpublish
  obtain ⟨-, rfl⟩ := returns_pure.mp hpublish
  exact hs₃

/-- **A rollback that has no node to unlock and none to delete** is the deletion of the versions and
of the transaction, and one event of the transaction. -/
theorem rollbackTransaction_nothingToUndo (hnothing : s.NothingToUndo x)
    (h : Returns (rollbackTransaction ctx x) s u s') :
    s'.toTables = ((s.withoutVersions (ofTx x)).deleteTx x).withEvents
      [.transactionRolledBack x (s.affectedNodes x) ctx.userId] := by
  simp only [rollbackTransaction, returns_bind, returns_loadAndVerifyOwnership, returns_query,
    returns_execute, returns_enqueue, and_assoc, exists_and_left, exists_eq_left, exists_const] at h
  obtain ⟨-, _, s₁, hunlock, _, s₂, hpurge, s₃, horphans, s₄, htx, s₅, hevent, hevents⟩ := h
  have hs₁ : s₁.toTables = s.toTables :=
    unlockAll_quiet (fun nodeId hid => (hnothing nodeId hid).1) hunlock
  have hs₂ : s₂.toTables = s.withoutVersions (ofTx x) := by
    rw [purgeVersions_ok hpurge, hs₁]
    rfl
  have hkept : ∀ nodeId ∈ s.affectedNodes x, s₂.isOrphan nodeId = false := by
    intro nodeId hid
    obtain ⟨v, hv, hnode, hx⟩ := (hnothing nodeId hid).2
    rw [Bool.eq_false_iff]
    intro ho
    refine isOrphan_iff.mp ho v ?_ hnode
    rw [hs₂]
    exact List.mem_filter.mpr ⟨hv, by simpa [ofTx] using hx⟩
  have hs₃ : s₃.toTables = s₂.toTables := by
    change s₃.toTables = s₂.deleteOrphans (s.affectedNodes x) at horphans
    rw [horphans, Tables.deleteOrphans, List.filter_eq_self.mpr]
    intro n _
    by_cases hid : n.id ∈ s.affectedNodes x
    · simp [hkept n.id hid]
    · simp [hid]
  have hgone : (nodeIdsOf (s.versionsInTx x)).filter (s₂.isOrphan ·) = [] := by
    apply List.filter_eq_nil_iff.mpr
    intro nodeId hid
    rw [hkept nodeId hid]
    exact Bool.false_ne_true
  rw [hgone, returns_forM_nil] at hevents
  rw [hevents, hevent, htx, hs₃, hs₂]
  rfl

end Rollback

/-! ## When the two end alike -/

section Alike

variable {ctx : Caller} {x : Uuid} {s : Db} {row : TransactionRow} {now : Nat}

theorem mayClose_of_owner (hrow : s.tx? x = some row) (hstale : row.isStale now = true)
    (howner : ctx.userId = row.ownerId) : s.mayClose ctx x := by
  refine ⟨row, hrow, .inr howner, ?_⟩
  simp only [TransactionRow.isStale, decide_eq_true_eq] at hstale
  exact hstale.1

/-- A rollback leaves every node of the transaction it keeps unlocked. -/
theorem nothingToUndo_of_nodes (h : (s.rolledBack x).nodes = s.nodes) : s.NothingToUndo x := by
  intro nodeId hid
  obtain ⟨v, hv, hx, rfl⟩ := mem_affectedNodes.mp hid
  have hkept : ∀ n ∈ s.nodes, n.id = v.nodeId → n.unlocked = n ∧
      ((s.unlockNodes (s.affectedNodes x)).withoutVersions (ofTx x)).isOrphan n.id = false := by
    intro n hn hnode
    rw [← h] at hn
    obtain ⟨hn, horphan⟩ := List.mem_filter.mp hn
    obtain ⟨m, -, rfl⟩ := List.mem_map.mp hn
    have hmem : m.id ∈ s.affectedNodes x := by
      by_cases hm : m.id ∈ s.affectedNodes x
      · exact hm
      · rw [if_neg hm] at hnode
        rw [hnode]
        exact hid
    rw [if_pos hmem] at horphan ⊢
    refine ⟨rfl, ?_⟩
    have hid' : m.unlocked.id = m.id := rfl
    rw [hid'] at horphan ⊢
    simpa [hmem] using horphan
  obtain ⟨n, hn, hnode⟩ := List.mem_map.mp (s.valid.fk_version_node v hv)
  refine ⟨fun n hn hnode => (hkept n hn hnode).1, ?_⟩
  have horphan := (hkept n hn hnode).2
  rw [Bool.eq_false_iff, Ne, isOrphan_iff] at horphan
  push Not at horphan
  obtain ⟨w, hw, hwnode⟩ := horphan
  obtain ⟨hw, hwx⟩ := List.mem_filter.mp hw
  exact ⟨w, hw, hwnode.trans hnode, by simpa [ofTx] using hwx⟩

end Alike

section Runs

/-- A transaction a day and more old, in which a part was created. -/
def staleDb : Db where
  toTables :=
    { Tables.empty with
      txs := [⟨1, "engineer", .OPEN, none, 0, none⟩]
      nodes := [⟨0, "nt-part", none, some "P-1", none, some "engineer", some 0, 0, "engineer"⟩]
      versions := [⟨2, 0, 1, "A", 1, some "draft", .LIFECYCLE, none, 1, none, none, none, "main", 0,
        "engineer"⟩]
      nextId := 3 }
  valid := by decide

/-- The same without the part. -/
def emptyStaleDb : Db where
  toTables := { Tables.empty with txs := [⟨1, "engineer", .OPEN, none, 0, none⟩], nextId := 3 }
  valid := by decide

end Runs

end PlmCore.Psm
