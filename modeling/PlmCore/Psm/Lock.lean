/-
`LockService`: the pessimistic lock on the `node` row.

`tryLock` and `unlock` are the only places that write the lock columns, apart from the
`INSERT` of a new node, which leaves them null.
-/
import PlmCore.Psm.Config

set_option autoImplicit false

namespace PlmCore.Psm

open PlmCore.Lib

/-- `UPDATE node SET locked_by = ?, locked_at = ? WHERE id = ?`. -/
def Tables.setLock (nodeId : Uuid) (lockedBy : Option String) (lockedAt : Option Nat)
    (t : Tables) : Tables :=
  { t with nodes := t.nodes.map fun n =>
      if n.id = nodeId then { n with lockedBy, lockedAt } else n }

/-- `LockService.tryLock`: takes a free lock, is silent on the caller's own, and fails on
another user's. -/
def tryLock (ctx : Caller) (nodeId : Uuid) : Plm Unit := do
  let row ← query (·.node? nodeId)
  let n ← orElseThrow row (.illegalArgument ("Node not found: " ++ toString nodeId))
  match n.lockedBy with
  | none => do
    execute (Tables.setLock nodeId (some ctx.userId) (some ctx.now))
    enqueue (.lockAcquired nodeId ctx.userId)
  | some currentOwner =>
    require (currentOwner = ctx.userId) (.lockConflict nodeId currentOwner)

/-- The event of an unlock, when the node was locked. -/
def publishRelease (nodeId : Uuid) (owner : Option String) : Plm Unit :=
  match owner with
  | some owner => enqueue (.lockReleased nodeId owner)
  | none => pure ()

/-- `LockService.unlock`. -/
def unlock (nodeId : Uuid) : Plm Unit := do
  let ownerRow ← query (·.node? nodeId)
  execute (Tables.setLock nodeId none none)
  publishRelease nodeId (ownerRow.bind (·.lockedBy))

/-- The node without its lock columns. -/
def NodeRow.unlocked (n : NodeRow) : NodeRow := { n with lockedBy := none, lockedAt := none }

/-! ## What the two do -/

/-- A write that appends to the outbox and changes nothing else. -/
def Tables.withEvents (es : List PlmEvent) (t : Tables) : Tables :=
  { t with outbox := t.outbox ++ es }

theorem returns_enqueue {e : PlmEvent} {s s' : Db} {u : Unit} :
    Returns (enqueue e) s u s' ↔ s'.toTables = s.withEvents [e] := returns_execute

/-- **The two ways `tryLock` returns**: the caller held the lock already and nothing
changed, or the lock was free and is now the caller's. -/
theorem tryLock_ok {ctx : Caller} {nodeId : Uuid} {s s' : Db} (h : Returns (tryLock ctx nodeId) s () s') :
    ∃ n, s.node? nodeId = some n ∧
      ((n.lockedBy = some ctx.userId ∧ s' = s) ∨
        (n.lockedBy = none ∧ s'.toTables =
          (s.setLock nodeId (some ctx.userId) (some ctx.now)).withEvents
            [.lockAcquired nodeId ctx.userId])) := by
  simp only [tryLock, returns_bind, returns_query, returns_orElseThrow] at h
  obtain ⟨_, _, ⟨rfl, rfl⟩, n, _, ⟨hn, rfl⟩, h⟩ := h
  refine ⟨n, hn, ?_⟩
  split at h
  · rename_i hfree
    simp only [returns_bind, returns_execute, enqueue] at h
    obtain ⟨_, s₁, h₁, h₂⟩ := h
    exact .inr ⟨hfree, by rw [h₂, h₁]; rfl⟩
  · rename_i owner howned
    simp only [returns_require] at h
    obtain ⟨rfl, rfl⟩ := h
    exact .inl ⟨howned, rfl⟩

/-- `tryLock` writes no table but `node` and the outbox. -/
theorem tryLock_frame {ctx : Caller} {nodeId : Uuid} {s s' : Db}
    (h : Returns (tryLock ctx nodeId) s () s') :
    s'.toTables = { s.toTables with nodes := s'.nodes, outbox := s'.outbox } := by
  obtain ⟨n, -, ⟨-, rfl⟩ | ⟨-, h⟩⟩ := tryLock_ok h
  · rfl
  · rw [h]
    rfl

/-- `unlock` clears the lock columns of the node and changes no other column of any table
but the outbox. -/
theorem unlock_ok {nodeId : Uuid} {s s' : Db} (h : Returns (unlock nodeId) s () s') :
    ∃ es, s'.toTables = (s.setLock nodeId none none).withEvents es := by
  simp only [unlock, publishRelease, returns_bind, returns_query, returns_execute] at h
  obtain ⟨_, _, ⟨rfl, rfl⟩, _, s₁, h₁, h⟩ := h
  split at h
  · rename_i owner howner
    rw [enqueue, returns_execute] at h
    exact ⟨[.lockReleased nodeId owner], by rw [h, h₁]; rfl⟩
  · obtain ⟨-, rfl⟩ := returns_pure.mp h
    exact ⟨[], by rw [h₁]; simp [Tables.withEvents]⟩

/-! ## Unlocking cannot fail -/

@[simp] theorem setLock_nodeIds (nodeId : Uuid) (b : Option String) (a : Option Nat) (t : Tables) :
    (t.setLock nodeId b a).nodeIds = t.nodeIds := by
  simp only [Tables.setLock, Tables.nodeIds, List.map_map]
  refine List.map_congr_left fun n _ => ?_
  simp only [Function.comp_apply]
  split <;> rfl

/-- The lock columns take part in no constraint. -/
theorem Tables.Valid.setLock {t : Tables} (h : t.Valid) (nodeId : Uuid) (b : Option String)
    (a : Option Nat) : (t.setLock nodeId b a).Valid :=
  { h with
    pk_node := by rw [setLock_nodeIds]; exact h.pk_node
    fk_version_node := by rw [setLock_nodeIds]; exact h.fk_version_node
    fk_signature_node := by rw [setLock_nodeIds]; exact h.fk_signature_node
    fk_comment_node := by rw [setLock_nodeIds]; exact h.fk_comment_node }

/-- The outbox takes part in no constraint. -/
theorem Tables.Valid.withEvents {t : Tables} (h : t.Valid) (es : List PlmEvent) :
    (t.withEvents es).Valid := { h with }

theorem enqueue_succeeds (e : PlmEvent) (s : Db) : ∃ s', Returns (enqueue e) s () s' :=
  execute_succeeds.mpr (s.valid.withEvents [e])

/-- Unlocking never fails. -/
theorem unlock_succeeds (nodeId : Uuid) (s : Db) : ∃ s', Returns (unlock nodeId) s () s' := by
  obtain ⟨s₁, h₁⟩ := execute_succeeds.mpr (s.valid.setLock nodeId none none)
  have hpub : ∃ s', Returns (publishRelease nodeId ((s.node? nodeId).bind (·.lockedBy))) s₁ () s' := by
    unfold publishRelease
    split
    · exact enqueue_succeeds _ _
    · exact ⟨s₁, by simp⟩
  obtain ⟨s₂, h₂⟩ := hpub
  refine ⟨s₂, ?_⟩
  simp only [unlock, returns_bind, returns_query]
  exact ⟨_, s, ⟨rfl, rfl⟩, _, s₁, h₁, h₂⟩

end PlmCore.Psm
