/-
`NodeService.createNode` statement by statement.

The duplicate check and the inserts are separate statements of one database transaction, and at
the isolation level read committed a statement sees what is committed when it starts and what
its own transaction has written. So each request in flight keeps the rows it has inserted, and
they join the store when its database transaction commits. Other requests run in between: further
creations, and commits, rollbacks and releases of PLM transactions, each in a database
transaction of its own.
-/
import Mathlib.Data.List.Perm.Basic
import PlmCore.Lib.Run
import PlmCore.Psm.TransactionEffect
import PlmCore.Psm.NodeEffect

set_option autoImplicit false

namespace PlmCore.Psm

open PlmCore.Lib

/-! ## One request -/

/-- How far a request has come. -/
inductive Stage
  | checked
  | inserted (nodeId : Uuid)
  | attached (nodeId txId : Uuid)
  | finished (nodeId : Uuid)
  deriving DecidableEq

/-- A request whose duplicate check passed, with the rows it has inserted. -/
structure Creation where
  ctx : Caller
  projectSpaceId : Option String
  nodeType : NodeTypeConfig
  logicalId : String
  externalId : Option String
  stage : Stage
  node : Option NodeRow
  tx : Option TransactionRow
  version : Option VersionRow
  events : List PlmEvent

/-- The store with the rows of a request. -/
def Tables.joined (t : Tables) (c : Creation) : Tables :=
  { t with
    nodes := t.nodes ++ c.node.toList
    txs := t.txs ++ c.tx.toList
    versions := t.versions ++ c.version.toList
    outbox := t.outbox ++ c.events }

/-- `createNode` up to the duplicate check: the node type and the trimmed logical id. -/
def checkCreation (env : Env) (nodeTypeId : String) (logicalId : Option String) :
    Plm (NodeTypeConfig × String) := do
  let nodeType ← orElseThrow (env.getNodeType nodeTypeId)
    (.illegalArgument ("NodeType not found: " ++ nodeTypeId))
  checkLogicalId env nodeType (trim (nvl logicalId))
  pure (nodeType, trim (nvl logicalId))

/-- A request that has just passed its check. -/
def Creation.start (ctx : Caller) (projectSpaceId : Option String) (nodeType : NodeTypeConfig)
    (logicalId : String) (externalId : Option String) : Creation :=
  ⟨ctx, projectSpaceId, nodeType, logicalId, externalId, .checked, none, none, none, []⟩

namespace Creation

variable (env : Env) (c : Creation) (t : Tables)

/-- `INSERT INTO node`, and the lock of the new row. -/
def insertNode : Creation :=
  { c with
    stage := .inserted t.nextId
    node := some { newNode c.ctx t.nextId c.projectSpaceId c.nodeType.id c.logicalId c.externalId with
      lockedBy := some c.ctx.userId
      lockedAt := some c.ctx.now }
    events := c.events ++ [.lockAcquired t.nextId c.ctx.userId] }

/-- The open transaction of the user joins. -/
def attach (nodeId txId : Uuid) : Creation := { c with stage := .attached nodeId txId }

/-- A new transaction of the user. -/
def openTransaction (nodeId : Uuid) : Creation :=
  { c with
    stage := .attached nodeId t.nextId
    tx := some ⟨t.nextId, c.ctx.userId, .OPEN, none, c.ctx.now, none⟩ }

/-- The initial version, before its fingerprint. -/
def insertVersion (nodeId txId : Uuid) : Creation :=
  { c with
    stage := .finished nodeId
    version := some (initialVersion c.ctx t.nextId nodeId txId (initialState env c.nodeType)) }

/-- The fingerprint of the initial version. -/
def storeFingerprint (nodeId : Uuid) : Creation :=
  { c with version := c.version.map fun v =>
      { v with fingerprint := some (env.sha256 (fingerprintText ((t.joined c).contentOf nodeId v))) } }

/-- The event of the new node. -/
def publish (nodeId : Uuid) : Creation :=
  { c with events := c.events ++ [.itemCreated nodeId c.nodeType.id c.ctx.userId c.projectSpaceId
      (buildNodePayload env (t.joined c) nodeId)] }

/-- The next statements of a request, and whether they took an id; `none` when the request
fails. -/
def next : Option (Creation × Bool) :=
  match c.stage with
  | .checked => some (c.insertNode t, true)
  | .inserted nodeId =>
    match (t.joined c).openTransactionsOf c.ctx.userId with
    | [] => some (c.openTransaction t nodeId, true)
    | [x] => some (c.attach nodeId x.id, false)
    | _ => none
  | .attached nodeId txId =>
    let versioned := (c.insertVersion env t nodeId txId).storeFingerprint env t.takeId nodeId
    some (versioned.publish env t.takeId nodeId, true)
  | .finished _ => some (c, false)

end Creation

/-! ## The requests together -/

/-- The committed store and the requests in flight. -/
structure Creating where
  store : Db
  creations : List Creation

/-- What can happen next. -/
inductive CreatingEvent
  /-- a request runs its checks, and goes on if they pass -/
  | start (ctx : Caller) (projectSpaceId : Option String) (nodeTypeId : String)
      (logicalId externalId : Option String)
  /-- the next statements of a request in flight -/
  | advance (i : Nat)
  /-- the database transaction of a request that has come to its end commits -/
  | complete (i : Nat)
  /-- a database transaction is aborted -/
  | abort (i : Nat)
  | commit (ctx : Caller) (txId : Uuid) (comment : Option String) (selected : List Uuid)
  | rollback (ctx : Caller) (txId : Uuid)
  | release (ctx : Caller) (txId : Uuid) (nodeIds : List Uuid)

/-- The store with one id used. -/
def Db.useId (s : Db) : Db := ⟨s.toTables.takeId, s.valid.takeId⟩

namespace Creating

variable (env : Env) (s : Creating)

/-- A service method in a database transaction of its own. -/
def execute {α : Type} (x : Plm α) : Creating :=
  match x s.store with
  | (.ok _, store) => { s with store }
  | (.error _, _) => s

/-- The rows of a request join the store, when the constraints allow it. -/
def complete (i : Nat) (c : Creation) : Creating :=
  if h : (s.store.joined c).Valid then ⟨⟨s.store.joined c, h⟩, s.creations.eraseIdx i⟩
  else { s with creations := s.creations.eraseIdx i }

/-- One step. -/
def step : CreatingEvent → Creating
  | .start ctx projectSpaceId nodeTypeId logicalId externalId =>
    match checkCreation env nodeTypeId logicalId s.store with
    | (.ok (nodeType, trimmedLogicalId), _) => { s with creations := s.creations ++
        [.start ctx projectSpaceId nodeType trimmedLogicalId externalId] }
    | (.error _, _) => s
  | .advance i =>
    match s.creations[i]? with
    | none => s
    | some c =>
      match c.next env s.store.toTables with
      | none => { s with creations := s.creations.eraseIdx i }
      | some (c', true) => ⟨s.store.useId, s.creations.set i c'⟩
      | some (c', false) => { s with creations := s.creations.set i c' }
  | .complete i =>
    match s.creations[i]? with
    | none => s
    | some c =>
      match c.stage with
      | .finished _ => s.complete i c
      | _ => s
  | .abort i => { s with creations := s.creations.eraseIdx i }
  | .commit ctx txId comment selected => s.execute (commitTransaction env ctx txId comment selected)
  | .rollback ctx txId => s.execute (rollbackTransaction ctx txId)
  | .release ctx txId nodeIds => s.execute (releaseNodes ctx txId nodeIds)

end Creating

/-! ## A request that nothing interrupts -/

section Uninterrupted

variable {env : Env} {s s' : Db} {cs : List Creation} {c c' : Creation}

theorem step_advance_last {b : Bool} (h : c.next env s.toTables = some (c', b)) :
    Creating.step env ⟨s, cs ++ [c]⟩ (.advance cs.length)
      = ⟨if b then s.useId else s, cs ++ [c']⟩ := by
  have hget : (cs ++ [c])[cs.length]? = some c := by simp
  have hset : (cs ++ [c]).set cs.length c' = cs ++ [c'] := by simp
  simp only [Creating.step, hget, h]
  cases b with
  | true =>
    rw [← hset]
    rfl
  | false =>
    rw [← hset]
    rfl

theorem step_complete_last {nodeId : Uuid} (hstage : c.stage = .finished nodeId)
    (hs' : s'.toTables = s.joined c) :
    Creating.step env ⟨s, cs ++ [c]⟩ (.complete cs.length) = ⟨s', cs⟩ := by
  have hget : (cs ++ [c])[cs.length]? = some c := by simp
  have herase : (cs ++ [c]).eraseIdx cs.length = cs := by
    rw [List.eraseIdx_append_of_length_le (le_refl _)]
    simp
  have hvalid : (s.joined c).Valid := hs' ▸ s'.valid
  simp only [Creating.step, hget, hstage, Creating.complete, herase, dif_pos hvalid]
  rw [Db.ext (s := ⟨s.joined c, hvalid⟩) hs'.symm]

/-- The lock of a new node is taken in its row. -/
theorem joined_insertNode {ctx : Caller} {projectSpaceId : Option String} {nodeType : NodeTypeConfig}
    {logicalId : String} {externalId : Option String} {t : Tables}
    (hnew : t.nextId ∉ t.nodeIds) :
    t.takeId.joined ((Creation.start ctx projectSpaceId nodeType logicalId externalId).insertNode t)
      = ((t.takeId.insertNode (newNode ctx t.nextId projectSpaceId nodeType.id logicalId externalId)).setLock
          t.nextId (some ctx.userId) (some ctx.now)).withEvents [.lockAcquired t.nextId ctx.userId] := by
  have hold : t.nodes.map (fun n => if n.id = t.nextId then
      { n with lockedBy := some ctx.userId, lockedAt := some ctx.now } else n) = t.nodes := by
    nth_rewrite 2 [← List.map_id t.nodes]
    refine List.map_congr_left fun n hn => ?_
    apply if_neg
    intro hid
    exact hnew (hid ▸ List.mem_map_of_mem hn)
  simp [Tables.joined, Creation.insertNode, Creation.start, Tables.setLock, Tables.insertNode,
    Tables.withEvents, Tables.takeId, newNode, hold]
  rfl

/-- Writing the fingerprint of a version among others touches only its row. -/
theorem joined_storeFingerprint {t : Tables} {nodeId : Uuid} {row : VersionRow}
    (hversion : c.version = some row) (hnew : row.id ∉ t.versionIds) :
    t.joined (c.storeFingerprint env t nodeId) = (t.joined c).refresh env nodeId row := by
  have hold : ∀ fp : String, t.versions.map (fun v => if v.id = row.id then
      { v with fingerprint := some fp } else v) = t.versions := by
    intro fp
    nth_rewrite 2 [← List.map_id t.versions]
    refine List.map_congr_left fun v hv => ?_
    apply if_neg
    intro hid
    exact hnew (hid ▸ List.mem_map_of_mem hv)
  simp [Tables.joined, Creation.storeFingerprint, hversion, Tables.refresh, Tables.setFingerprint,
    Tables.updateVersion, hold]

/-- The statements that find or open the transaction of the user. -/
theorem next_inserted {nodeId x : Uuid} {t : Db} (hstage : c.stage = .inserted nodeId)
    (htx : c.tx = none) (hs : s.toTables = t.joined c)
    (h : Returns (findOrOpenTransaction c.ctx) s x s') :
    ∃ tx b, c.next env t.toTables = some ({ c with stage := .attached nodeId x, tx := tx }, b)
      ∧ s'.toTables = (if b then t.useId else t).joined { c with stage := .attached nodeId x, tx := tx } := by
  rcases findOrOpenTransaction_ok h with ⟨rfl, hfound⟩ | ⟨hnone, hopen⟩
  · rw [hs] at hfound
    obtain ⟨row, hrow, rfl⟩ := List.map_eq_singleton_iff.mp hfound
    refine ⟨none, false, ?_, ?_⟩
    · simp only [Creation.next, hstage, hrow, Creation.attach, htx]
    · rw [hs]
      simp [Tables.joined, htx]
  · rw [hs] at hnone
    obtain ⟨rfl, hs'⟩ := openTransaction_ok hopen
    refine ⟨some ⟨t.nextId, c.ctx.userId, .OPEN, none, c.ctx.now, none⟩, true, ?_, ?_⟩
    · simp only [Creation.next, hstage, hnone, Creation.openTransaction, hs]
      rfl
    · rw [hs', hs]
      simp [Tables.joined, Tables.takeId, Tables.insertTransaction, Db.useId, htx]

/-- The statements that insert the initial version, up to the event. -/
theorem next_attached {nodeId x : Uuid} {t s₁ s₂ s₃ : Db} (hstage : c.stage = .attached nodeId x)
    (hnone : c.version = none) (hs : s.toTables = t.joined c) (htake : s₁.toTables = s.takeId)
    (hins : s₂.toTables = s₁.insertVersion
      (initialVersion c.ctx s.nextId nodeId x (initialState env c.nodeType)))
    (hfp : Returns (storeFingerprint env nodeId s.nextId) s₂ () s₃)
    (hevent : s'.toTables = s₃.withEvents [.itemCreated nodeId c.nodeType.id c.ctx.userId
      c.projectSpaceId (buildNodePayload env s₃.toTables nodeId)]) :
    ∃ c', c.next env t.toTables = some (c', true) ∧ c'.stage = .finished nodeId
      ∧ s'.toTables = t.takeId.joined c' := by
  have hs₂ : s₂.toTables = t.takeId.joined (c.insertVersion env t.toTables nodeId x) := by
    rw [hins, htake, hs]
    simp [Tables.joined, Tables.takeId, Tables.insertVersion, Creation.insertVersion, hnone]
  have hnew : t.nextId ∉ t.takeId.versionIds := by
    intro hold
    obtain ⟨v, hv, hid⟩ := List.mem_map.mp hold
    exact absurd hid (Nat.ne_of_lt (t.valid.generated v hv))
  obtain ⟨v, hv, hid, hs₃⟩ := storeFingerprint_ok hfp
  have hsnext : s.nextId = t.nextId := by
    rw [hs]
    rfl
  have hrow : v = initialVersion c.ctx t.nextId nodeId x (initialState env c.nodeType) := by
    rw [hs₂] at hv
    rcases List.mem_append.mp hv with hold | hlast
    · exact absurd (hid.trans hsnext ▸ List.mem_map_of_mem hold) hnew
    · exact List.mem_singleton.mp hlast
  rw [hrow, hs₂, ← joined_storeFingerprint rfl hnew] at hs₃
  refine ⟨((c.insertVersion env t.toTables nodeId x).storeFingerprint env t.takeId nodeId).publish env
    t.takeId nodeId, ?_, rfl, ?_⟩
  · simp only [Creation.next, hstage]
  · rw [hevent, hs₃]
    simp [Tables.joined, Tables.withEvents, Creation.publish, Creation.storeFingerprint,
      Creation.insertVersion]

/-- **A request that nothing interrupts is `createNode`.** -/
theorem createNode_uninterrupted {ctx : Caller} {projectSpaceId : Option String} {nodeTypeId : String}
    {logicalId externalId : Option String} {nodeId : Uuid}
    (h : Returns (createNode env ctx projectSpaceId nodeTypeId logicalId externalId) s nodeId s') :
    run (Creating.step env) ⟨s, cs⟩ [.start ctx projectSpaceId nodeTypeId logicalId externalId,
      .advance cs.length, .advance cs.length, .advance cs.length, .complete cs.length] = ⟨s', cs⟩ := by
  simp only [createNode, returns_bind, returns_orElseThrow, returns_query, returns_randomUUID,
    returns_execute, returns_pure, returns_enqueue, and_assoc, exists_and_left, exists_eq_left,
    exists_const] at h
  obtain ⟨nodeType, hnodeType, _, s₀, hlogical, s₁, htake, s₂, hins, _, s₃, hlock, x, s₄, htx, s₅,
    htake', s₆, hversion, _, s₇, hfp, s₈, hevent, rfl, rfl⟩ := h
  obtain ⟨hsame, hdup⟩ := checkLogicalId_ok hlogical
  obtain rfl := hsame.symm
  have hid : nodeType.id = nodeTypeId := by simpa using List.find?_some hnodeType
  have hcheck : Returns (checkCreation env nodeTypeId logicalId) s (nodeType, trim (nvl logicalId)) s := by
    simp only [checkCreation, returns_bind, returns_orElseThrow, returns_pure]
    exact ⟨nodeType, s, ⟨hnodeType, rfl⟩, (), s, hlogical, rfl, rfl⟩
  have hstart : Creating.step env ⟨s, cs⟩ (.start ctx projectSpaceId nodeTypeId logicalId externalId)
      = ⟨s, cs ++ [.start ctx projectSpaceId nodeType (trim (nvl logicalId)) externalId]⟩ := by
    simp only [Creating.step, show checkCreation env nodeTypeId logicalId s
      = (.ok (nodeType, trim (nvl logicalId)), s) from hcheck]
  have hnew : s.nextId ∉ s.nodeIds := by
    have hnodup := s₂.valid.pk_node
    rw [Tables.nodeIds, hins, htake, Tables.insertNode, List.map_append] at hnodup
    intro hold
    exact List.disjoint_of_nodup_append hnodup hold (List.mem_singleton_self _)
  have hs₃ : s₃.toTables = s.useId.joined (Creation.insertNode
      (.start ctx projectSpaceId nodeType (trim (nvl logicalId)) externalId) s.toTables) := by
    obtain ⟨n, hn, ⟨howned, rfl⟩ | ⟨-, hlocked⟩⟩ := tryLock_ok hlock
    · -- the row found is the new one, which nobody has locked
      have hnid : n.id = s.nextId := by simpa using List.find?_some hn
      have hmem : n ∈ s₃.nodes := List.mem_of_find?_eq_some hn
      rw [hins, htake] at hmem
      rcases List.mem_append.mp hmem with hold | hlast
      · exact absurd (hnid ▸ List.mem_map_of_mem hold) hnew
      · rw [List.mem_singleton.mp hlast] at howned
        cases howned
    · rw [hlocked, hins, htake, ← hid]
      exact (joined_insertNode hnew).symm
  rw [← hid] at hevent
  obtain ⟨tx, b, hfind, hs₄⟩ := next_inserted (c := Creation.insertNode
    (.start ctx projectSpaceId nodeType (trim (nvl logicalId)) externalId) s.toTables) rfl rfl hs₃ htx
  obtain ⟨c', hlast, hfinished, hs₈⟩ := next_attached rfl rfl hs₄ htake' hversion hfp hevent
  have hinserted : Creating.step env ⟨s, cs ++ [.start ctx projectSpaceId nodeType (trim (nvl logicalId)) externalId]⟩
      (.advance cs.length) = ⟨s.useId, cs ++ [Creation.insertNode
        (.start ctx projectSpaceId nodeType (trim (nvl logicalId)) externalId) s.toTables]⟩ :=
    step_advance_last (b := true) rfl
  rw [run_cons, hstart, run_cons, hinserted, run_cons, step_advance_last hfind, run_cons,
    step_advance_last hlast, run_cons, step_complete_last hfinished hs₈, run_nil]

end Uninterrupted

/-! ## Logical ids -/

/-- The logical ids of the stored nodes. -/
def Tables.logicalIds (t : Tables) : List String := t.nodes.filterMap (·.logicalId)

/-- No two nodes have the same logical id. -/
def Tables.LogicalIdsUnique (t : Tables) : Prop := t.logicalIds.Nodup

instance (t : Tables) : Decidable t.LogicalIdsUnique := inferInstanceAs (Decidable t.logicalIds.Nodup)

/-- A check that would pass is made while no request with the same logical id, trimmed, is in
flight. -/
def ChecksAlone (s : Creating) : CreatingEvent → Prop
  | .start _ _ _ logicalId _ => s.store.nodesByLogicalId (trim (nvl logicalId)) = [] →
      ∀ c ∈ s.creations, c.logicalId ≠ trim (nvl logicalId)
  | _ => True

theorem mem_logicalIds {t : Tables} {logicalId : String} :
    logicalId ∈ t.logicalIds ↔ t.nodesByLogicalId logicalId ≠ [] := by
  simp only [Tables.logicalIds, Tables.nodesByLogicalId, List.mem_filterMap, ne_eq,
    List.filter_eq_nil_iff, decide_eq_true_eq, not_forall, not_not, exists_prop]

theorem logicalIds_unlockNodes (t : Tables) (ids : List Uuid) :
    (t.unlockNodes ids).logicalIds = t.logicalIds := by
  simp only [Tables.logicalIds, Tables.unlockNodes, List.filterMap_map]
  refine List.filterMap_congr fun n _ => ?_
  simp only [Function.comp_apply]
  split <;> rfl

theorem logicalIds_setLock (t : Tables) (nodeId : Uuid) (owner : Option String) (since : Option Nat) :
    (t.setLock nodeId owner since).logicalIds = t.logicalIds := by
  simp only [Tables.logicalIds, Tables.setLock, List.filterMap_map]
  refine List.filterMap_congr fun n _ => ?_
  simp only [Function.comp_apply]
  split <;> rfl

theorem logicalIds_deleteOrphans (t : Tables) (ids : List Uuid) :
    (t.deleteOrphans ids).logicalIds.Sublist t.logicalIds :=
  List.filter_sublist.filterMap _

/-- A commit leaves the logical ids. -/
theorem commitTransaction_logicalIds {env : Env} {ctx : Caller} {x : Uuid} {comment : Option String}
    {selected : List Uuid} {o : Option Uuid} {s s' : Db}
    (h : Returns (commitTransaction env ctx x comment selected) s o s') :
    s'.logicalIds = s.logicalIds := by
  obtain ⟨-, s₁, es, hdefer, -, hs'⟩ := commitTransaction_ok h
  have hs₁ : s₁.logicalIds = s.logicalIds := by
    rcases deferNodes_ok hdefer with ⟨-, -, rfl⟩ | ⟨-, y, s₂, -, hopen, hs₁⟩
    · rfl
    · simp only [openTransaction, returns_bind, returns_randomUUID, returns_execute, returns_pure,
        and_assoc, exists_and_left, exists_eq_left, exists_const] at hopen
      obtain ⟨s₃, htake, s₄, hins, rfl, rfl⟩ := hopen
      rw [hs₁, Tables.deferTo, hins, htake]
      rfl
  rw [hs', ← hs₁]
  exact logicalIds_unlockNodes _ _

/-- A rollback leaves logical ids or removes them. -/
theorem rollbackTransaction_logicalIds {ctx : Caller} {x : Uuid} {s s' : Db} {u : Unit}
    (h : Returns (rollbackTransaction ctx x) s u s') : s'.logicalIds.Sublist s.logicalIds := by
  obtain ⟨-, es, hs'⟩ := rollbackTransaction_ok h
  rw [hs', ← logicalIds_unlockNodes s.toTables (s.affectedNodes x)]
  exact logicalIds_deleteOrphans _ _

theorem released_logicalIds (x nodeId : Uuid) (t : Tables) :
    (t.released x nodeId).logicalIds.Sublist t.logicalIds := by
  unfold Tables.released
  rw [logicalIds_setLock]
  exact logicalIds_deleteOrphans _ _

/-- A release leaves logical ids or removes them. -/
theorem releaseNodes_logicalIds {ctx : Caller} {x : Uuid} {nodeIds : List Uuid} {s s' : Db} {u : Unit}
    (h : Returns (releaseNodes ctx x nodeIds) s u s') : s'.logicalIds.Sublist s.logicalIds := by
  obtain ⟨-, ⟨-, rfl⟩ | ⟨es, hs'⟩⟩ := releaseNodes_ok h
  · exact List.Sublist.refl _
  have hdrop : ∀ t : Tables, (t.dropEmptyTx x).logicalIds = t.logicalIds := by
    intro t
    unfold Tables.dropEmptyTx
    split <;> rfl
  have heach : ∀ (ids : List Uuid) (t : Tables),
      (ids.foldl (fun t n => t.released x n) t).logicalIds.Sublist t.logicalIds := by
    intro ids
    induction ids with
    | nil => exact fun t => List.Sublist.refl _
    | cons n ns ih => exact fun t => (ih _).trans (released_logicalIds x n t)
  rw [hs']
  change ((nodeIds.foldl (fun t n => t.released x n) s.toTables).dropEmptyTx x).logicalIds.Sublist _
  rw [hdrop]
  exact heach nodeIds s.toTables

/-! ## The invariant -/

/-- The logical ids of the store and of the requests in flight are all different, and a request
inserts its node under its own. -/
structure Apart (s : Creating) : Prop where
  once : (s.store.logicalIds ++ s.creations.map (·.logicalId)).Nodup
  rows : ∀ c ∈ s.creations, ∀ n ∈ c.node, n.logicalId = some c.logicalId

theorem checkCreation_ok {env : Env} {nodeTypeId : String} {logicalId : Option String}
    {r : NodeTypeConfig × String} {s s' : Db}
    (h : Returns (checkCreation env nodeTypeId logicalId) s r s') :
    env.getNodeType nodeTypeId = some r.1 ∧ r.2 = trim (nvl logicalId)
      ∧ s.nodesByLogicalId (trim (nvl logicalId)) = [] := by
  simp only [checkCreation, returns_bind, returns_orElseThrow, returns_pure] at h
  obtain ⟨nodeType, _, ⟨hnodeType, rfl⟩, _, s₁, hlogical, rfl, -⟩ := h
  exact ⟨hnodeType, rfl, (checkLogicalId_ok hlogical).2⟩

/-- The next statements of a request keep its logical id. -/
theorem Creation.next_logicalId {env : Env} {t : Tables} {c c' : Creation} {b : Bool}
    (h : c.next env t = some (c', b)) (hrow : ∀ n ∈ c.node, n.logicalId = some c.logicalId) :
    c'.logicalId = c.logicalId ∧ ∀ n ∈ c'.node, n.logicalId = some c'.logicalId := by
  unfold Creation.next at h
  split at h
  · cases h
    refine ⟨rfl, ?_⟩
    rintro n ⟨⟩
    rfl
  · split at h
    · cases h
      exact ⟨rfl, hrow⟩
    · cases h
      exact ⟨rfl, hrow⟩
    · cases h
  · cases h
    exact ⟨rfl, hrow⟩
  · cases h
    exact ⟨rfl, hrow⟩

theorem logicalIds_joined {t : Tables} {c : Creation} (hrow : ∀ n ∈ c.node, n.logicalId = some c.logicalId) :
    (t.joined c).logicalIds = t.logicalIds ∨ (t.joined c).logicalIds = t.logicalIds ++ [c.logicalId] := by
  simp only [Tables.logicalIds, Tables.joined, List.filterMap_append]
  cases hnode : c.node with
  | none => simp
  | some n => simp [hrow n (by rw [hnode]; rfl)]

namespace Apart

variable {env : Env} {s : Creating}

/-- Fewer logical ids and fewer requests stay apart. -/
theorem mono {s' : Creating} (h : Apart s) (hstore : s'.store.logicalIds.Sublist s.store.logicalIds)
    (hcreations : s'.creations.Sublist s.creations) : Apart s' where
  once := h.once.sublist (hstore.append (hcreations.map _))
  rows c hc := h.rows c (hcreations.subset hc)

theorem execute (h : Apart s) {α : Type} {x : Plm α}
    (hx : ∀ a s', Returns x s.store a s' → s'.logicalIds.Sublist s.store.logicalIds) :
    Apart (s.execute x) := by
  unfold Creating.execute
  split
  · rename_i a store hrun
    exact h.mono (hx a store hrun) (List.Sublist.refl _)
  · exact h

theorem start (h : Apart s) {ctx : Caller} {projectSpaceId : Option String} {nodeTypeId : String}
    {logicalId externalId : Option String}
    (halone : ChecksAlone s (.start ctx projectSpaceId nodeTypeId logicalId externalId)) :
    Apart (s.step env (.start ctx projectSpaceId nodeTypeId logicalId externalId)) := by
  simp only [Creating.step]
  split
  · rename_i nodeType trimmed store hrun
    have hcheck : Returns (checkCreation env nodeTypeId logicalId) s.store (nodeType, trimmed) store :=
      hrun
    obtain ⟨-, hid, hnone⟩ := checkCreation_ok hcheck
    change trimmed = trim (nvl logicalId) at hid
    constructor
    · simp only [List.map_append, List.map_cons, List.map_nil, ← List.append_assoc]
      refine List.nodup_append.mpr ⟨h.once, List.nodup_singleton _, ?_⟩
      rintro a ha b hb rfl
      rw [List.mem_singleton] at hb
      change a = trimmed at hb
      rcases List.mem_append.mp ha with hstored | hflight
      · rw [hb, hid] at hstored
        exact mem_logicalIds.mp hstored hnone
      · obtain ⟨c, hc, hca⟩ := List.mem_map.mp hflight
        exact halone hnone c hc (hca.trans (hb.trans hid))
    · intro c hc
      rcases List.mem_append.mp hc with hold | hnew
      · exact h.rows c hold
      · rw [List.mem_singleton.mp hnew]
        rintro n ⟨⟩
  · exact h

theorem advance (h : Apart s) (i : Nat) : Apart (s.step env (.advance i)) := by
  simp only [Creating.step]
  split
  · exact h
  rename_i c hi
  have hmem : c ∈ s.creations := List.mem_of_getElem? hi
  have hset : ∀ (c' : Creation) (store : Db) b, c.next env s.store.toTables = some (c', b) →
      store.logicalIds = s.store.logicalIds → Apart ⟨store, s.creations.set i c'⟩ := by
    intro c' store b hnext hstore
    obtain ⟨hid, hrows⟩ := Creation.next_logicalId hnext (h.rows c hmem)
    constructor
    · have hids : (s.creations.set i c').map (·.logicalId) = s.creations.map (·.logicalId) := by
        obtain ⟨hlt, hget⟩ := List.getElem?_eq_some_iff.mp hi
        have hlt' : i < (s.creations.map (·.logicalId)).length := by
          rw [List.length_map]
          exact hlt
        have hold : c.logicalId = (s.creations.map (·.logicalId))[i] := by
          rw [List.getElem_map, hget]
        rw [List.map_set, hid, hold]
        exact List.set_getElem_self hlt'
      rw [hids, hstore]
      exact h.once
    · intro d hd
      rcases List.mem_or_eq_of_mem_set hd with hold | rfl
      · exact h.rows d hold
      · exact hrows
  split
  · exact h.mono (List.Sublist.refl _) (List.eraseIdx_sublist _ _)
  · rename_i c' hnext
    exact hset c' s.store.useId true hnext rfl
  · rename_i c' hnext
    exact hset c' s.store false hnext rfl

theorem complete (h : Apart s) (i : Nat) : Apart (s.step env (.complete i)) := by
  simp only [Creating.step]
  split
  · exact h
  rename_i c hi
  have hmem : c ∈ s.creations := List.mem_of_getElem? hi
  split
  swap
  · exact h
  have herase : Apart { s with creations := s.creations.eraseIdx i } :=
    h.mono (List.Sublist.refl _) (List.eraseIdx_sublist _ _)
  unfold Creating.complete
  split
  swap
  · exact herase
  refine ⟨?_, herase.rows⟩
  change ((s.store.joined c).logicalIds ++ (s.creations.eraseIdx i).map (·.logicalId)).Nodup
  rcases logicalIds_joined (h.rows c hmem) with hids | hids
  · rw [hids]
    exact herase.once
  · -- its logical id moves from the requests to the store
    rw [hids, List.append_assoc]
    have hperm : (s.creations.map (·.logicalId)).Perm
        ([c.logicalId] ++ (s.creations.eraseIdx i).map (·.logicalId)) := by
      obtain ⟨hlt, hget⟩ := List.getElem?_eq_some_iff.mp hi
      have herasedPerm := (List.getElem_cons_eraseIdx_perm hlt).symm.map (·.logicalId)
      rw [hget] at herasedPerm
      exact herasedPerm
    exact (hperm.append_left _).nodup_iff.mp h.once

/-- **Every step** of a run whose checks are alone keeps the logical ids apart. -/
theorem step (h : Apart s) {e : CreatingEvent} (halone : ChecksAlone s e) : Apart (s.step env e) := by
  cases e with
  | start ctx projectSpaceId nodeTypeId logicalId externalId => exact h.start halone
  | advance i => exact h.advance i
  | complete i => exact h.complete i
  | abort i => exact h.mono (List.Sublist.refl _) (List.eraseIdx_sublist _ _)
  | commit ctx txId comment selected =>
    apply h.execute
    intro o s' hrun
    rw [commitTransaction_logicalIds hrun]
  | rollback ctx txId => exact h.execute fun _ _ hrun => rollbackTransaction_logicalIds hrun
  | release ctx txId nodeIds => exact h.execute fun _ _ hrun => releaseNodes_logicalIds hrun

end Apart

/-! ## Any interleaving -/

/-- **Logical ids stay unique, whatever the interleaving**, as long as no check passes while a
request with the same logical id has passed its own and its database transaction has not ended. -/
theorem logical_ids_unique (env : Env) {store : Db} (hstart : store.LogicalIdsUnique)
    {es : List CreatingEvent} (halone : Along (Creating.step env) ChecksAlone ⟨store, []⟩ es) :
    (run (Creating.step env) ⟨store, []⟩ es).store.LogicalIdsUnique := by
  have hinit : Apart ⟨store, []⟩ := by
    constructor
    · rw [List.map_nil, List.append_nil]
      exact hstart
    · intro c hc
      cases hc
  have hreached := Along.invariant (fun _ _ h hgood => h.step hgood) hinit halone
  exact hreached.once.sublist (List.sublist_append_left _ _)

/-- Another user. -/
def buyer : Caller := ⟨"buyer", false, 0⟩

/-- Two requests one after the other; the second finds the first one's node. -/
theorem logical_ids_unique_one_by_one :
    (run (Creating.step partsEnv) ⟨Db.empty, []⟩
      [.start engineer none "nt-part" (some "P-1") none, .advance 0, .advance 0, .advance 0,
        .complete 0, .start buyer none "nt-part" (some "P-1 ") none]).store.LogicalIdsUnique := by
  refine logical_ids_unique partsEnv (by decide) ⟨?_, trivial, trivial, trivial, trivial, ?_, trivial⟩
  · intro _ c hc
    cases hc
  · intro _ c hc
    have hnone : (run (Creating.step partsEnv) ⟨Db.empty, []⟩
      [.start engineer none "nt-part" (some "P-1") none, .advance 0, .advance 0, .advance 0,
        .complete 0]).creations = [] := by decide +kernel
    exact absurd (hnone ▸ hc) List.not_mem_nil

/-- The requests of two users for one logical id, each with its check before the other's commit. -/
def twoRequests : List CreatingEvent :=
  [.start engineer none "nt-part" (some "P-1") none, .start buyer none "nt-part" (some "P-1") none,
    .advance 0, .advance 0, .advance 0, .advance 1, .advance 1, .advance 1, .complete 0, .complete 0]

/-- Both nodes are stored. -/
theorem two_requests_one_logical_id :
    (run (Creating.step partsEnv) ⟨Db.empty, []⟩ twoRequests).store.logicalIds = ["P-1", "P-1"]
      ∧ ¬ (run (Creating.step partsEnv) ⟨Db.empty, []⟩ twoRequests).store.LogicalIdsUnique := by
  have hids : (run (Creating.step partsEnv) ⟨Db.empty, []⟩ twoRequests).store.logicalIds
      = ["P-1", "P-1"] := by decide +kernel
  refine ⟨hids, ?_⟩
  intro hunique
  rw [Tables.LogicalIdsUnique, hids] at hunique
  revert hunique
  decide

end PlmCore.Psm
