/-
`PlmTransactionService`: opening, committing, releasing and rolling back a PLM
transaction, and the hourly cleanup of stale ones.

Each of these runs in one database transaction. Rollback, release and cleanup share the
deletion of the versions of a transaction with everything that hangs on them
(`purgeVersions`); they differ in which versions they select, in whether they unlock the
nodes, and in what they do with nodes left without a version.
-/
import PlmCore.Psm.Version

set_option autoImplicit false

namespace PlmCore.Psm

open PlmCore.Lib

/-! ## Opening -/

/-- `INSERT INTO plm_transaction … 'OPEN'`. -/
def Tables.insertTransaction (id : Uuid) (ctx : Caller) (t : Tables) : Tables :=
  { t with txs := t.txs ++ [⟨id, ctx.userId, .OPEN, none, ctx.now, none⟩] }

/-- `PlmTransactionService.openTransaction`. -/
def openTransaction (ctx : Caller) : Plm Uuid := do
  let txId ← randomUUID
  execute (Tables.insertTransaction txId ctx)
  pure txId

/-- `PlmTransactionService.findOpenTransaction`. -/
def findOpenTransaction (userId : String) : Plm (Option Uuid) := do
  let row ← fetchOne fun s => s.openTransactionsOf userId
  pure (row.map (·.id))

/-- The open transaction of the caller, opened when there is none. -/
def findOrOpenTransaction (ctx : Caller) : Plm Uuid := do
  let existing ← findOpenTransaction ctx.userId
  match existing with
  | some txId => pure txId
  | none => openTransaction ctx

/-! ## Committing -/

/-- `PlmTransactionService.loadAndVerifyOwnership`. -/
def loadAndVerifyOwnership (ctx : Caller) (txId : Uuid) : Plm Unit := do
  let row ← query (·.tx? txId)
  let tx ← orElseThrow row (.illegalArgument ("Transaction not found: " ++ toString txId))
  require (ctx.isAdmin = true ∨ ctx.userId = tx.ownerId)
    (.accessDenied ("User " ++ ctx.userId ++ " does not own transaction " ++ toString txId))
  require (tx.status = .OPEN)
    (.illegalState ("Transaction " ++ toString txId ++ " is already COMMITTED"))

/-- `node_version` rows of a transaction. -/
def Tables.versionsInTx (t : Tables) (txId : Uuid) : List VersionRow :=
  t.versions.filter (·.txId = txId)

/-- The distinct nodes of a list of versions, in order of first appearance. -/
def nodeIdsOf (vs : List VersionRow) : List Uuid := (vs.map (·.nodeId)).eraseDups

/-- `UPDATE node_version SET tx_id = ? WHERE tx_id = ? AND node_id = ?`. -/
def Tables.moveVersions (fromTx toTx nodeId : Uuid) (t : Tables) : Tables :=
  { t with versions := t.versions.map fun v =>
      if v.txId = fromTx ∧ v.nodeId = nodeId then { v with txId := toTx } else v }

/-- The nodes of the transaction a partial commit leaves out. -/
def deferredNodeIds (allNodeIds selectedNodeIds : List Uuid) : List Uuid :=
  if selectedNodeIds = [] then [] else allNodeIds.filter (· ∉ selectedNodeIds)

/-- Moves the deferred nodes to a new transaction, the continuation of a partial commit. -/
def deferNodes (ctx : Caller) (txId : Uuid) (deferred : List Uuid) : Plm (Option Uuid) :=
  if deferred = [] then pure none
  else do
    let continuationTxId ← openTransaction ctx
    deferred.forM fun nodeId => execute (Tables.moveVersions txId continuationTxId nodeId)
    pure (some continuationTxId)

/-- `getOrComputeFingerPrint` of a stored version: the stored value unless it is null or
blank. -/
def getOrComputeFingerPrint (env : Env) (nodeId versionId : Uuid) : Plm String := do
  let version ← query (·.version? versionId)
  match version.bind (·.fingerprint) with
  | some stored => if isBlank stored then compute env nodeId versionId else pure stored
  | none => compute env nodeId versionId

/-- Whether the no-op check of the commit flags a version: its fingerprint is its
predecessor's. -/
def isNoOp (env : Env) (v : VersionRow) : Plm Bool := do
  let fp ← getOrComputeFingerPrint env v.nodeId v.id
  match v.previousVersionId with
  | none => pure false
  | some prevVersionId => do
    let parentFp ← getOrComputeFingerPrint env v.nodeId prevVersionId
    pure (fp == parentFp)

/-- The label of a flagged version in the error message. -/
def noOpLabel (t : Tables) (v : VersionRow) : String :=
  ((t.node? v.nodeId).bind (·.logicalId)).getD (toString v.nodeId) ++ " [" ++ v.revision ++ "."
    ++ toString v.iteration ++ "]"

/-- The versions the no-op check flags. -/
def collectNoOps (env : Env) : List VersionRow → Plm (List VersionRow)
  | [] => pure []
  | v :: vs => do
    let flagged ← isNoOp env v
    let rest ← collectNoOps env vs
    pure (if flagged then v :: rest else rest)

/-- Rejects the commit when some version has its predecessor's fingerprint. -/
def rejectNoOps (env : Env) (versions : List VersionRow) : Plm Unit := do
  let noOps ← collectNoOps env versions
  let labels ← query fun s => noOps.map (noOpLabel s.toTables)
  require (noOps = []) (.illegalState
    ("Nothing to commit — no changes detected for: " ++ String.intercalate ", " labels))

/-- What `collectVersionViolations` asks about a stored version. -/
def versionRequest (t : Tables) (v : VersionRow) (n : NodeRow) : ValidationRequest where
  nodeTypeId := some n.nodeTypeId
  targetStateId := v.lifecycleStateId
  values := t.attributeMap v.id
  currentStateId := none
  currentVersionId := some v.id
  logicalId := n.logicalId
  changedKeys := none

/-- `ValidationService.collectVersionViolations`. -/
def collectVersionViolations (env : Env) (t : Tables) (v : VersionRow) : List Violation :=
  match t.node? v.nodeId with
  | none => []
  | some n => env.collectViolations t (versionRequest t v n)

/-- The built-in `attribute-validation` validator, the only one registered: the violations
of every version, prefixed with its revision and iteration. -/
def commitViolations (env : Env) (t : Tables) (versions : List VersionRow) : List Violation :=
  versions.flatMap fun v => (collectVersionViolations env t v).map fun w =>
    { w with
      code := "COMMIT_VIOLATION"
      message := "[" ++ v.revision ++ "." ++ toString v.iteration ++ "] " ++ w.message }

/-- `UPDATE plm_transaction SET status = 'COMMITTED', …`. -/
def Tables.commitTx (txId : Uuid) (comment : String) (now : Nat) (t : Tables) : Tables :=
  { t with txs := t.txs.map fun x =>
      if x.id = txId then
        { x with status := .COMMITTED, commitComment := some comment, committedAt := some now }
      else x }

/-- `PlmTransactionService.commitTransaction`. The empty selection commits every node. -/
def commitTransaction (env : Env) (ctx : Caller) (txId : Uuid) (comment : Option String)
    (selectedNodeIds : List Uuid) : Plm (Option Uuid) := do
  loadAndVerifyOwnership ctx txId
  require (nullOrBlank comment = false) (.illegalArgument "Commit comment is required")
  let allNodeIds ← query fun s => nodeIdsOf (s.versionsInTx txId)
  -- deferred nodes move to a new transaction; their locks stay where they are
  let continuationTxId ← deferNodes ctx txId (deferredNodeIds allNodeIds selectedNodeIds)
  let openVersions ← query (·.versionsInTx txId)
  require (openVersions ≠ []) (.illegalState "No objects selected for commit")
  rejectNoOps env openVersions
  let violations ← query fun s => commitViolations env s.toTables openVersions
  require (violations = []) (.validation violations)
  execute (Tables.commitTx txId (nvl comment) ctx.now)
  -- the post-commit hook, then the locks
  (nodeIdsOf openVersions).forM fun nodeId => enqueue (.itemVersionCreated nodeId ctx.userId)
  openVersions.forM fun v => unlock v.nodeId
  enqueue (.transactionCommitted txId (nodeIdsOf openVersions) ctx.userId)
  pure continuationTxId

/-! ## Deleting versions -/

/-- The versions a deletion selects. -/
abbrev VersionSelection := VersionRow → Bool

/-- `SELECT id FROM node_version WHERE …`. -/
def Tables.selectVersionIds (p : VersionSelection) (t : Tables) : List Uuid :=
  (t.versions.filter p).map (·.id)

/-- `SELECT id FROM node_version_link WHERE source_node_version_id IN (…)`. -/
def Tables.selectLinkIds (p : VersionSelection) (t : Tables) : List Uuid :=
  (t.links.filter fun l => l.sourceNodeVersionId ∈ t.selectVersionIds p).map (·.id)

/-- `DELETE FROM baseline_entry WHERE node_link_id IN (…)`. -/
def Tables.deleteBaselineEntries (p : VersionSelection) (t : Tables) : Tables :=
  { t with baselineEntries := t.baselineEntries.filter (·.nodeLinkId ∉ t.selectLinkIds p) }

/-- `DELETE FROM node_version_attribute WHERE node_version_id IN (…)`. -/
def Tables.deleteAttributes (p : VersionSelection) (t : Tables) : Tables :=
  { t with attributes := t.attributes.filter (·.nodeVersionId ∉ t.selectVersionIds p) }

/-- `DELETE FROM node_signature WHERE node_version_id IN (…)`. -/
def Tables.deleteSignatures (p : VersionSelection) (t : Tables) : Tables :=
  { t with signatures := t.signatures.filter (·.nodeVersionId ∉ t.selectVersionIds p) }

/-- `DELETE FROM node_version_link WHERE source_node_version_id IN (…)`, with the cascade to
the link attributes. -/
def Tables.deleteLinks (p : VersionSelection) (t : Tables) : Tables :=
  { t with
    links := t.links.filter (·.sourceNodeVersionId ∉ t.selectVersionIds p)
    linkAttributes := t.linkAttributes.filter (·.nodeLinkId ∉ t.selectLinkIds p) }

/-- `DELETE FROM node_version WHERE …`, with the cascade to the domain assignments. -/
def Tables.deleteVersions (p : VersionSelection) (t : Tables) : Tables :=
  { t with
    versions := t.versions.filter fun v => ¬ p v
    domains := t.domains.filter (·.nodeVersionId ∉ t.selectVersionIds p) }

/-- The five deletions that rollback, release and cleanup run in this order. -/
def purgeVersions (p : VersionSelection) : Plm Unit := do
  execute (Tables.deleteBaselineEntries p)
  execute (Tables.deleteAttributes p)
  execute (Tables.deleteSignatures p)
  execute (Tables.deleteLinks p)
  execute (Tables.deleteVersions p)

/-- `DELETE FROM plm_transaction WHERE id = ?`. -/
def Tables.deleteTx (txId : Uuid) (t : Tables) : Tables :=
  { t with txs := t.txs.filter (·.id ≠ txId) }

/-- The node has no version. -/
def Tables.isOrphan (t : Tables) (nodeId : Uuid) : Bool := t.versionsOf nodeId = []

/-- `DELETE FROM node WHERE id IN (…) AND NOT EXISTS (…)`. -/
def Tables.deleteOrphans (nodeIds : List Uuid) (t : Tables) : Tables :=
  { t with nodes := t.nodes.filter fun n => ¬ (n.id ∈ nodeIds ∧ t.isOrphan n.id) }

/-! ## Releasing -/

/-- The part of `releaseNodes` for one node. It returns whether the node was deleted. -/
def releaseNode (txId nodeId : Uuid) : Plm Bool := do
  purgeVersions fun v => v.txId = txId ∧ v.nodeId = nodeId
  let orphaned ← query (·.isOrphan nodeId)
  execute fun t => if orphaned then { t with nodes := t.nodes.filter (·.id ≠ nodeId) } else t
  unlock nodeId
  pure orphaned

/-- The nodes of a list that `releaseNode` deleted. -/
def releaseEach (txId : Uuid) : List Uuid → Plm (List Uuid)
  | [] => pure []
  | nodeId :: rest => do
    let orphaned ← releaseNode txId nodeId
    let deleted ← releaseEach txId rest
    pure (if orphaned then nodeId :: deleted else deleted)

/-- `if (!survivingIds.isEmpty()) eventPublisher.itemsReleased(…)`. -/
def publishItemsReleased (ctx : Caller) (survivingIds : List Uuid) : Plm Unit :=
  if survivingIds = [] then pure () else enqueue (.itemsReleased survivingIds ctx.userId)

/-- `PlmTransactionService.releaseNodes`. The post-rollback hooks emit the deletions. -/
def releaseNodes (ctx : Caller) (txId : Uuid) (nodeIds : List Uuid) : Plm Unit := do
  loadAndVerifyOwnership ctx txId
  if nodeIds = [] then pure ()
  else do
    let deletedNodeIds ← releaseEach txId nodeIds
    -- an empty transaction is deleted
    execute fun t => if t.versionsInTx txId = [] then t.deleteTx txId else t
    publishItemsReleased ctx (nodeIds.filter (· ∉ deletedNodeIds))
    deletedNodeIds.forM fun nodeId => enqueue (.itemDeleted nodeId ctx.userId)

/-! ## Rolling back -/

/-- `PlmTransactionService.rollbackTransaction`. -/
def rollbackTransaction (ctx : Caller) (txId : Uuid) : Plm Unit := do
  loadAndVerifyOwnership ctx txId
  let affectedNodeIds ← query fun s => nodeIdsOf (s.versionsInTx txId)
  affectedNodeIds.forM unlock
  purgeVersions fun v => v.txId = txId
  let deletedNodeIds ← query fun s => affectedNodeIds.filter (s.isOrphan ·)
  execute (Tables.deleteOrphans affectedNodeIds)
  execute (Tables.deleteTx txId)
  enqueue (.transactionRolledBack txId affectedNodeIds ctx.userId)
  deletedNodeIds.forM fun nodeId => enqueue (.itemDeleted nodeId ctx.userId)

/-! ## Cleanup -/

/-- 24 hours, in seconds. -/
def staleAfter : Nat := 86400

/-- `status = 'OPEN' AND created_at < now - 24h`. -/
def TransactionRow.isStale (now : Nat) (x : TransactionRow) : Bool :=
  x.status = .OPEN ∧ x.createdAt + staleAfter < now

/-- `PlmTransactionService.cleanStaleTransactions`, run by the scheduler at time `now`. -/
def cleanStaleTransactions (now : Nat) : Plm Unit := do
  let staleTxIds ← query fun s => (s.txs.filter (·.isStale now)).map (·.id)
  staleTxIds.forM fun txId => do
    purgeVersions fun v => v.txId = txId
    execute (Tables.deleteTx txId)

end PlmCore.Psm
