/-
`BaselineService`: recording the versions a structure resolves to, and reading a baseline
back.

`createBaseline` walks the structure from a frozen root. A link without a version suffix
is resolved to the last committed version of its target and recorded as `key@number`; any
other link is recorded with its key as it stands. `getBaselineContent` splits a recorded key
again and joins it back to a node and a version.
-/
import PlmCore.Psm.Link

set_option autoImplicit false

namespace PlmCore.Psm

open PlmCore.Lib

/-! ## Recording -/

/-- `INSERT INTO baseline`. -/
def Tables.insertBaseline (b : BaselineRow) (t : Tables) : Tables :=
  { t with baselines := t.baselines ++ [b] }

/-- `INSERT INTO baseline_entry`. -/
def Tables.insertBaselineEntry (e : BaselineEntryRow) (t : Tables) : Tables :=
  { t with baselineEntries := t.baselineEntries ++ [e] }

/-- The links `resolveAndRecord` finds for a parent, each with its target node: a left join,
so a link without a target keeps one row. -/
def Tables.baselineLinks (t : Tables) (parentNodeId : Uuid) : List (LinkRow × Option NodeRow) :=
  (t.links.filter (t.isLinkOf parentNodeId)).flatMap fun l =>
    match if l.targetSourceId = "SELF" then t.joinedTargets l else [] with
    | [] => [(l, none)]
    | targets => targets.map fun n => (l, some n)

/-- The link is resolved when the baseline is taken, not pinned when it was written. -/
def isMasterLink (env : Env) (l : LinkRow) : Bool :=
  l.targetSourceId = "SELF"
    ∧ (env.getLinkType l.linkTypeId).bind (·.linkPolicy) = some "VERSION_TO_MASTER"
    ∧ hasAt l.targetKey = false

/-- Records a resolved link and goes on below its target. Targets that do not resolve, and
targets without a committed version, are skipped. -/
def recordMaster (baselineId : Uuid) (descend : Uuid → Plm Unit) (l : LinkRow)
    (target : Option NodeRow) : Plm Unit :=
  match target with
  | none => pure ()
  | some n => do
    let current ← query (·.getLastCommittedVersion n.id)
    match current with
    | none => pure ()
    | some v => do
      execute (Tables.insertBaselineEntry
        ⟨baselineId, l.id, l.targetKey ++ "@" ++ toString v.versionNumber⟩)
      descend n.id

/-- One row of `resolveAndRecord`. -/
def recordLink (env : Env) (baselineId : Uuid) (descend : Uuid → Plm Unit)
    (row : LinkRow × Option NodeRow) : Plm Unit :=
  if isMasterLink env row.1 then recordMaster baselineId descend row.1 row.2
  else execute (Tables.insertBaselineEntry ⟨baselineId, row.1.id, row.1.targetKey⟩)

/-- `BaselineService.resolveAndRecord`, on a call stack of the given depth. -/
def resolveAndRecord (env : Env) (baselineId : Uuid) : Nat → Uuid → Plm Unit
  | 0, _ => throw .stackOverflow
  | depth + 1, parentNodeId => do
    let rows ← query (·.baselineLinks parentNodeId)
    rows.forM (recordLink env baselineId (resolveAndRecord env baselineId depth))

/-- `BaselineService.assertNodeIsFrozen`. -/
def assertNodeIsFrozen (env : Env) (nodeId : Uuid) : Plm Unit := do
  let row ← query (·.getLastCommittedVersion nodeId)
  let current ← orElseThrow row (.illegalState ("Node has no version: " ++ toString nodeId))
  let stateId ← orElseThrow current.lifecycleStateId
    (.illegalState ("Node has no lifecycle state: " ++ toString nodeId))
  require (env.isTrue "LIFECYCLE_STATE" stateId "frozen" = true)
    (.illegalState ("Node " ++ toString nodeId ++ " must be in Frozen state before creating a "
      ++ "baseline. Apply CASCADE_FROZEN transition first."))

/-- `BaselineService.createBaseline`. -/
def createBaseline (env : Env) (ctx : Caller) (depth : Nat) (rootNodeId : Uuid) (name : String)
    (description : Option String) : Plm Uuid := do
  assertNodeIsFrozen env rootNodeId
  let baselineId ← randomUUID
  execute (Tables.insertBaseline ⟨baselineId, name, description, ctx.now, ctx.userId⟩)
  resolveAndRecord env baselineId depth rootNodeId
  enqueue (.baselineCreated baselineId name ctx.userId)
  pure baselineId

/-! ## Reading -/

/-- `SUBSTR(resolved_key, 1, POSITION('@' IN resolved_key) - 1)`: empty without an `@`. -/
def recordedLogicalId (resolvedKey : String) : String :=
  if hasAt resolvedKey then beforeAt resolvedKey else ""

/-- `CAST(SUBSTR(resolved_key, POSITION('@' IN resolved_key) + 1) AS INT)`. -/
def recordedNumber (resolvedKey : String) : Option Int :=
  castInt (if hasAt resolvedKey then afterAt resolvedKey else resolvedKey)

/-- A row of `getBaselineContent`. -/
structure BaselineContentRow where
  entry : BaselineEntryRow
  linkTypeId : String
  target : LinkTarget
  nodeId : Option Uuid
  logicalId : Option String
  nodeVersionId : Option Uuid
  versionNumber : Option Nat
  revision : Option String
  iteration : Option Nat
  lifecycleStateId : Option String
  deriving DecidableEq

namespace Tables

variable (t : Tables)

/-- The entries of a baseline with the links they record. -/
def entriesWithLinks (baselineId : Uuid) : List (BaselineEntryRow × LinkRow) :=
  (t.baselineEntries.filter (·.baselineId = baselineId)).flatMap fun e =>
    (t.links.filter (·.id = e.nodeLinkId)).map fun l => (e, l)

/-- The nodes joined to an entry. -/
def recordedNodes (e : BaselineEntryRow) (l : LinkRow) : List NodeRow :=
  t.nodes.filter fun n => l.targetSourceId = "SELF"
    ∧ n.logicalId = some (recordedLogicalId e.resolvedKey) ∧ n.nodeTypeId = l.targetType

/-- The versions joined to an entry and a node. -/
def recordedVersions (e : BaselineEntryRow) (n : NodeRow) : List VersionRow :=
  t.versions.filter fun v => v.nodeId = n.id
    ∧ recordedNumber e.resolvedKey = some (v.versionNumber : Int)

/-- The conversion of the version number is evaluated for every entry with a node, and does
not fail for any. -/
def isReadableBaseline (baselineId : Uuid) : Bool :=
  (t.entriesWithLinks baselineId).all fun el =>
    t.recordedNodes el.1 el.2 = [] ∨ (recordedNumber el.1.resolvedKey).isSome

/-- One row of the content. -/
def contentRow (e : BaselineEntryRow) (l : LinkRow) (n : Option NodeRow) (v : Option VersionRow) :
    BaselineContentRow where
  entry := e
  linkTypeId := l.linkTypeId
  target := l.target
  nodeId := n.map (·.id)
  logicalId := n.bind (·.logicalId)
  nodeVersionId := v.map (·.id)
  versionNumber := v.map (·.versionNumber)
  revision := v.map (·.revision)
  iteration := v.map (·.iteration)
  lifecycleStateId := v.bind (·.lifecycleStateId)

/-- The rows of a joined node: one without a version when no version is joined. -/
def nodeContentRows (e : BaselineEntryRow) (l : LinkRow) (n : NodeRow) : List BaselineContentRow :=
  match t.recordedVersions e n with
  | [] => [contentRow e l (some n) none]
  | versions => versions.map fun v => contentRow e l (some n) (some v)

/-- The rows of an entry: one without a node when no node is joined. -/
def entryContentRows (e : BaselineEntryRow) (l : LinkRow) : List BaselineContentRow :=
  match t.recordedNodes e l with
  | [] => [contentRow e l none none]
  | nodes => nodes.flatMap (t.nodeContentRows e l)

end Tables

/-- `ORDER BY n.id, nv.version_number`, rows without a node or a version first. -/
def BaselineContentRow.sortKey (r : BaselineContentRow) : List Nat × List Nat :=
  (r.nodeId.toList, r.versionNumber.toList)

/-- `BaselineService.getBaselineContent`. -/
def getBaselineContent (t : Tables) (baselineId : Uuid) : Except PlmError (List BaselineContentRow) :=
  if t.isReadableBaseline baselineId then
    .ok (((t.entriesWithLinks baselineId).flatMap fun el =>
      t.entryContentRows el.1 el.2).insertionSort fun a b =>
        a.sortKey.1 < b.sortKey.1 ∨ (a.sortKey.1 = b.sortKey.1 ∧ a.sortKey.2 ≤ b.sortKey.2))
  else .error .dataIntegrity

end PlmCore.Psm
