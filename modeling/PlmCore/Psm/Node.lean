/-
`NodeService`: creating a node, checking it out, and modifying its attributes.

All three take the lock and end with an open version of the node in a transaction of the
caller. The order matters elsewhere: `createNode` and `checkout` lock before they look
for the transaction, `modifyNode` relies on the transaction it is given.
-/
import PlmCore.Psm.Transaction

set_option autoImplicit false

namespace PlmCore.Psm

open PlmCore.Lib

/-! ## The search payload -/

/-- The current version of the search payload: the newest one, committed or open. -/
def Tables.newestVersion (t : Tables) (nodeId : Uuid) : Option VersionRow :=
  Tables.latest (t.versionsOf nodeId)

/-- The attributes in scope for a version: those of the node type, then those of the
assigned domains that bring a new name. -/
def attributesInScope (env : Env) (t : Tables) (n : NodeRow) (v : VersionRow) :
    List ResolvedAttribute :=
  let base := env.typeAttributes n.nodeTypeId
  base ++ ((t.domainsOf v.id).flatMap fun d => (env.getDomainAttributes d.domainId).filter
    fun a => a.name ∉ base.map (·.name))

/-- `NodeService.buildNodePayload`; the empty payload is `none`. -/
def buildNodePayload (env : Env) (t : Tables) (nodeId : Uuid) : Option NodePayload := do
  let n ← t.node? nodeId
  let v ← t.newestVersion nodeId
  let values := t.attributeMap v.id
  let fields := (attributesInScope env t n v).filterMap fun a =>
    ((values.lookup a.id).bind id).bind fun raw => if isBlank raw then none else some (a.name, raw)
  pure
    { typeCode := n.nodeTypeId
      projectSpaceId := nvl n.projectSpaceId
      logicalId := nvl n.logicalId
      revision := v.revision
      iteration := v.iteration
      stateName := env.resolveStateName v.lifecycleStateId
      fields := fields }

/-! ## Creating -/

/-- `INSERT INTO node`. -/
def Tables.insertNode (n : NodeRow) (t : Tables) : Tables := { t with nodes := t.nodes ++ [n] }

/-- The row `createNode` inserts. -/
def newNode (ctx : Caller) (nodeId : Uuid) (projectSpaceId : Option String) (nodeTypeId : String)
    (logicalId : String) (externalId : Option String) : NodeRow where
  id := nodeId
  nodeTypeId := nodeTypeId
  projectSpaceId := projectSpaceId
  logicalId := some logicalId
  externalId := if nullOrBlank externalId then none else externalId.map trim
  lockedBy := none
  lockedAt := none
  createdAt := ctx.now
  createdBy := ctx.userId

/-- The initial state of the lifecycle of a node type. -/
def initialState (env : Env) (nodeType : NodeTypeConfig) : Option String :=
  ((nodeType.lifecycleId.bind env.getLifecycle).bind fun lc =>
    lc.states.find? (·.isInitial)).map (·.id)

/-- The initial version: number 1, `A.1`, open. -/
def initialVersion (ctx : Caller) (versionId nodeId txId : Uuid) (state : Option String) :
    VersionRow where
  id := versionId
  nodeId := nodeId
  versionNumber := 1
  revision := "A"
  iteration := 1
  lifecycleStateId := state
  changeType := .CONTENT
  changeDescription := some "Initial creation"
  txId := txId
  previousVersionId := none
  previousVersionFingerprint := none
  fingerprint := none
  branch := "main"
  createdAt := ctx.now
  createdBy := ctx.userId

/-- The label of the logical id in messages. -/
def logicalIdLabel (nodeType : NodeTypeConfig) : String :=
  if nullOrBlank nodeType.logicalIdLabel then "Identifier" else nvl nodeType.logicalIdLabel

/-- The checks of `createNode` on the trimmed logical id. -/
def checkLogicalId (env : Env) (nodeType : NodeTypeConfig) (logicalId : String) : Plm Unit := do
  let label := logicalIdLabel nodeType
  let pattern := nvl nodeType.logicalIdPattern
  require (logicalId ≠ "") (.illegalArgument ("'" ++ label ++ "' is required"))
  require (nullOrBlank nodeType.logicalIdPattern = true ∨ env.regexMatches logicalId pattern = true)
    (.illegalArgument ("'" ++ label ++ "' value '" ++ logicalId ++ "' does not match pattern: "
      ++ pattern))
  let dup ← query (·.nodesByLogicalId logicalId)
  require (dup = [])
    (.illegalArgument ("A node with " ++ label ++ " '" ++ logicalId ++ "' already exists"))

/-- `NodeService.createNode`. -/
def createNode (env : Env) (ctx : Caller) (projectSpaceId : Option String) (nodeTypeId : String)
    (logicalId externalId : Option String) : Plm Uuid := do
  let nodeType ← orElseThrow (env.getNodeType nodeTypeId)
    (.illegalArgument ("NodeType not found: " ++ nodeTypeId))
  let trimmedLogicalId := trim (nvl logicalId)
  checkLogicalId env nodeType trimmedLogicalId
  let nodeId ← randomUUID
  execute (Tables.insertNode
    (newNode ctx nodeId projectSpaceId nodeTypeId trimmedLogicalId externalId))
  tryLock ctx nodeId
  let creationTxId ← findOrOpenTransaction ctx
  let versionId ← randomUUID
  execute (Tables.insertVersion
    (initialVersion ctx versionId nodeId creationTxId (initialState env nodeType)))
  storeFingerprint env nodeId versionId
  let payload ← query fun s => buildNodePayload env s.toTables nodeId
  enqueue (.itemCreated nodeId nodeTypeId ctx.userId projectSpaceId payload)
  pure nodeId

/-! ## Checking out -/

/-- `NodeService.assertNotFrozen`, on the last committed version. -/
def assertNotFrozen (env : Env) (nodeId : Uuid) : Plm Unit := do
  let current ← query (·.getLastCommittedVersion nodeId)
  match current.bind (·.lifecycleStateId) with
  | none => pure ()
  | some stateId =>
    require (env.isTrue "LIFECYCLE_STATE" stateId "frozen" = false) (.frozenState nodeId stateId)

/-- `NodeService.resolveCheckoutStrategy`. -/
def resolveCheckoutStrategy (env : Env) (t : Tables) (nodeId : Uuid) : VersionStrategy :=
  match ((t.node? nodeId).bind fun n => env.getNodeType n.nodeTypeId).bind (·.versionPolicy) with
  | some "NONE" => .NONE
  | some "RELEASE" => .REVISE
  | _ => .ITERATE

/-- The transaction of a request: the given one, or the caller's open one, or a new one. -/
def resolveTransaction (ctx : Caller) (txId : Option Uuid) : Plm Uuid :=
  match txId with
  | some txId => pure txId
  | none => findOrOpenTransaction ctx

/-- `NodeService.checkout`. -/
def checkout (env : Env) (ctx : Caller) (nodeId : Uuid) (txId : Option Uuid) : Plm Uuid := do
  assertNotFrozen env nodeId
  tryLock ctx nodeId
  let finalTxId ← resolveTransaction ctx txId
  let existing ← query (·.findOpenVersionInTx nodeId finalTxId)
  match existing with
  | some v => pure v.id
  | none => do
    let strategy ← query fun s => resolveCheckoutStrategy env s.toTables nodeId
    let newVersionId ←
      createVersion env ctx nodeId finalTxId .CONTENT (some strategy) none [] (some "Checkout")
    enqueue (.itemCaptured nodeId finalTxId ctx.userId)
    pure newVersionId

/-! ## Modifying -/

/-- `validationService.assertWritable`. -/
def assertWritable (env : Env) (nodeId : Uuid) (attributes : List (String × Option String)) :
    Plm Unit := do
  let hard ← query fun s =>
    env.hardViolations s.toTables ((s.node? nodeId).map (·.nodeTypeId)) attributes nodeId
  require (hard = []) (.validation hard)

/-- Writes the attributes into the version the transaction holds of the node, or into a new
one. -/
def writeAttributes (env : Env) (ctx : Caller) (nodeId txId : Uuid)
    (attributes : List (String × Option String)) (description : Option String)
    (strategy : VersionStrategy) : Plm Uuid := do
  let existing ← query (·.findOpenVersionInTx nodeId txId)
  match existing with
  | some v => updateVersionAttributes env v.id attributes description
  | none => createVersion env ctx nodeId txId .CONTENT (some strategy) none attributes description

/-- `NodeService.modifyNode`. -/
def modifyNode (env : Env) (ctx : Caller) (nodeId txId : Uuid)
    (attributes : List (String × Option String)) (description : Option String)
    (strategy : Option VersionStrategy) : Plm Uuid := do
  assertNotFrozen env nodeId
  tryLock ctx nodeId
  assertWritable env nodeId attributes
  let versionId ←
    writeAttributes env ctx nodeId txId attributes description (strategy.getD .ITERATE)
  let payload ← query fun s => buildNodePayload env s.toTables nodeId
  enqueue (.itemUpdated nodeId ctx.userId payload)
  pure versionId

/-! ## A small store -/

/-- Creates a part, the node `0` of an empty store, and commits it. -/
def commitPart : Plm Unit := do
  let _ ← createNode partsEnv engineer none "nt-part" (some "P-1") none
  let txId ← findOrOpenTransaction engineer
  let _ ← commitTransaction partsEnv engineer txId (some "first") []
  pure ()

end PlmCore.Psm
