/-
What psm-api reads from its configuration: the metamodel snapshot of `ConfigCache`, and
the caller of a request.

`Env` is that snapshot. Its lists are the configured node types, link types, lifecycles
and state actions; its functions are the parts the services only consult: the attribute
validators (`ValidationService`), the resolvers of sources other than SELF, regular
expressions and the digest. The services below are stated for every `Env`, so nothing in
this development depends on what a validator accepts or on which digest is used.
-/
import Mathlib.Data.List.MinMax
import PlmCore.Lib.JavaText
import PlmCore.Psm.Schema

set_option autoImplicit false

namespace PlmCore.Psm

open PlmCore.Lib

/-! ## The metamodel -/

/-- `Enums.VersionStrategy`. -/
inductive VersionStrategy
  | NONE
  | ITERATE
  | REVISE
  deriving DecidableEq

/-- `NodeTypeConfig`, without the display columns. -/
structure NodeTypeConfig where
  id : String
  name : String
  lifecycleId : Option String
  logicalIdLabel : Option String
  logicalIdPattern : Option String
  versionPolicy : Option String
  parentNodeTypeId : Option String
  ancestorChain : List String

/-- `LinkTypeCascadeConfig`. -/
structure LinkTypeCascadeConfig where
  parentTransitionId : String
  childFromStateId : String
  childTransitionId : String

/-- `LinkTypeConfig`, without the display columns. -/
structure LinkTypeConfig where
  id : String
  name : String
  sourceNodeTypeId : Option String
  targetSourceId : Option String
  targetType : Option String
  linkPolicy : Option String
  maxCardinality : Option Nat
  linkLogicalIdLabel : Option String
  linkLogicalIdPattern : Option String
  cascades : List LinkTypeCascadeConfig

/-- `LifecycleStateConfig`. -/
structure LifecycleStateConfig where
  id : String
  name : String
  isInitial : Bool

/-- `LifecycleTransitionConfig`. -/
structure LifecycleTransitionConfig where
  id : String
  fromStateId : String
  toStateId : String
  versionStrategy : Option VersionStrategy

/-- `LifecycleConfig`. -/
structure LifecycleConfig where
  id : String
  states : List LifecycleStateConfig
  transitions : List LifecycleTransitionConfig

/-- `StateActionTrigger`. -/
inductive StateActionTrigger
  | ON_ENTER
  | ON_EXIT
  deriving DecidableEq

/-- `StateActionMode`. -/
inductive StateActionMode
  | TRANSACTIONAL
  | POST_COMMIT
  deriving DecidableEq

/-- A state action with its algorithm code and instance parameters resolved. -/
structure StateActionConfig where
  lifecycleStateId : String
  algorithmCode : String
  trigger : StateActionTrigger
  executionMode : StateActionMode
  parameters : List (String × String)

/-- `ResolvedAttribute`: the columns domain assignment and the search payload read. -/
structure ResolvedAttribute where
  id : String
  name : String
  defaultValue : Option String

/-- `DomainConfig`, with the attributes `metaModelCache.getDomainAttributes` resolves. -/
structure DomainConfig where
  id : String
  name : String
  attributes : List ResolvedAttribute

/-! ## What validators are asked -/

/-- The arguments of `ValidationService.collectViolations`. -/
structure ValidationRequest where
  nodeTypeId : Option String
  targetStateId : Option String
  values : List (String × Option String)
  currentStateId : Option String
  currentVersionId : Option Uuid
  logicalId : Option String
  changedKeys : Option (List String)

/-- `SourceResolverContext` together with the `LinkConstraint` it is validated under. -/
structure ResolverRequest where
  linkTypeId : String
  sourceCode : String
  type : String
  key : String
  sourceVersionId : Uuid
  sourceNodeId : Uuid
  maxCardinality : Option Nat
  linkPolicy : Option String

/-- A `GuardViolation`; `blocks` is `effect == BLOCK`. -/
structure GuardViolation where
  code : String
  message : String
  blocks : Bool

/-- The configuration snapshot, and the collaborators that only answer questions. -/
structure Env where
  nodeTypes : List NodeTypeConfig
  linkTypes : List LinkTypeConfig
  lifecycles : List LifecycleConfig
  stateActions : List StateActionConfig
  domains : List DomainConfig
  sources : List String
  /-- `metaModelCache.get(nodeTypeId).attributes()`. -/
  typeAttributes : String → List ResolvedAttribute
  /-- `metadataService.isTrue(targetType, targetId, key)`. -/
  isTrue : String → String → String → Bool
  /-- `value.matches(pattern)`. -/
  regexMatches : String → String → Bool
  /-- SHA-256 of the UTF-8 bytes, in lowercase hexadecimal. -/
  sha256 : String → String
  /-- `ValidationService.assertWritable`: the hard violations of submitted values. -/
  hardViolations : Tables → Option String → List (String × Option String) → Uuid → List Violation
  /-- `ValidationService.collectViolations`. -/
  collectViolations : Tables → ValidationRequest → List Violation
  /-- `PlmActionAspect` before `transition` on a node, for a user: the message of the check or
  guard that stops it. -/
  transitionGuard : String → Tables → Uuid → String → Option String
  /-- `SourceResolver.validate` of the resolvers of sources other than SELF. -/
  externalValidate : Tables → ResolverRequest → List GuardViolation

namespace Env

variable (env : Env)

/-- `configCache.getNodeType`. -/
def getNodeType (id : String) : Option NodeTypeConfig := env.nodeTypes.find? (·.id = id)

/-- `configCache.getLinkType`. -/
def getLinkType (id : String) : Option LinkTypeConfig := env.linkTypes.find? (·.id = id)

/-- `configCache.getLifecycle`. -/
def getLifecycle (id : String) : Option LifecycleConfig := env.lifecycles.find? (·.id = id)

/-- `configCache.getDomain`. -/
def getDomain (id : String) : Option DomainConfig := env.domains.find? (·.id = id)

/-- `metaModelCache.getDomainAttributes`. -/
def getDomainAttributes (id : String) : List ResolvedAttribute :=
  ((env.getDomain id).map (·.attributes)).getD []

/-- `LifecycleService.getCachedTransition`. -/
def getCachedTransition (id : String) : Option LifecycleTransitionConfig :=
  (env.lifecycles.flatMap (·.transitions)).find? (·.id = id)

/-- `LifecycleService.resolveTransitionToState`. -/
def resolveTransitionToState (id : String) : Option String :=
  (env.getCachedTransition id).map (·.toStateId)

/-- `NodeService.resolveStateName`: the display name of a state, its id when unknown. -/
def resolveStateName (stateId : Option String) : String :=
  match stateId with
  | none => ""
  | some id => (((env.lifecycles.flatMap (·.states)).find? (·.id = id)).map (·.name)).getD id

/-- The walk of `isTypeOrDescendant` up the parent chain. It ends after at most one visit
of each node type when the hierarchy has no cycle, which is what `fuel` allows. -/
def walkTypes : Nat → String → String → Bool
  | 0, _, _ => false
  | fuel + 1, current, expected =>
    if expected = current then true
    else match (env.getNodeType current).bind (·.parentNodeTypeId) with
      | none => false
      | some parent => walkTypes fuel parent expected

/-- `isTypeOrDescendant(typeId, expectedTypeId)`, of `LinkService`, `NodeService` and
`SelfNodeResolver` alike. -/
def isTypeOrDescendant (typeId expected : String) : Bool :=
  env.walkTypes (env.nodeTypes.length + 1) typeId expected

/-- A type is a descendant of itself. -/
theorem isTypeOrDescendant_refl (typeId : String) : env.isTypeOrDescendant typeId typeId = true := by
  simp [isTypeOrDescendant, walkTypes]

/-- `StateActionService.resolveEffectiveActions`, restricted to one mode. The only state
action with a bean is `collapse_history`; other algorithm codes are skipped when the
action cache is built. -/
def effectiveActions (stateId : String) (trigger : StateActionTrigger) (mode : StateActionMode) :
    List StateActionConfig :=
  env.stateActions.filter fun a =>
    a.algorithmCode = "collapse_history" ∧ a.lifecycleStateId = stateId ∧ a.trigger = trigger
      ∧ a.executionMode = mode

end Env

/-- The caller of a request, with the clock in seconds. -/
structure Caller where
  userId : String
  isAdmin : Bool
  now : Nat

/-! ## Queries -/

namespace Tables

variable (t : Tables)

/-- `SELECT … FROM plm_transaction WHERE id = ?`. -/
def tx? (id : Uuid) : Option TransactionRow := t.txs.find? (·.id = id)

/-- `SELECT … FROM node WHERE id = ?`. -/
def node? (id : Uuid) : Option NodeRow := t.nodes.find? (·.id = id)

/-- `SELECT … FROM node_version WHERE id = ?`. -/
def version? (id : Uuid) : Option VersionRow := t.versions.find? (·.id = id)

/-- `SELECT … FROM node_version_link WHERE id = ?`. -/
def link? (id : Uuid) : Option LinkRow := t.links.find? (·.id = id)

/-- The status of a transaction. -/
def txStatus? (id : Uuid) : Option TransactionStatus := (t.tx? id).map (·.status)

/-- The transaction `id` exists with status `OPEN`. -/
def isOpen (id : Uuid) : Bool := t.txStatus? id = some .OPEN

/-- The transaction `id` exists with status `COMMITTED`. -/
def isCommitted (id : Uuid) : Bool := t.txStatus? id = some .COMMITTED

/-- The status of a transaction is read off the transaction table. -/
theorem txStatus?_congr {t t' : Tables} (h : t'.txs = t.txs) (id : Uuid) :
    t'.txStatus? id = t.txStatus? id := by
  simp only [txStatus?, tx?, h]

theorem isOpen_congr {t t' : Tables} (h : t'.txs = t.txs) (id : Uuid) : t'.isOpen id = t.isOpen id := by
  rw [isOpen, isOpen, txStatus?_congr h]

theorem isCommitted_congr {t t' : Tables} (h : t'.txs = t.txs) (id : Uuid) :
    t'.isCommitted id = t.isCommitted id := by
  rw [isCommitted, isCommitted, txStatus?_congr h]

/-- An open transaction is not committed. -/
theorem not_isCommitted_of_isOpen {t : Tables} {x : Uuid} (h : t.isOpen x = true) :
    t.isCommitted x = false := by
  simp only [isOpen, decide_eq_true_eq] at h
  simp [isCommitted, h]

/-- `node_version` rows of a node. -/
def versionsOf (nodeId : Uuid) : List VersionRow := t.versions.filter (·.nodeId = nodeId)

/-- `ORDER BY version_number DESC LIMIT 1`. -/
def latest (vs : List VersionRow) : Option VersionRow := vs.argmax (·.versionNumber)

/-- `VersionService.getLastCommittedVersion`, and `getCurrentVersion`. -/
def getLastCommittedVersion (nodeId : Uuid) : Option VersionRow :=
  latest (t.versions.filter fun v => v.nodeId = nodeId ∧ t.isCommitted v.txId)

/-- `findOpenVersionInTx`: the last version of a node in a transaction. -/
def findOpenVersionInTx (nodeId txId : Uuid) : Option VersionRow :=
  latest (t.versions.filter fun v => v.nodeId = nodeId ∧ v.txId = txId)

/-- `VersionService.getCurrentVersionForTx`. -/
def getCurrentVersionForTx (nodeId txId : Uuid) : Option VersionRow :=
  (t.findOpenVersionInTx nodeId txId).or (t.getLastCommittedVersion nodeId)

/-- `VersionService.hasOpenVersion`. -/
def hasOpenVersion (nodeId : Uuid) : Bool :=
  t.versions.any fun v => v.nodeId = nodeId ∧ t.isOpen v.txId

/-- `node_version_attribute` rows of a version. -/
def attributesOf (versionId : Uuid) : List AttributeRow :=
  t.attributes.filter (·.nodeVersionId = versionId)

/-- `node_version_domain` rows of a version. -/
def domainsOf (versionId : Uuid) : List DomainRow :=
  t.domains.filter (·.nodeVersionId = versionId)

/-- `node_version_link` rows a version owns. -/
def linksOwnedBy (versionId : Uuid) : List LinkRow :=
  t.links.filter (·.sourceNodeVersionId = versionId)

/-- `node_version_link_attribute` rows of a link. -/
def attributesOfLink (linkId : Uuid) : List LinkAttributeRow :=
  t.linkAttributes.filter (·.nodeLinkId = linkId)

/-- `SELECT id FROM plm_transaction WHERE owner_id = ? AND status = 'OPEN'`. -/
def openTransactionsOf (userId : String) : List TransactionRow :=
  t.txs.filter fun x => x.ownerId = userId ∧ x.status = .OPEN

/-- `SELECT … FROM node WHERE logical_id = ?`. -/
def nodesByLogicalId (logicalId : String) : List NodeRow :=
  t.nodes.filter (·.logicalId = some logicalId)

end Tables

/-! ## A small configuration -/

/-- Assemblies are parts, the link type `composed_of` points at parts, and a draft can be
released. -/
def partsEnv : Env where
  nodeTypes := [⟨"nt-part", "Part", some "lc", none, none, none, none, []⟩,
    ⟨"nt-assembly", "Assembly", some "lc", none, none, none, some "nt-part", ["nt-part"]⟩]
  linkTypes := [⟨"lt-composed-of", "composed_of", some "nt-part", some "SELF", some "nt-part",
    some "VERSION_TO_MASTER", none, none, none, []⟩]
  lifecycles := [⟨"lc", [⟨"draft", "Draft", true⟩, ⟨"released", "Released", false⟩],
    [⟨"release", "draft", "released", none⟩]⟩]
  stateActions := []
  domains := []
  sources := ["SELF"]
  typeAttributes := fun _ => []
  isTrue := fun _ stateId key => stateId = "released" && key = "released"
  regexMatches := fun _ _ => true
  sha256 := id
  hardViolations := fun _ _ _ _ => []
  collectViolations := fun _ _ => []
  transitionGuard := fun _ _ _ _ => none
  externalValidate := fun _ _ => []

/-- A user of that configuration. -/
def engineer : Caller := ⟨"engineer", false, 0⟩

end PlmCore.Psm
