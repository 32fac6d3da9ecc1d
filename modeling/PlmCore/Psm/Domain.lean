/-
`DomainService` and the two action handlers over it: assigning a domain to the version a
transaction holds of a node, and taking it away again.
-/
import PlmCore.Psm.Version

set_option autoImplicit false

namespace PlmCore.Psm

open PlmCore.Lib

/-! ## Statements -/

/-- `DELETE FROM node_version_attribute WHERE node_version_id = ? AND attribute_def_id = ?`. -/
def Tables.deleteAttribute (versionId : Uuid) (attributeDefId : String) (t : Tables) : Tables :=
  { t with attributes := t.attributes.filter fun a =>
      ¬ (a.nodeVersionId = versionId ∧ a.attributeDefId = attributeDefId) }

/-- `DELETE FROM node_version_domain WHERE node_version_id = ? AND domain_id = ?`. -/
def Tables.deleteDomain (versionId : Uuid) (domainId : String) (t : Tables) : Tables :=
  { t with domains := t.domains.filter fun d =>
      ¬ (d.nodeVersionId = versionId ∧ d.domainId = domainId) }

/-! ## `DomainService` -/

/-- The attribute names a version already has: those of the node's type, and those of the
domains assigned to the version. -/
def existingNames (env : Env) (t : Tables) (nodeId versionId : Uuid) : List String :=
  (((t.node? nodeId).map fun n => env.typeAttributes n.nodeTypeId).getD []).map (·.name)
    ++ (t.domainsOf versionId).flatMap fun d => (env.getDomainAttributes d.domainId).map (·.name)

/-- The attributes of a domain that come with a default value. -/
def defaultsOf (env : Env) (domainId : String) : List ResolvedAttribute :=
  (env.getDomainAttributes domainId).filter fun a => nullOrBlank a.defaultValue = false

/-- The first attribute name that collides makes the assignment fail. -/
def assertNoCollision (domain : DomainConfig) (names : List String)
    (attributes : List ResolvedAttribute) : Plm Unit :=
  match attributes.find? (·.name ∈ names) with
  | none => pure ()
  | some attr => throw (.illegalState ("Cannot assign domain '" ++ domain.name ++ "': attribute '"
      ++ attr.name ++ "' conflicts with an existing attribute"))

/-- `DomainService.assignDomain`: it returns the number of default values written. -/
def assignDomain (env : Env) (nodeId : Uuid) (domainId : String) (versionId : Uuid) : Plm Nat := do
  let domain ← orElseThrow (env.getDomain domainId)
    (.illegalArgument ("Domain not found: " ++ domainId))
  let assigned ← query fun s => (s.domainsOf versionId).map (·.domainId)
  require (domainId ∉ assigned) (.illegalState "Domain already assigned to this version")
  let names ← query fun s => existingNames env s.toTables nodeId versionId
  assertNoCollision domain names (env.getDomainAttributes domainId)
  execute (Tables.insertDomain ⟨versionId, domainId⟩)
  (defaultsOf env domainId).forM fun a =>
    execute (Tables.insertAttribute ⟨versionId, a.id, a.defaultValue⟩)
  pure (defaultsOf env domainId).length

/-- `DomainService.unassignDomain`: it returns the number of values removed. -/
def unassignDomain (env : Env) (domainId : String) (versionId : Uuid) : Plm Nat := do
  let before ← query fun s => (s.attributesOf versionId).length
  (env.getDomainAttributes domainId).forM fun a => execute (Tables.deleteAttribute versionId a.id)
  let after ← query fun s => (s.attributesOf versionId).length
  let assigned ← query fun s => (s.domainsOf versionId).map (·.domainId)
  execute (Tables.deleteDomain versionId domainId)
  require (domainId ∈ assigned) (.illegalState "Domain not assigned to this version")
  pure (before - after)

/-! ## The handlers -/

/-- The version both handlers work on. -/
def requireVersionInTx (nodeId txId : Uuid) : Plm VersionRow := do
  let version ← query (·.findOpenVersionInTx nodeId txId)
  orElseThrow version (.illegalState ("No OPEN version found for node " ++ toString nodeId))

/-- The events of both handlers: the definition changed, and the data if values did. -/
def publishDomainChange (ctx : Caller) (nodeId : Uuid) (valuesChanged : Nat) : Plm Unit := do
  enqueue (.itemDefinitionUpdated nodeId ctx.userId)
  if 0 < valuesChanged then enqueue (.itemUpdated nodeId ctx.userId none) else pure ()

/-- What the two handlers share: the change of the version, its fingerprint, the events. -/
def domainAction (env : Env) (ctx : Caller) (nodeId txId : Uuid) (domainId : Option String)
    (change : String → Uuid → Plm Nat) : Plm Unit := do
  require (nullOrBlank domainId = false) (.illegalArgument "domainId parameter is required")
  let version ← requireVersionInTx nodeId txId
  let valuesChanged ← change (nvl domainId) version.id
  storeFingerprint env nodeId version.id
  publishDomainChange ctx nodeId valuesChanged

/-- `AssignDomainActionHandler.execute`. -/
def assignDomainAction (env : Env) (ctx : Caller) (nodeId txId : Uuid) (domainId : Option String) :
    Plm Unit :=
  domainAction env ctx nodeId txId domainId (assignDomain env nodeId)

/-- `UnassignDomainActionHandler.execute`. -/
def unassignDomainAction (env : Env) (ctx : Caller) (nodeId txId : Uuid)
    (domainId : Option String) : Plm Unit :=
  domainAction env ctx nodeId txId domainId (unassignDomain env)

end PlmCore.Psm
