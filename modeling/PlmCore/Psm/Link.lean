/-
`LinkService`: creating, deleting and updating the links a version owns, and the query
behind the child view of a node.

A link is created on the open version of its source node, which is created on the way if
the transaction does not hold one yet. `deleteLink` and `updateLink` address a link by its
own id, so the version they write to is the one that owns the link, whatever its
transaction.
-/
import PlmCore.Lib.Rows
import PlmCore.Psm.SelfResolver
import PlmCore.Psm.Version

set_option autoImplicit false

namespace PlmCore.Psm

open PlmCore.Lib

/-! ## Statements -/

/-- `INSERT INTO node_version_link`. -/
def Tables.insertLink (l : LinkRow) (t : Tables) : Tables := { t with links := t.links ++ [l] }

/-- `DELETE FROM node_version_link WHERE id = ?`, with the cascade to its attributes. -/
def Tables.deleteLink (linkId : Uuid) (t : Tables) : Tables :=
  { t with
    links := t.links.filter (·.id ≠ linkId)
    linkAttributes := t.linkAttributes.filter (·.nodeLinkId ≠ linkId) }

/-- `UPDATE node_version_link SET … WHERE id = ?`. -/
def Tables.updateLinkRow (linkId : Uuid) (f : LinkRow → LinkRow) (t : Tables) : Tables :=
  { t with links := t.links.map fun l => if l.id = linkId then f l else l }

/-- `DELETE FROM node_version_link_attribute WHERE node_link_id = ? AND attribute_id = ?`. -/
def Tables.deleteLinkAttribute (linkId : Uuid) (attributeId : String) (t : Tables) : Tables :=
  { t with linkAttributes := t.linkAttributes.filter fun a =>
      ¬ (a.nodeLinkId = linkId ∧ a.attributeId = attributeId) }

/-- `INSERT INTO node_version_link_attribute`. -/
def Tables.insertLinkAttribute (a : LinkAttributeRow) (t : Tables) : Tables :=
  { t with linkAttributes := t.linkAttributes ++ [a] }

/-! ## The target of a link -/

/-- Where a link points: `(target_source_id, target_type, target_key)`. -/
structure LinkTarget where
  sourceCode : String
  type : String
  key : String
  deriving DecidableEq

/-- The target of a stored link. -/
def LinkRow.target (l : LinkRow) : LinkTarget := ⟨l.targetSourceId, l.targetType, l.targetKey⟩

/-- `given` unless it is null or blank, then `default`. -/
def orDefault (given default : Option String) : Option String :=
  if nullOrBlank given then default else given

/-- The source and the type a link type fixes. -/
def checkLinkType (linkTypeId : String) (linkType : LinkTypeConfig) (sourceCode type : String) :
    Plm Unit := do
  let allowedSource := nvl linkType.targetSourceId
  let allowedType := nvl linkType.targetType
  require (linkType.targetSourceId.isNone ∨ allowedSource = sourceCode)
    (.illegalArgument ("Link type " ++ linkTypeId ++ " targets source " ++ allowedSource ++ ", got "
      ++ sourceCode))
  require (linkType.targetType.isNone ∨ allowedType = type)
    (.illegalArgument ("Link type " ++ linkTypeId ++ " targets type " ++ allowedType ++ ", got "
      ++ type))

/-- `configCache.getSource(code).orElseThrow()`, and the lookup of `getResolverFor`. -/
def checkSource (env : Env) (sourceCode : String) : Plm Unit :=
  require (sourceCode ∈ env.sources) (.illegalArgument ("Unknown source: " ++ sourceCode))

/-- The target a creation request denotes. -/
def requestedTarget (env : Env) (linkTypeId : String) (linkType : LinkTypeConfig)
    (targetSourceCode targetType targetKey : Option String) : Plm LinkTarget := do
  let sourceCode := nvl (orDefault (orDefault targetSourceCode linkType.targetSourceId) (some "SELF"))
  let type ← orElseThrow (orDefault targetType linkType.targetType)
    (.illegalArgument "targetType is required (none on link_type or request)")
  checkLinkType linkTypeId linkType sourceCode type
  require (nullOrBlank targetKey = false) (.illegalArgument "targetKey is required")
  checkSource env sourceCode
  pure ⟨sourceCode, type, nvl targetKey⟩

/-- `resolver.validate` of the resolver a source is bound to. -/
def resolverValidate (env : Env) (req : ResolverRequest) : Plm (List GuardViolation) := do
  checkSource env req.sourceCode
  if req.sourceCode = "SELF" then selfValidate env req
  else query fun s => env.externalValidate s.toTables req

/-- The first blocking violation is thrown. -/
def assertNotBlocked (violations : List GuardViolation) : Plm Unit :=
  match violations.find? (·.blocks) with
  | some v => throw (.illegalArgument (v.code ++ ": " ++ v.message))
  | none => pure ()

/-- The request a resolver gets for a target. -/
def resolverRequest (linkTypeId : String) (linkType : LinkTypeConfig) (target : LinkTarget)
    (sourceVersionId sourceNodeId : Uuid) : ResolverRequest where
  linkTypeId := linkTypeId
  sourceCode := target.sourceCode
  type := target.type
  key := target.key
  sourceVersionId := sourceVersionId
  sourceNodeId := sourceNodeId
  maxCardinality := linkType.maxCardinality
  linkPolicy := linkType.linkPolicy

/-- The resolver-side validation of a target for a link of a source version. -/
def validateTarget (env : Env) (linkTypeId : String) (linkType : LinkTypeConfig)
    (target : LinkTarget) (sourceVersionId sourceNodeId : Uuid) : Plm Unit := do
  let violations ← resolverValidate env
    (resolverRequest linkTypeId linkType target sourceVersionId sourceNodeId)
  assertNotBlocked violations

/-- `LinkService.resolveDstNodeId`. -/
def Tables.resolveDstNodeId (t : Tables) (target : LinkTarget) : Option Uuid :=
  if target.sourceCode = "SELF" then
    (t.nodes.find? fun n => n.logicalId = some target.key ∧ n.nodeTypeId = target.type).map (·.id)
  else none

/-- The edge event of a link, when its target is a node of this store. -/
def publishLink (event : Uuid → PlmEvent) (target : LinkTarget) : Plm Unit := do
  let dst ← query (·.resolveDstNodeId target)
  match dst with
  | some dstNodeId => enqueue (event dstNodeId)
  | none => pure ()

/-! ## Creating -/

/-- The source type a link type allows. -/
def checkSourceType (env : Env) (linkType : LinkTypeConfig) (nodeId : Uuid) : Plm Unit :=
  match linkType.sourceNodeTypeId with
  | none => pure ()
  | some allowed => do
    let row ← query (·.node? nodeId)
    let n ← orElseThrow row (.illegalArgument ("Node not found: " ++ toString nodeId))
    require (env.isTypeOrDescendant n.nodeTypeId allowed = true) (.illegalArgument
      ("Node type does not support link type '" ++ linkType.name ++ "'"))

/-- The label of a link's logical id in messages. -/
def linkLogicalIdLabel (linkType : LinkTypeConfig) : String :=
  nvl (orDefault linkType.linkLogicalIdLabel (some "Link ID"))

/-- The rules on the logical id of a link. -/
def checkLinkLogicalId (env : Env) (linkType : LinkTypeConfig) (linkLogicalId : Option String) :
    Plm Unit := do
  let label := linkLogicalIdLabel linkType
  let pattern := nvl linkType.linkLogicalIdPattern
  require (nullOrBlank linkLogicalId = false) (.illegalArgument ("'" ++ label ++ "' is required"))
  require (nullOrBlank linkType.linkLogicalIdPattern = true
      ∨ env.regexMatches (nvl linkLogicalId) pattern = true)
    (.illegalArgument ("'" ++ label ++ "' value '" ++ nvl linkLogicalId
      ++ "' does not match pattern: " ++ pattern))

/-- The cardinality rule: links of the type over all versions of the node. -/
def checkCardinality (linkTypeId : String) (linkType : LinkTypeConfig) (nodeId : Uuid) : Plm Unit :=
  match linkType.maxCardinality with
  | none => pure ()
  | some maxCard => do
    let existing ← query fun s =>
      (s.links.filter fun l => l.linkTypeId = linkTypeId ∧ s.isLinkOf nodeId l).length
    require (existing < maxCard)
      (.illegalState ("Max cardinality " ++ toString maxCard ++ " reached"))

/-- The version of the transaction, created when there is none. -/
def ensureOpenVersion (env : Env) (ctx : Caller) (nodeId txId : Uuid) : Plm Uuid := do
  let existing ← query (·.findOpenVersionInTx nodeId txId)
  match existing with
  | some v => pure v.id
  | none => createVersion env ctx nodeId txId .CONTENT (some .ITERATE) none [] (some "Link creation")

/-- `LinkService.createLink`. -/
def createLink (env : Env) (ctx : Caller) (linkTypeId : String) (nodeId : Uuid)
    (targetSourceCode targetType targetKey : Option String) (txId : Uuid)
    (linkLogicalId : Option String) : Plm Uuid := do
  let linkType ← orElseThrow (env.getLinkType linkTypeId)
    (.illegalArgument ("LinkType not found: " ++ linkTypeId))
  checkSourceType env linkType nodeId
  let target ← requestedTarget env linkTypeId linkType targetSourceCode targetType targetKey
  checkLinkLogicalId env linkType linkLogicalId
  checkCardinality linkTypeId linkType nodeId
  -- owner side: open version and lock
  let sourceVersionId ← ensureOpenVersion env ctx nodeId txId
  tryLock ctx nodeId
  validateTarget env linkTypeId linkType target sourceVersionId nodeId
  let dup ← query fun s =>
    (s.linksOwnedBy sourceVersionId).filter (·.linkLogicalId = linkLogicalId)
  require (dup = []) (.illegalArgument ("'" ++ linkLogicalIdLabel linkType ++ "' value '"
    ++ nvl linkLogicalId ++ "' is already used by another link on this version"))
  let linkId ← randomUUID
  execute (Tables.insertLink ⟨linkId, linkTypeId, sourceVersionId, target.sourceCode, target.type,
    target.key, linkLogicalId, ctx.now, ctx.userId⟩)
  storeFingerprint env nodeId sourceVersionId
  publishLink (fun dst => .linkCreated nodeId dst linkType.name true) target
  pure linkId

/-! ## Deleting -/

/-- The link of a request, with the version that owns it. -/
def loadLink (linkId : Uuid) : Plm (LinkRow × VersionRow) := do
  let row ← query (·.link? linkId)
  let link ← orElseThrow row (.illegalArgument ("Link not found: " ++ toString linkId))
  let owner ← query (·.version? link.sourceNodeVersionId)
  let source ← orElseThrow owner
    (.illegalArgument ("Source node not found for link: " ++ toString linkId))
  pure (link, source)

/-- `LinkService.deleteLink`. -/
def deleteLink (env : Env) (ctx : Caller) (linkId : Uuid) : Plm Unit := do
  let (link, source) ← loadLink linkId
  tryLock ctx source.nodeId
  execute (Tables.deleteLink linkId)
  checkSource env link.targetSourceId
  storeFingerprint env source.nodeId source.id
  let relType := ((env.getLinkType link.linkTypeId).map (·.name)).getD link.linkTypeId
  publishLink (fun dst => .linkDeleted source.nodeId dst relType) link.target

/-! ## Updating -/

/-- What `updateLink` is asked to change. A null attribute map is the empty list. -/
structure LinkUpdate where
  targetSourceCode : Option String
  targetType : Option String
  targetKey : Option String
  logicalId : Option String
  attributes : List (String × Option String)

/-- `targetChanged`: some field of the target is given. -/
def LinkUpdate.targetChanged (u : LinkUpdate) : Bool :=
  !nullOrBlank u.targetSourceCode || !nullOrBlank u.targetType || !nullOrBlank u.targetKey

/-- The target after the update: the given fields over the stored ones. -/
def LinkUpdate.newTarget (u : LinkUpdate) (link : LinkRow) : LinkTarget where
  sourceCode := nvl (orDefault u.targetSourceCode (some link.targetSourceId))
  type := nvl (orDefault u.targetType (some link.targetType))
  key := nvl (orDefault u.targetKey (some link.targetKey))

/-- The target part of `updateLink`. -/
def retargetLink (env : Env) (link : LinkRow) (source : VersionRow) (target : LinkTarget) :
    Plm Unit := do
  let linkType ← orElseThrow (env.getLinkType link.linkTypeId)
    (.illegalArgument ("LinkType not found: " ++ link.linkTypeId))
  checkLinkType link.linkTypeId linkType target.sourceCode target.type
  validateTarget env link.linkTypeId linkType target source.id source.nodeId
  execute (Tables.updateLinkRow link.id fun l =>
    { l with
      targetSourceId := target.sourceCode
      targetType := target.type
      targetKey := target.key })
  checkSource env link.targetSourceId
  publishLink (fun dst => .linkDeleted source.nodeId dst linkType.name) link.target
  publishLink (fun dst => .linkCreated source.nodeId dst linkType.name true) target

/-- The logical-id part of `updateLink`. -/
def renameLink (link : LinkRow) (logicalId : Option String) : Plm Unit := do
  let dup ← query fun s => (s.linksOwnedBy link.sourceNodeVersionId).filter fun l =>
    l.linkLogicalId = logicalId ∧ l.id ≠ link.id
  require (dup = []) (.illegalArgument ("Link ID '" ++ nvl logicalId
    ++ "' is already used by another link on this version"))
  execute (Tables.updateLinkRow link.id fun l => { l with linkLogicalId := logicalId })

/-- One entry of the attribute map: the old value goes, a non-blank value is written. -/
def writeLinkAttribute (linkId : Uuid) (a : String × Option String) : Plm Unit := do
  execute (Tables.deleteLinkAttribute linkId a.1)
  if nullOrBlank a.2 then pure () else execute (Tables.insertLinkAttribute ⟨linkId, a.1, a.2⟩)

/-- The newest version of a node in an open transaction, of any user. -/
def Tables.newestOpenVersion (t : Tables) (nodeId : Uuid) : Option VersionRow :=
  Tables.latest (t.versions.filter fun v => v.nodeId = nodeId ∧ t.isOpen v.txId)

/-- `LinkService.updateLink`. -/
def updateLink (env : Env) (ctx : Caller) (linkId : Uuid) (u : LinkUpdate) : Plm Unit := do
  let (link, source) ← loadLink linkId
  tryLock ctx source.nodeId
  (if u.targetChanged then retargetLink env link source (u.newTarget link) else pure ())
  (if nullOrBlank u.logicalId then pure () else renameLink link u.logicalId)
  u.attributes.forM (writeLinkAttribute linkId)
  let openVersion ← query (·.newestOpenVersion source.nodeId)
  storeFingerprint env source.nodeId ((openVersion.map (·.id)).getD source.id)

/-! ## Reading -/

/-- A SELF row of the child view: the link, and its target at the version the view shows. -/
structure ChildLink where
  linkId : Uuid
  linkTypeId : String
  linkAttributeValues : List (String × Option String)
  linkLogicalId : String
  target : LinkTarget
  targetNodeId : Uuid
  targetNodeType : String
  targetLogicalId : String
  targetRevision : String
  targetIteration : Nat
  targetState : String
  targetStateName : String
  targetChildrenCount : Nat
  deriving DecidableEq

/-- A row of the child view for another source. What the resolver of the source adds is a
function of these fields. -/
structure ExternalLink where
  linkId : Uuid
  linkTypeId : String
  linkAttributeValues : List (String × Option String)
  linkLogicalId : String
  target : LinkTarget
  deriving DecidableEq

/-- The viewer sees what a transaction wrote: it is committed, or open and the viewer's own
or the viewer is an administrator. -/
def Tables.sees (t : Tables) (ctx : Caller) (txId : Uuid) : Bool :=
  t.txs.any fun x => x.id = txId
    ∧ (x.status = .COMMITTED ∨ (x.status = .OPEN ∧ (x.ownerId = ctx.userId ∨ ctx.isAdmin = true)))

/-- The link is owned by a version of the node the viewer sees. -/
def Tables.isVisibleLinkOf (t : Tables) (ctx : Caller) (nodeId : Uuid) (l : LinkRow) : Bool :=
  t.versions.any fun v => v.id = l.sourceNodeVersionId ∧ v.nodeId = nodeId ∧ t.sees ctx v.txId

/-- The nodes `getChildLinks` joins to a link: by logical id only. -/
def Tables.childTargets (t : Tables) (l : LinkRow) : List NodeRow :=
  t.nodes.filter (·.logicalId = some (beforeAt l.targetKey))

/-- The versions `getChildLinks` joins to a node: those with the highest number. -/
def Tables.newestVersions (t : Tables) (nodeId : Uuid) : List VersionRow :=
  (t.versionsOf nodeId).filter fun v =>
    (t.versionsOf nodeId).all (·.versionNumber ≤ v.versionNumber)

/-- The attribute values of a link as the view lists them. -/
def Tables.linkAttributeValues (t : Tables) (l : LinkRow) : List (String × Option String) :=
  (t.attributesOfLink l.id).map fun a => (a.attributeId, a.value)

/-- A node with a version has one newest version. -/
theorem newestVersions_eq_singleton {s : Db} {nodeId : Uuid} (h : s.versionsOf nodeId ≠ []) :
    ∃ v, s.newestVersions nodeId = [v] := by
  obtain ⟨v, hv⟩ : ∃ v, Tables.latest (s.versionsOf nodeId) = some v := by
    cases hl : Tables.latest (s.versionsOf nodeId) with
    | none => exact absurd (List.argmax_eq_none.mp hl) h
    | some v => exact ⟨v, rfl⟩
  have hmem : v ∈ s.versionsOf nodeId := List.argmax_mem hv
  have hmax : ∀ w ∈ s.versionsOf nodeId, w.versionNumber ≤ v.versionNumber :=
    fun w hw => List.le_of_mem_argmax hw hv
  -- two newest versions of a node have the same number, so they are one row
  refine ⟨v, filter_eq_singleton ((List.Nodup.of_map _ s.valid.pk_version).filter _) hmem
    (List.all_eq_true.mpr fun w hw => decide_eq_true (hmax w hw)) fun w hw hwmax => ?_⟩
  have hle : v.versionNumber ≤ w.versionNumber := by simpa using List.all_eq_true.mp hwmax v hmem
  have hnode : w.nodeId = v.nodeId := by
    have h₁ : w.nodeId = nodeId := by simpa using (List.mem_filter.mp hw).2
    have h₂ : v.nodeId = nodeId := by simpa using (List.mem_filter.mp hmem).2
    rw [h₁, h₂]
  exact List.inj_on_of_nodup_map s.valid.uq_node_version (List.mem_of_mem_filter hw)
    (List.mem_of_mem_filter hmem) (by rw [hnode, Nat.le_antisymm (hmax w hw) hle])

/-- One SELF row. -/
def childLink (env : Env) (t : Tables) (l : LinkRow) (n : NodeRow) (v : VersionRow) : ChildLink where
  linkId := l.id
  linkTypeId := l.linkTypeId
  linkAttributeValues := t.linkAttributeValues l
  linkLogicalId := nvl l.linkLogicalId
  target := l.target
  targetNodeId := n.id
  targetNodeType := ((env.getNodeType n.nodeTypeId).map (·.name)).getD n.nodeTypeId
  targetLogicalId := nvl n.logicalId
  targetRevision := v.revision
  targetIteration := v.iteration
  targetState := nvl v.lifecycleStateId
  targetStateName := env.resolveStateName v.lifecycleStateId
  targetChildrenCount := (t.linksOwnedBy v.id).length

/-- The target rows `getChildLinks` joins to a link. -/
def Tables.childRows (t : Tables) (l : LinkRow) : List (NodeRow × VersionRow) :=
  (t.childTargets l).flatMap fun n => (t.newestVersions n.id).map fun v => (n, v)

/-- The SELF rows before they are ordered. -/
def selfChildLinks (env : Env) (ctx : Caller) (t : Tables) (nodeId : Uuid) : List ChildLink :=
  (t.links.filter fun l => l.targetSourceId = "SELF" ∧ t.isVisibleLinkOf ctx nodeId l).flatMap
    fun l => (t.childRows l).map fun r => childLink env t l r.1 r.2

/-- The rows of other sources before they are ordered. -/
def externalChildLinks (ctx : Caller) (t : Tables) (nodeId : Uuid) : List ExternalLink :=
  (t.links.filter fun l => l.targetSourceId ≠ "SELF" ∧ t.isVisibleLinkOf ctx nodeId l).map
    fun l => ⟨l.id, l.linkTypeId, t.linkAttributeValues l, nvl l.linkLogicalId, l.target⟩

/-- `LinkService.getChildLinks`: the SELF rows ordered by the target's logical id, then the
others ordered by source and key. -/
def getChildLinks (env : Env) (ctx : Caller) (t : Tables) (nodeId : Uuid) :
    List ChildLink × List ExternalLink :=
  ((selfChildLinks env ctx t nodeId).insertionSort fun a b => a.targetLogicalId ≤ b.targetLogicalId,
    (externalChildLinks ctx t nodeId).insertionSort fun a b =>
      toLex (a.target.sourceCode, a.target.key) ≤ toLex (b.target.sourceCode, b.target.key))

/-! ## What the three writers do -/

/-- What `validate` guarantees about a SELF target of a link of the node `sourceNodeId`. -/
structure AcceptedTarget (env : Env) (t : Tables) (sourceNodeId : Uuid) (target : LinkTarget)
    (node : NodeRow) : Prop where
  parses : ∃ p, parseKey target.key = .ok p
  isOnly : t.nodesByLogicalId (beforeAt target.key) = [node]
  hasType : env.isTypeOrDescendant node.nodeTypeId target.type = true
    ∨ t.hasAncestorOfType env (beforeAt target.key) target.type = true
  closesNoCycle : hasAt target.key = false →
    sourceNodeId ≠ node.id ∧ t.createsCycle sourceNodeId node.id = false

theorem assertNotBlocked_ok {violations : List GuardViolation} {s s' : Db}
    (h : Returns (assertNotBlocked violations) s () s') :
    s' = s ∧ ∀ v ∈ violations, v.blocks = false := by
  unfold assertNotBlocked at h
  split at h
  · exact absurd h returns_throw
  · rename_i hnone
    refine ⟨(returns_pure.mp h).2, fun v hv => ?_⟩
    simpa using List.find?_eq_none.mp hnone v hv

/-- **A validated SELF target is accepted**, and validation changes nothing. -/
theorem validateTarget_ok {env : Env} {linkTypeId : String} {linkType : LinkTypeConfig}
    {target : LinkTarget} {sv nodeId : Uuid} {s s' : Db}
    (h : Returns (validateTarget env linkTypeId linkType target sv nodeId) s () s') :
    s' = s ∧ (target.sourceCode = "SELF" → ∃ n, AcceptedTarget env s.toTables nodeId target n) := by
  simp only [validateTarget, resolverValidate, checkSource, returns_bind, returns_require,
    returns_ite, returns_query] at h
  obtain ⟨violations, s₁, ⟨_, s₂, ⟨-, rfl⟩, h₁⟩, h₂⟩ := h
  obtain ⟨rfl, hblocks⟩ := assertNotBlocked_ok h₂
  rcases h₁ with ⟨hself, h₁⟩ | ⟨hself, -, rfl⟩
  · obtain ⟨rfl, p, n, hp, honly, htype, hcycle⟩ := selfValidate_ok h₁ hblocks
    refine ⟨rfl, fun _ => ⟨n, ⟨p, hp⟩, ?_, ?_, fun hat => hcycle ?_⟩⟩
    · exact parseKey_logicalId hp ▸ honly
    · exact parseKey_logicalId hp ▸ htype
    · exact (parseKey_versionNumber hp).mpr hat
  · exact ⟨rfl, fun hsource => absurd hsource hself⟩

theorem checkSourceType_ok {env : Env} {linkType : LinkTypeConfig} {nodeId : Uuid} {s s' : Db}
    (h : Returns (checkSourceType env linkType nodeId) s () s') : s' = s := by
  unfold checkSourceType at h
  split at h
  · exact (returns_pure.mp h).2
  · simp only [returns_bind, returns_query, returns_orElseThrow, returns_require] at h
    obtain ⟨_, _, ⟨-, rfl⟩, _, _, ⟨-, rfl⟩, -, rfl⟩ := h
    rfl

/-- The target a creation request asks for: what it leaves out is the link type's. -/
def askedTarget (linkType : LinkTypeConfig) (sourceCode type key : Option String) : LinkTarget :=
  ⟨nvl (orDefault (orDefault sourceCode linkType.targetSourceId) (some "SELF")),
    nvl (orDefault type linkType.targetType), nvl key⟩

theorem requestedTarget_ok {env : Env} {linkTypeId : String} {linkType : LinkTypeConfig}
    {sourceCode type key : Option String} {target : LinkTarget} {s s' : Db}
    (h : Returns (requestedTarget env linkTypeId linkType sourceCode type key) s target s') :
    s' = s ∧ target = askedTarget linkType sourceCode type key := by
  simp only [requestedTarget, checkLinkType, checkSource, returns_bind, returns_orElseThrow,
    returns_require, returns_pure] at h
  obtain ⟨t, _, ⟨htype, rfl⟩, _, _, ⟨_, _, ⟨-, rfl⟩, -, rfl⟩, _, _, ⟨-, rfl⟩, _, _, ⟨-, rfl⟩, rfl,
    rfl⟩ := h
  refine ⟨rfl, ?_⟩
  rw [askedTarget, htype]
  rfl

/-- The logical id fits the pattern of the link type, if it has one. -/
def LinkTypeConfig.accepts (linkType : LinkTypeConfig) (env : Env) (linkLogicalId : Option String) :
    Prop :=
  nullOrBlank linkType.linkLogicalIdPattern = true
    ∨ env.regexMatches (nvl linkLogicalId) (nvl linkType.linkLogicalIdPattern) = true

theorem checkLinkLogicalId_ok {env : Env} {linkType : LinkTypeConfig}
    {linkLogicalId : Option String} {s s' : Db}
    (h : Returns (checkLinkLogicalId env linkType linkLogicalId) s () s') :
    s' = s ∧ linkType.accepts env linkLogicalId := by
  simp only [checkLinkLogicalId, returns_bind, returns_require] at h
  obtain ⟨_, _, ⟨-, rfl⟩, hmatches, rfl⟩ := h
  exact ⟨rfl, hmatches⟩

/-- The links of a type over all versions of a node are fewer than the link type allows. -/
def Tables.hasRoom (t : Tables) (linkTypeId : String) (linkType : LinkTypeConfig) (nodeId : Uuid) :
    Prop :=
  ∀ maxCard ∈ linkType.maxCardinality,
    (t.links.filter fun l => l.linkTypeId = linkTypeId ∧ t.isLinkOf nodeId l).length < maxCard

theorem checkCardinality_ok {linkTypeId : String} {linkType : LinkTypeConfig} {nodeId : Uuid}
    {s s' : Db} (h : Returns (checkCardinality linkTypeId linkType nodeId) s () s') :
    s' = s ∧ s.hasRoom linkTypeId linkType nodeId := by
  unfold checkCardinality at h
  split at h
  · rename_i hnone
    refine ⟨(returns_pure.mp h).2, fun maxCard hmax => ?_⟩
    rw [hnone] at hmax
    cases hmax
  · rename_i m hsome
    simp only [returns_bind, returns_query, returns_require] at h
    obtain ⟨_, _, ⟨rfl, rfl⟩, hlt, rfl⟩ := h
    refine ⟨rfl, fun maxCard hmax => ?_⟩
    rw [hsome] at hmax
    exact Option.some.inj hmax ▸ hlt

/-- The edge event is of the node the target denotes, if it is one. -/
theorem returns_publishLink {event : Uuid → PlmEvent} {target : LinkTarget} {s s' : Db} {u : Unit} :
    Returns (publishLink event target) s u s' ↔
      s'.toTables = s.withEvents ((s.resolveDstNodeId target).toList.map event) := by
  simp only [publishLink, returns_bind, returns_query, and_assoc, exists_and_left, exists_eq_left]
  cases s.resolveDstNodeId target with
  | none =>
    simp only [returns_pure, Option.toList_none, List.map_nil, Tables.withEvents, List.append_nil]
    exact ⟨fun h => by rw [h.2], fun h => ⟨trivial, Db.ext h⟩⟩
  | some dst => exact returns_enqueue

/-- The row `createLink` inserts. -/
def newLink (ctx : Caller) (linkId : Uuid) (linkTypeId : String) (sourceVersionId : Uuid)
    (target : LinkTarget) (linkLogicalId : Option String) : LinkRow :=
  ⟨linkId, linkTypeId, sourceVersionId, target.sourceCode, target.type, target.key, linkLogicalId,
    ctx.now, ctx.userId⟩

/-- **What `createLink` does**: it checks the logical id and the cardinality, makes sure of an open
version and of the lock, validates the target, and then adds one link to that version, stores its
digest and publishes its edge. -/
theorem createLink_checked {env : Env} {ctx : Caller} {linkTypeId : String}
    {nodeId txId linkId : Uuid} {sourceCode type key linkLogicalId : Option String} {s s' : Db}
    (h : Returns (createLink env ctx linkTypeId nodeId sourceCode type key txId linkLogicalId)
      s linkId s') :
    ∃ linkType target sv s₁ s₂ v,
      env.getLinkType linkTypeId = some linkType
      ∧ linkType.accepts env linkLogicalId
      ∧ s.hasRoom linkTypeId linkType nodeId
      ∧ target = askedTarget linkType sourceCode type key
      ∧ Returns (ensureOpenVersion env ctx nodeId txId) s sv s₁
      ∧ Returns (tryLock ctx nodeId) s₁ () s₂
      ∧ (target.sourceCode = "SELF" → ∃ n, AcceptedTarget env s₂.toTables nodeId target n)
      ∧ (∀ l ∈ s₂.linksOwnedBy sv, l.linkLogicalId ≠ linkLogicalId)
      ∧ linkId = s₂.nextId
      ∧ v ∈ s₂.versions ∧ v.id = sv
      ∧ s'.toTables = ((s₂.takeId.insertLink
          (newLink ctx linkId linkTypeId sv target linkLogicalId)).refresh env nodeId v).withEvents
            ((s₂.resolveDstNodeId target).toList.map fun dst =>
              .linkCreated nodeId dst linkType.name true) := by
  -- the statements in their order: type, target, logical id, cardinality, version, lock, target, row
  simp only [createLink, returns_bind, returns_orElseThrow, returns_query, returns_require,
    returns_randomUUID, returns_execute, returns_pure, returns_publishLink, and_assoc,
    exists_and_left, exists_eq_left, exists_const] at h
  obtain ⟨linkType, hlinkType, _, s₀, htype, target, s₁, htarget, _, s₂, hlogical, _, s₃, hcard, sv,
    s₄, hopen, _, s₅, hlock, _, s₆, hval, hdup, s₇, htake, s₈, hins, _, s₉, hfp, _, hpub, rfl, rfl⟩ :=
    h
  -- the checks write nothing, so only three states are left of the ten
  obtain rfl := (checkSourceType_ok htype).symm
  obtain ⟨hs₁, hasked⟩ := requestedTarget_ok htarget
  obtain rfl := hs₁.symm
  obtain ⟨hs₂, haccepts⟩ := checkLinkLogicalId_ok hlogical
  obtain rfl := hs₂.symm
  obtain ⟨hs₃, hroom⟩ := checkCardinality_ok hcard
  obtain rfl := hs₃.symm
  obtain ⟨rfl, haccepted⟩ := validateTarget_ok hval
  -- the digest is stored on the open version
  obtain ⟨v, hv, hvid, hfp⟩ := storeFingerprint_ok hfp
  have hvs : v ∈ s₆.versions := by
    rw [hins, htake] at hv
    exact hv
  have hfresh : ∀ l ∈ s₆.linksOwnedBy sv, l.linkLogicalId ≠ linkLogicalId := fun l hl => by
    simpa using List.filter_eq_nil_iff.mp hdup l hl
  refine ⟨linkType, target, sv, s₄, s₆, v, hlinkType, haccepts, hroom, hasked, hopen, hlock, haccepted,
    hfresh, rfl, hvs, hvid, ?_⟩
  rw [hpub, hfp, hins, htake]
  rfl

/-- `createLink` without its checks. -/
theorem createLink_told {env : Env} {ctx : Caller} {linkTypeId : String} {nodeId txId linkId : Uuid}
    {sourceCode type key linkLogicalId : Option String} {s s' : Db}
    (h : Returns (createLink env ctx linkTypeId nodeId sourceCode type key txId linkLogicalId)
      s linkId s') :
    ∃ linkType target sv s₁ s₂ v,
      env.getLinkType linkTypeId = some linkType
      ∧ target = askedTarget linkType sourceCode type key
      ∧ Returns (ensureOpenVersion env ctx nodeId txId) s sv s₁
      ∧ Returns (tryLock ctx nodeId) s₁ () s₂
      ∧ (target.sourceCode = "SELF" → ∃ n, AcceptedTarget env s₂.toTables nodeId target n)
      ∧ linkId = s₂.nextId
      ∧ v ∈ s₂.versions ∧ v.id = sv
      ∧ s'.toTables = ((s₂.takeId.insertLink
          (newLink ctx linkId linkTypeId sv target linkLogicalId)).refresh env nodeId v).withEvents
            ((s₂.resolveDstNodeId target).toList.map fun dst =>
              .linkCreated nodeId dst linkType.name true) := by
  obtain ⟨linkType, target, sv, s₁, s₂, v, hlinkType, -, -, hasked, hopen, hlock, haccepted, -, h⟩ :=
    createLink_checked h
  exact ⟨linkType, target, sv, s₁, s₂, v, hlinkType, hasked, hopen, hlock, haccepted, h⟩

theorem createLink_ok {env : Env} {ctx : Caller} {linkTypeId : String} {nodeId txId linkId : Uuid}
    {sourceCode type key linkLogicalId : Option String} {s s' : Db}
    (h : Returns (createLink env ctx linkTypeId nodeId sourceCode type key txId linkLogicalId)
      s linkId s') :
    ∃ target sv s₁ s₂ v es,
      Returns (ensureOpenVersion env ctx nodeId txId) s sv s₁
      ∧ Returns (tryLock ctx nodeId) s₁ () s₂
      ∧ (target.sourceCode = "SELF" → ∃ n, AcceptedTarget env s₂.toTables nodeId target n)
      ∧ linkId = s₂.nextId
      ∧ v ∈ s₂.versions ∧ v.id = sv
      ∧ s'.toTables = ((s₂.takeId.insertLink
          (newLink ctx linkId linkTypeId sv target linkLogicalId)).refresh env nodeId v).withEvents
            es := by
  obtain ⟨linkType, target, sv, s₁, s₂, v, -, -, h⟩ := createLink_told h
  exact ⟨target, sv, s₁, s₂, v, _, h⟩

theorem loadLink_ok {linkId : Uuid} {s s' : Db} {p : LinkRow × VersionRow}
    (h : Returns (loadLink linkId) s p s') :
    s' = s ∧ p.1 ∈ s.links ∧ p.1.id = linkId ∧ p.2 ∈ s.versions
      ∧ p.2.id = p.1.sourceNodeVersionId := by
  simp only [loadLink, returns_bind, returns_query, returns_orElseThrow, returns_pure] at h
  obtain ⟨_, _, ⟨rfl, rfl⟩, link, _, ⟨hlink, rfl⟩, _, _, ⟨rfl, rfl⟩, source, _, ⟨hsource, rfl⟩, rfl,
    rfl⟩ := h
  obtain ⟨hmem, hid⟩ := Tables.mem_of_version? hsource
  exact ⟨rfl, List.mem_of_find?_eq_some hlink, by simpa using List.find?_some hlink, hmem, hid⟩

/-- The name an edge goes by: that of the link type, or its id. -/
def relName (env : Env) (linkTypeId : String) : String :=
  ((env.getLinkType linkTypeId).map (·.name)).getD linkTypeId

/-- **What `deleteLink` does**: it locks the node of the version that owns the link, deletes
the link, stores the digest of that version and publishes the end of the edge. No transaction is
looked at. -/
theorem deleteLink_told {env : Env} {ctx : Caller} {linkId : Uuid} {s s' : Db}
    (h : Returns (deleteLink env ctx linkId) s () s') :
    ∃ link source s₁,
      link ∈ s.links ∧ link.id = linkId ∧ source ∈ s.versions
      ∧ source.id = link.sourceNodeVersionId
      ∧ Returns (tryLock ctx source.nodeId) s () s₁
      ∧ s'.toTables = ((s₁.deleteLink linkId).refresh env source.nodeId source).withEvents
          ((s₁.resolveDstNodeId link.target).toList.map fun dst =>
            .linkDeleted source.nodeId dst (relName env link.linkTypeId)) := by
  simp only [deleteLink, checkSource, returns_bind, returns_execute, returns_require,
    returns_publishLink] at h
  obtain ⟨⟨link, source⟩, s₁, hload, _, s₂, hlock, _, s₃, hdel, _, s₄, ⟨-, rfl⟩, _, s₅, hfp, hs'⟩ := h
  obtain ⟨rfl, hlink, hlid, hsource, hsid⟩ := loadLink_ok hload
  obtain ⟨v, hv, hvid, hs₅⟩ := storeFingerprint_ok hfp
  have hvs : v ∈ s₁.versions := by
    rw [hdel, tryLock_frame hlock] at hv
    exact hv
  have hvsource : v = source := List.inj_on_of_nodup_map s₁.valid.pk_version hvs hsource hvid
  rw [hvsource] at hs₅
  refine ⟨link, source, s₂, hlink, hlid, hsource, hsid, hlock, ?_⟩
  rw [hs', hs₅, hdel]
  rfl

theorem deleteLink_ok {env : Env} {ctx : Caller} {linkId : Uuid} {s s' : Db}
    (h : Returns (deleteLink env ctx linkId) s () s') :
    ∃ link source s₁ es,
      link ∈ s.links ∧ link.id = linkId ∧ source ∈ s.versions
      ∧ source.id = link.sourceNodeVersionId
      ∧ Returns (tryLock ctx source.nodeId) s () s₁
      ∧ s'.toTables = ((s₁.deleteLink linkId).refresh env source.nodeId source).withEvents es := by
  obtain ⟨link, source, s₁, hlink, hlid, hsource, hsid, hlock, hs'⟩ := deleteLink_told h
  exact ⟨link, source, s₁, _, hlink, hlid, hsource, hsid, hlock, hs'⟩

/-- The link with a target and a logical id. -/
def LinkRow.pointingAt (l : LinkRow) (target : LinkTarget) (logicalId : Option String) : LinkRow :=
  { l with
    targetSourceId := target.sourceCode
    targetType := target.type
    targetKey := target.key
    linkLogicalId := logicalId }

/-- One link rewritten: its target and its logical id; the attribute rows become `rows`. -/
def Tables.writeLink (linkId : Uuid) (target : LinkTarget) (logicalId : Option String)
    (rows : List LinkAttributeRow) (t : Tables) : Tables :=
  { t with
    links := t.links.map fun l => if l.id = linkId then l.pointingAt target logicalId else l
    linkAttributes := rows }

/-- The attribute rows of other links are the same. -/
def SameOtherAttributes (linkId : Uuid) (rows rows' : List LinkAttributeRow) : Prop :=
  rows'.filter (·.nodeLinkId ≠ linkId) = rows.filter (·.nodeLinkId ≠ linkId)

theorem writeLinkAttribute_ok {linkId : Uuid} {a : String × Option String} {s s' : Db}
    (h : Returns (writeLinkAttribute linkId a) s () s') :
    ∃ rows, SameOtherAttributes linkId s.linkAttributes rows
      ∧ s'.toTables = { s.toTables with linkAttributes := rows } := by
  simp only [writeLinkAttribute, returns_bind, returns_execute, returns_ite, returns_pure] at h
  obtain ⟨_, s₁, h₁, ⟨-, -, rfl⟩ | ⟨-, h₂⟩⟩ := h
  · refine ⟨_, ?_, h₁⟩
    rw [SameOtherAttributes, List.filter_filter]
    refine List.filter_congr fun x _ => ?_
    by_cases hx : x.nodeLinkId = linkId <;> simp [hx]
  · refine ⟨s'.linkAttributes, ?_, by rw [h₂, h₁]; rfl⟩
    rw [h₂, h₁, SameOtherAttributes]
    simp only [Tables.insertLinkAttribute, Tables.deleteLinkAttribute, List.filter_append,
      List.filter_filter]
    have hnew : [(⟨linkId, a.1, a.2⟩ : LinkAttributeRow)].filter (·.nodeLinkId ≠ linkId) = [] := by
      simp
    rw [hnew, List.append_nil]
    refine List.filter_congr fun x _ => ?_
    by_cases hx : x.nodeLinkId = linkId <;> simp [hx]

theorem writeLinkAttributes_ok {linkId : Uuid} {as : List (String × Option String)} {s s' : Db}
    {u : Unit} (h : Returns (as.forM (writeLinkAttribute linkId)) s u s') :
    ∃ rows, SameOtherAttributes linkId s.linkAttributes rows
      ∧ s'.toTables = { s.toTables with linkAttributes := rows } := by
  induction as generalizing s with
  | nil =>
    rw [returns_forM_nil] at h
    exact ⟨s.linkAttributes, rfl, by rw [h]⟩
  | cons a as ih =>
    obtain ⟨s₁, h₁, h₂⟩ := returns_forM_cons.mp h
    obtain ⟨rows₁, hrows₁, hs₁⟩ := writeLinkAttribute_ok h₁
    obtain ⟨rows, hrows, hs'⟩ := ih h₂
    refine ⟨rows, ?_, by rw [hs', hs₁]⟩
    rw [SameOtherAttributes, hrows, hs₁]
    exact hrows₁

/-- Writing a stored link as it is changes nothing. -/
theorem writeLink_self {s : Db} {link : LinkRow} (hlink : link ∈ s.links) :
    s.writeLink link.id link.target link.linkLogicalId s.linkAttributes = s.toTables := by
  have hmap : (s.links.map fun l => if l.id = link.id then
      l.pointingAt link.target link.linkLogicalId else l) = s.links := by
    refine (List.map_congr_left fun l hl => ?_).trans (List.map_id _)
    split
    · rename_i hid
      rw [List.inj_on_of_nodup_map s.valid.pk_link hl hlink hid]
      rfl
    · rfl
  rw [Tables.writeLink, hmap]

theorem updateLinkRow_writeLink {linkId : Uuid} (target : LinkTarget) {target' : LinkTarget}
    (logicalId : Option String) {logicalId' : Option String} {rows : List LinkAttributeRow} {t : Tables}
    {f : LinkRow → LinkRow}
    (hf : ∀ l : LinkRow, f (l.pointingAt target logicalId) = l.pointingAt target' logicalId') :
    (t.writeLink linkId target logicalId rows).updateLinkRow linkId f
      = t.writeLink linkId target' logicalId' rows := by
  have hmap : ((t.links.map fun l => if l.id = linkId then l.pointingAt target logicalId else l).map
      fun l => if l.id = linkId then f l else l)
      = t.links.map fun l => if l.id = linkId then l.pointingAt target' logicalId' else l := by
    rw [List.map_map]
    refine List.map_congr_left fun l _ => ?_
    by_cases hid : l.id = linkId
    · have hid' : (l.pointingAt target logicalId).id = linkId := hid
      simp only [Function.comp_apply, if_pos hid, if_pos hid', hf]
    · simp only [Function.comp_apply, if_neg hid]
  simp only [Tables.updateLinkRow, Tables.writeLink, hmap]

/-- The events of a retargeting: the old edge ends, the new one begins. -/
def retargetEvents (t : Tables) (sourceNodeId : Uuid) (rel : String) (old new : LinkTarget) :
    List PlmEvent :=
  ((t.resolveDstNodeId old).toList.map fun dst => .linkDeleted sourceNodeId dst rel) ++
    (t.resolveDstNodeId new).toList.map fun dst => .linkCreated sourceNodeId dst rel true

/-- What the target part of an update does: the target was validated and is written, and the two
edges are published. -/
theorem retargetLink_ok {env : Env} {link : LinkRow} {source : VersionRow} {target : LinkTarget}
    {s s' : Db} (h : Returns (retargetLink env link source target) s () s') :
    (target.sourceCode = "SELF" → ∃ n, AcceptedTarget env s.toTables source.nodeId target n)
      ∧ s'.toTables = (s.updateLinkRow link.id fun l =>
          l.pointingAt target l.linkLogicalId).withEvents (retargetEvents s.toTables source.nodeId
            (relName env link.linkTypeId) link.target target) := by
  simp only [retargetLink, checkLinkType, checkSource, returns_bind, returns_orElseThrow,
    returns_require, returns_execute, returns_publishLink] at h
  obtain ⟨linkType, _, ⟨hlinkType, rfl⟩, _, _, ⟨_, _, ⟨-, rfl⟩, -, rfl⟩, _, _, hval, _, s₂, hupd, _,
    _, ⟨-, rfl⟩, _, s₃, hpub₁, hpub₂⟩ := h
  obtain ⟨rfl, haccepted⟩ := validateTarget_ok hval
  have hname : relName env link.linkTypeId = linkType.name := by
    simp [relName, hlinkType]
  refine ⟨haccepted, ?_⟩
  rw [hpub₂, hpub₁, hupd, hname]
  simp only [Tables.withEvents, List.append_assoc]
  rfl

/-- What the logical-id part of an update does: no other link of the version has the logical id,
and the link gets it. -/
theorem renameLink_ok {link : LinkRow} {logicalId : Option String} {s s' : Db}
    (h : Returns (renameLink link logicalId) s () s') :
    (∀ l ∈ s.linksOwnedBy link.sourceNodeVersionId, l.id ≠ link.id → l.linkLogicalId ≠ logicalId)
      ∧ s'.toTables = s.updateLinkRow link.id fun l => l.pointingAt l.target logicalId := by
  simp only [renameLink, returns_bind, returns_query, returns_require, returns_execute] at h
  obtain ⟨_, _, ⟨rfl, rfl⟩, _, _, ⟨hdup, rfl⟩, h⟩ := h
  refine ⟨fun l hl hid hsame => ?_, h⟩
  have hno := List.filter_eq_nil_iff.mp hdup l hl
  simp only [decide_eq_true_eq] at hno
  exact hno ⟨hsame, hid⟩

/-- The logical id after an update: the given one, which no other link of the owning version has,
or the stored one. -/
def LinkUpdate.Renames (u : LinkUpdate) (t : Tables) (link : LinkRow) (logicalId : Option String) :
    Prop :=
  nullOrBlank u.logicalId = true ∧ logicalId = link.linkLogicalId ∨
    nullOrBlank u.logicalId = false ∧ logicalId = u.logicalId ∧
      ∀ l ∈ t.linksOwnedBy link.sourceNodeVersionId, l.id ≠ link.id → l.linkLogicalId ≠ logicalId

/-- **What `updateLink` does**: it locks the node of the version that owns the link, rewrites
the target (validated and published, when the request gives one), the logical id and attributes of
that one link, and stores the digest of the newest open version of the node, or of the owner
when there is none. -/
theorem updateLink_checked {env : Env} {ctx : Caller} {linkId : Uuid} {u : LinkUpdate} {s s' : Db}
    (h : Returns (updateLink env ctx linkId u) s () s') :
    ∃ link source s₁ target logicalId rows v es,
      link ∈ s.links ∧ link.id = linkId ∧ source ∈ s.versions
      ∧ source.id = link.sourceNodeVersionId
      ∧ Returns (tryLock ctx source.nodeId) s () s₁
      ∧ u.Renames s.toTables link logicalId
      ∧ (u.targetChanged = false ∧ target = link.target ∧ es = [] ∨
          u.targetChanged = true ∧ target = u.newTarget link ∧ (target.sourceCode = "SELF" →
            ∃ n, AcceptedTarget env s₁.toTables source.nodeId target n) ∧
          es = retargetEvents s₁.toTables source.nodeId (relName env link.linkTypeId) link.target
            target)
      ∧ SameOtherAttributes linkId s₁.linkAttributes rows
      ∧ v ∈ s.versions
      ∧ v.id = ((s₁.newestOpenVersion source.nodeId).map (·.id)).getD source.id
      ∧ s'.toTables = ((s₁.writeLink linkId target logicalId rows).refresh env source.nodeId
          v).withEvents es := by
  simp only [updateLink, returns_bind, returns_ite, returns_pure, returns_query] at h
  obtain ⟨⟨link, source⟩, s₀, hload, _, s₁, hlock, _, s₂, htarget, _, s₃, hname, _, s₄, hattrs, _, _,
    ⟨rfl, rfl⟩, hfp⟩ := h
  obtain ⟨hs₀, hlink, hlid, hsource, hsid⟩ := loadLink_ok hload
  have hlinks₁ : s₁.links = s.links := by
    rw [tryLock_frame hlock, hs₀]
  have hlink₁ : link ∈ s₁.links := hlinks₁ ▸ hlink
  -- the target part leaves the row as it is, or writes the validated target
  have hs₂ : ∃ target es, s₂.toTables = (s₁.writeLink linkId target link.linkLogicalId
      s₁.linkAttributes).withEvents es ∧ (u.targetChanged = false ∧ target = link.target ∧ es = [] ∨
        u.targetChanged = true ∧ target = u.newTarget link ∧ (target.sourceCode = "SELF" →
          ∃ n, AcceptedTarget env s₁.toTables source.nodeId target n) ∧
        es = retargetEvents s₁.toTables source.nodeId (relName env link.linkTypeId) link.target
          target) := by
    rcases htarget with ⟨hc, hr⟩ | ⟨hc, -, hr⟩
    · obtain ⟨haccepted, hs₂⟩ := retargetLink_ok hr
      refine ⟨u.newTarget link, _, ?_, .inr ⟨hc, rfl, haccepted, rfl⟩⟩
      rw [hs₂, ← updateLinkRow_writeLink link.target _ (f := fun l =>
        l.pointingAt (u.newTarget link) l.linkLogicalId) (fun l => rfl), ← hlid, writeLink_self hlink₁]
    · refine ⟨link.target, [], ?_, .inl ⟨by simpa using hc, rfl, rfl⟩⟩
      rw [hr, ← hlid, writeLink_self hlink₁]
      simp [Tables.withEvents]
  obtain ⟨target, es, hs₂, hcases⟩ := hs₂
  -- the logical id is kept, or replaced by one the other links of the version do not have
  have hs₃ : ∃ logicalId, u.Renames s.toTables link logicalId ∧
      s₃.toTables = (s₁.writeLink linkId target logicalId s₁.linkAttributes).withEvents es := by
    rcases hname with ⟨hblank, -, rfl⟩ | ⟨hblank, hr⟩
    · exact ⟨_, .inl ⟨hblank, rfl⟩, hs₂⟩
    · obtain ⟨hdup, hs₃⟩ := renameLink_ok hr
      refine ⟨u.logicalId, .inr ⟨by simpa using hblank, rfl, fun l hl hid => ?_⟩, ?_⟩
      · obtain ⟨hl, howner⟩ := List.mem_filter.mp hl
        refine hdup l (List.mem_filter.mpr ⟨?_, howner⟩) hid
        rw [hs₂]
        refine List.mem_map.mpr ⟨l, hlinks₁ ▸ hl, ?_⟩
        rw [if_neg (hlid ▸ hid)]
      · rw [hs₃, hs₂, ← updateLinkRow_writeLink target
          link.linkLogicalId (f := fun l => l.pointingAt l.target u.logicalId)
          (fun l => rfl), hlid]
        rfl
  obtain ⟨logicalId, hrenames, hs₃⟩ := hs₃
  obtain ⟨rows, hrows, hs₄⟩ := writeLinkAttributes_ok hattrs
  obtain ⟨v, hv, hvid, hs'⟩ := storeFingerprint_ok hfp
  rw [hs₃] at hrows
  rw [hs₄, hs₃] at hv hvid
  have hvs : v ∈ s.versions := by
    rw [← hs₀]
    rw [tryLock_frame hlock] at hv
    exact hv
  refine ⟨link, source, s₁, target, logicalId, rows, v, es, hlink, hlid, hsource, hsid,
    hs₀ ▸ hlock, hrenames, hcases, hrows, hvs, hvid, ?_⟩
  rw [hs', hs₄, hs₃]
  rfl

/-- `updateLink` without the check of the logical id. -/
theorem updateLink_told {env : Env} {ctx : Caller} {linkId : Uuid} {u : LinkUpdate} {s s' : Db}
    (h : Returns (updateLink env ctx linkId u) s () s') :
    ∃ link source s₁ target logicalId rows v es,
      link ∈ s.links ∧ link.id = linkId ∧ source ∈ s.versions
      ∧ source.id = link.sourceNodeVersionId
      ∧ Returns (tryLock ctx source.nodeId) s () s₁
      ∧ (u.targetChanged = false ∧ target = link.target ∧ es = [] ∨
          u.targetChanged = true ∧ target = u.newTarget link ∧ (target.sourceCode = "SELF" →
            ∃ n, AcceptedTarget env s₁.toTables source.nodeId target n) ∧
          es = retargetEvents s₁.toTables source.nodeId (relName env link.linkTypeId) link.target
            target)
      ∧ SameOtherAttributes linkId s₁.linkAttributes rows
      ∧ v ∈ s.versions
      ∧ v.id = ((s₁.newestOpenVersion source.nodeId).map (·.id)).getD source.id
      ∧ s'.toTables = ((s₁.writeLink linkId target logicalId rows).refresh env source.nodeId
          v).withEvents es := by
  obtain ⟨link, source, s₁, target, logicalId, rows, v, es, hlink, hlid, hsource, hsid, hlock, -,
    hrest⟩ := updateLink_checked h
  exact ⟨link, source, s₁, target, logicalId, rows, v, es, hlink, hlid, hsource, hsid, hlock, hrest⟩

theorem updateLink_ok {env : Env} {ctx : Caller} {linkId : Uuid} {u : LinkUpdate} {s s' : Db}
    (h : Returns (updateLink env ctx linkId u) s () s') :
    ∃ link source s₁ target logicalId rows v es,
      link ∈ s.links ∧ link.id = linkId ∧ source ∈ s.versions
      ∧ source.id = link.sourceNodeVersionId
      ∧ Returns (tryLock ctx source.nodeId) s () s₁
      ∧ (u.targetChanged = false ∧ target = link.target ∨
          u.targetChanged = true ∧ target = u.newTarget link ∧ (target.sourceCode = "SELF" →
            ∃ n, AcceptedTarget env s₁.toTables source.nodeId target n))
      ∧ SameOtherAttributes linkId s₁.linkAttributes rows
      ∧ v ∈ s.versions
      ∧ v.id = ((s₁.newestOpenVersion source.nodeId).map (·.id)).getD source.id
      ∧ s'.toTables = ((s₁.writeLink linkId target logicalId rows).refresh env source.nodeId
          v).withEvents es := by
  obtain ⟨link, source, s₁, target, logicalId, rows, v, es, hlink, hlid, hsource, hsid, hlock, hcases,
    hrest⟩ := updateLink_told h
  refine ⟨link, source, s₁, target, logicalId, rows, v, es, hlink, hlid, hsource, hsid, hlock, ?_,
    hrest⟩
  obtain ⟨hc, ht, -⟩ | ⟨hc, ht, haccepted, -⟩ := hcases
  · exact .inl ⟨hc, ht⟩
  · exact .inr ⟨hc, ht, haccepted⟩

end PlmCore.Psm
