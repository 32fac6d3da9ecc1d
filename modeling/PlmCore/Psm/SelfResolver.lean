/-
`SelfNodeResolver`: the resolver of the source `SELF`, whose targets are nodes of this
store.

A key is a logical id, optionally followed by `@` and a version number. `resolve` looks a
key up, `validate` decides whether a link may point at it. The two walks `validate` makes
over the stored links are searches of `PlmCore.Lib.Search`: `hasAncestorOfType` upwards by
logical id, `createsCycle` downwards by node id.
-/
import PlmCore.Lib.Search
import PlmCore.Psm.Config

set_option autoImplicit false

namespace PlmCore.Psm

open PlmCore.Lib

/-! ## Keys -/

/-- `ParsedKey`. -/
structure ParsedKey where
  logicalId : String
  versionNumber : Option Int
  deriving DecidableEq

/-- `SelfNodeResolver.parseKey`: the key is split at its first `@`. -/
def parseKey (key : String) : Except PlmError ParsedKey :=
  if hasAt key = false then .ok ⟨key, none⟩
  else if beforeAt key = "" ∨ afterAt key = "" then
    .error (.illegalArgument ("SELF: malformed key: " ++ key))
  else match parseInt (afterAt key) with
    | some versionNumber => .ok ⟨beforeAt key, some versionNumber⟩
    | none => .error (.illegalArgument ("SELF: version must be an integer in key " ++ key))

/-- The logical id of a parsed key is what stands before the first `@`. -/
theorem parseKey_logicalId {key : String} {p : ParsedKey} (h : parseKey key = .ok p) :
    p.logicalId = beforeAt key := by
  unfold parseKey at h
  split at h
  · rename_i hat
    cases h
    exact (beforeAt_of_not_hasAt hat).symm
  · split at h
    · cases h
    · split at h
      · cases h
        rfl
      · cases h

/-- A parsed key carries a version number exactly when it contains an `@`. -/
theorem parseKey_versionNumber {key : String} {p : ParsedKey} (h : parseKey key = .ok p) :
    p.versionNumber = none ↔ hasAt key = false := by
  unfold parseKey at h
  split at h
  · rename_i hat
    cases h
    simp [hat]
  · rename_i hat
    split at h
    · cases h
    · split at h
      · cases h
        simp [hat]
      · cases h

/-! ## Resolving -/

/-- `ResolvedTarget`, with the node and the version its details describe. -/
structure ResolvedTarget where
  displayId : String
  type : String
  pinnedKey : Option String
  node : NodeRow
  version : Option VersionRow
  deriving DecidableEq

/-- The fallback of `resolve`: the node of that logical id, if its type is the wanted one or
a descendant of it. -/
def resolveDescendant (env : Env) (type logicalId : String) : Plm NodeRow := do
  let row ← fetchOne fun s => s.nodesByLogicalId logicalId
  let node ← orElseThrow row (.illegalArgument ("SELF: no node with logical_id=" ++ logicalId))
  require (env.isTypeOrDescendant node.nodeTypeId type = true) (.illegalArgument
    ("SELF: node " ++ logicalId ++ " is not a " ++ type ++ " (was " ++ node.nodeTypeId ++ ")"))
  pure node

/-- The node `resolve` finds. -/
def resolveNode (env : Env) (type logicalId : String) : Plm NodeRow := do
  let exact ← fetchOne fun s =>
    s.nodes.filter fun n => n.logicalId = some logicalId ∧ n.nodeTypeId = type
  match exact with
  | some node => pure node
  | none => resolveDescendant env type logicalId

/-- The committed version `resolve` finds for a pinned key. -/
def resolveVersion (node : NodeRow) (logicalId : String) (versionNumber : Int) :
    Plm ResolvedTarget := do
  let row ← fetchOne fun s => s.versions.filter fun v =>
    v.nodeId = node.id ∧ (v.versionNumber : Int) = versionNumber ∧ s.isCommitted v.txId
  let version ← orElseThrow row (.illegalArgument
    ("SELF: no committed version " ++ toString versionNumber ++ " for node " ++ logicalId))
  let pinned := logicalId ++ "@" ++ toString versionNumber
  pure ⟨pinned, node.nodeTypeId, some pinned, node, some version⟩

/-- `SelfNodeResolver.resolve`. -/
def selfResolve (env : Env) (type key : String) : Plm ResolvedTarget := do
  let p ← ofResult (parseKey key)
  let node ← resolveNode env type p.logicalId
  match p.versionNumber with
  | none => pure ⟨p.logicalId, node.nodeTypeId, none, node, none⟩
  | some versionNumber => resolveVersion node p.logicalId versionNumber

/-! ## The walks of `validate` -/

namespace Tables

variable (t : Tables)

/-- The link belongs to a version of the node: `JOIN node_version nv ON nv.id =
nl.source_node_version_id … WHERE nv.node_id = ?`. -/
def isLinkOf (nodeId : Uuid) (l : LinkRow) : Bool :=
  t.versions.any fun v => v.id = l.sourceNodeVersionId ∧ v.nodeId = nodeId

/-- `JOIN node n ON n.logical_id = CASE … SUBSTR(…) … END AND n.node_type_id =
nl.target_type`: the nodes of exactly the declared type. -/
def joinedTargets (l : LinkRow) : List NodeRow :=
  t.nodes.filter fun n => n.logicalId = some (beforeAt l.targetKey) ∧ n.nodeTypeId = l.targetType

/-- The children query of `createsCycle`. A node without a logical id is skipped. -/
def cycleChildren (current : Uuid) : List Uuid :=
  match (t.node? current).bind (·.logicalId) with
  | none => []
  | some _ =>
    ((t.links.filter fun l => t.isLinkOf current l ∧ l.targetSourceId = "SELF").flatMap
      fun l => (t.joinedTargets l).map (·.id)).dedup

/-- `SelfNodeResolver.createsCycle`: from the target down to the source. -/
def createsCycle (sourceNodeId targetNodeId : Uuid) : Bool :=
  search t.cycleChildren (· = sourceNodeId) some (t.nodes.length + 1) [targetNodeId] [targetNodeId]

/-- The committed parents of a logical id: the query of `hasAncestorOfType`. The key matches
as it stands or with a version suffix, the latter by `LIKE`. -/
def selfParents (current : String) : List NodeRow :=
  (t.links.flatMap fun l =>
    if l.targetSourceId = "SELF" ∧ (l.targetKey = current ∨ sqlLike l.targetKey (current ++ "@%"))
    then t.nodes.filter fun n => t.versions.any fun v =>
      v.id = l.sourceNodeVersionId ∧ v.nodeId = n.id ∧ t.isCommitted v.txId
    else []).dedup

/-- `SelfNodeResolver.hasAncestorOfType`. -/
def hasAncestorOfType (env : Env) (logicalId expectedType : String) : Bool :=
  search t.selfParents (fun n => env.isTypeOrDescendant n.nodeTypeId expectedType) (·.logicalId)
    (t.nodes.length + 1) [logicalId] [logicalId]

end Tables

/-! ## Validating -/

/-- The type violation of `validate`. -/
def typeViolations (env : Env) (t : Tables) (logicalId allowedType : String) (target : NodeRow) :
    List GuardViolation :=
  if env.isTypeOrDescendant target.nodeTypeId allowedType = false
      ∧ t.hasAncestorOfType env logicalId allowedType = false then
    [⟨"SELF_WRONG_TYPE", "Target " ++ logicalId ++ " is " ++ target.nodeTypeId ++ ", expected "
      ++ allowedType, true⟩]
  else []

/-- The cycle violation of `validate`, for keys without a version. -/
def cycleViolations (t : Tables) (sourceNodeId : Uuid) (p : ParsedKey) (target : NodeRow) :
    List GuardViolation :=
  if p.versionNumber = none then
    if sourceNodeId = target.id then
      [⟨"SELF_SELF_LINK", "Cannot link a node to itself", true⟩]
    else if t.createsCycle sourceNodeId target.id = true then
      [⟨"SELF_CYCLE", "Adding this link would create a cycle in the structural graph", true⟩]
    else []
  else []

/-- `SelfNodeResolver.validate`. The callers pass the link's own target type as the allowed
type. -/
def selfValidate (env : Env) (req : ResolverRequest) : Plm (List GuardViolation) := do
  let p ← ofResult (parseKey req.key)
  let row ← fetchOne fun s => s.nodesByLogicalId p.logicalId
  match row with
  | none =>
    pure [⟨"SELF_TARGET_NOT_FOUND", "Target node not found: " ++ p.logicalId, true⟩]
  | some target =>
    query fun s => typeViolations env s.toTables p.logicalId req.type target
      ++ cycleViolations s.toTables req.sourceNodeId p target

/-! ## What an accepted key tells -/

/-- **A key `validate` lets through.** It parses, one node has its logical part as logical
id, that node has an accepted type, and without a version suffix the link closes no
cycle. -/
theorem selfValidate_ok {env : Env} {req : ResolverRequest} {s s' : Db} {vs : List GuardViolation}
    (h : Returns (selfValidate env req) s vs s') (hblocks : ∀ v ∈ vs, v.blocks = false) :
    s' = s ∧ ∃ p target, parseKey req.key = .ok p ∧ s.nodesByLogicalId p.logicalId = [target] ∧
      (env.isTypeOrDescendant target.nodeTypeId req.type = true ∨
        s.hasAncestorOfType env p.logicalId req.type = true) ∧
      (p.versionNumber = none →
        req.sourceNodeId ≠ target.id ∧ s.createsCycle req.sourceNodeId target.id = false) := by
  simp only [selfValidate, returns_bind, returns_ofResult, returns_fetchOne] at h
  obtain ⟨p, _, ⟨hp, rfl⟩, row, _, ⟨rfl, hrow⟩, h⟩ := h
  cases row with
  | none =>
    obtain ⟨rfl, -⟩ := returns_pure.mp h
    simp at hblocks
  | some target =>
    obtain ⟨rfl, rfl⟩ := returns_query.mp h
    refine ⟨rfl, p, target, hp, hrow, ?_, fun hv => ?_⟩
    · by_contra hne
      have htype : typeViolations env s'.toTables p.logicalId req.type target ≠ [] := by
        simp only [not_or, Bool.not_eq_true] at hne
        simp [typeViolations, hne]
      obtain ⟨v, hv⟩ := List.exists_mem_of_ne_nil _ htype
      have hb := hblocks v (List.mem_append_left _ hv)
      unfold typeViolations at hv
      split at hv
      · obtain rfl := List.mem_singleton.mp hv
        cases hb
      · cases hv
    · by_contra hne
      have hcycle : cycleViolations s'.toTables req.sourceNodeId p target ≠ [] := by
        unfold cycleViolations
        grind
      obtain ⟨v, hv'⟩ := List.exists_mem_of_ne_nil _ hcycle
      have hb := hblocks v (List.mem_append_right _ hv')
      unfold cycleViolations at hv'
      grind

end PlmCore.Psm
