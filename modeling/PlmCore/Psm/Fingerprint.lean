/-
`FingerPrintService.compute`: the text it builds from a version and hands to SHA-256.

The text is assembled from four queries: the version's row, its attribute values, the
effective links of the version with their attribute values, and its domains.
`VersionContent` is what those queries return and `fingerprintText` the string the code
appends from it, so the database part (`contentOf`) and the text part are separate and
each can be reasoned about alone.
-/
import Mathlib.Data.List.Sort
import Mathlib.Data.Prod.Lex
import Mathlib.Data.String.Basic
import PlmCore.Psm.Config

set_option autoImplicit false

namespace PlmCore.Psm

open PlmCore.Lib

/-! ## What the queries return -/

/-- An effective link with its attribute values. -/
structure LinkContent where
  id : Uuid
  linkTypeId : String
  targetSourceId : String
  targetType : String
  targetKey : String
  linkLogicalId : Option String
  attributes : List (String × Option String)
  deriving DecidableEq

/-- Everything `compute` reads about a version. -/
structure VersionContent where
  lifecycleStateId : Option String
  attributes : List (String × Option String)
  links : List LinkContent
  domains : List String
  deriving DecidableEq

namespace Tables

variable (t : Tables)

/-- The `WHERE` clause of the link query: the link belongs to a version of the node that
is committed or is the version itself, and is not newer than it. -/
def isEffectiveLink (nodeId : Uuid) (v : VersionRow) (l : LinkRow) : Bool :=
  t.versions.any fun w => w.id = l.sourceNodeVersionId ∧ w.nodeId = nodeId
    ∧ (t.isCommitted w.txId ∨ w.id = v.id) ∧ w.versionNumber ≤ v.versionNumber

/-- The effective links of a version: its own, and those it inherits. -/
def effectiveLinks (nodeId : Uuid) (v : VersionRow) : List LinkRow :=
  t.links.filter (t.isEffectiveLink nodeId v)

/-- A link row together with its attribute rows. -/
def linkContent (l : LinkRow) : LinkContent where
  id := l.id
  linkTypeId := l.linkTypeId
  targetSourceId := l.targetSourceId
  targetType := l.targetType
  targetKey := l.targetKey
  linkLogicalId := l.linkLogicalId
  attributes := (t.attributesOfLink l.id).map fun a => (a.attributeId, a.value)

/-- What `compute(nodeId, v.id)` reads. -/
def contentOf (nodeId : Uuid) (v : VersionRow) : VersionContent where
  lifecycleStateId := v.lifecycleStateId
  attributes := (t.attributesOf v.id).map fun a => (a.attributeDefId, a.value)
  links := (t.effectiveLinks nodeId v).map t.linkContent
  domains := (t.domainsOf v.id).map (·.domainId)

end Tables

/-! ## The text -/

/-- `ORDER BY nl.link_type_id, nl.target_source_id, nl.target_type, nl.target_key, nl.id`. -/
def LinkContent.sortKey (l : LinkContent) : String ×ₗ String ×ₗ String ×ₗ String ×ₗ Uuid :=
  toLex (l.linkTypeId, toLex (l.targetSourceId, toLex (l.targetType, toLex (l.targetKey, l.id))))

/-- `ORDER BY attribute_def_id`, and `nvla.attribute_id` within a link. -/
def sortedAttributes (as : List (String × Option String)) : List (String × Option String) :=
  as.insertionSort fun a b => a.1 ≤ b.1

/-- The links in the order of the query. -/
def sortedLinks (ls : List LinkContent) : List LinkContent :=
  ls.insertionSort fun a b => a.sortKey ≤ b.sortKey

/-- `ORDER BY domain_id`. -/
def sortedDomains (ds : List String) : List String := ds.insertionSort (· ≤ ·)

/-- One attribute value: `id:value;`. -/
def attributeText (a : String × Option String) : String := a.1 ++ ":" ++ nvl a.2 ++ ";"

/-- One link attribute value: `[id=value]`. -/
def linkAttributeText (a : String × Option String) : String :=
  "[" ++ a.1 ++ "=" ++ nvl a.2 ++ "]"

/-- One link: `type:source:targetType:key:logicalId[id=value]…`. -/
def linkText (l : LinkContent) : String :=
  l.linkTypeId ++ ":" ++ l.targetSourceId ++ ":" ++ l.targetType ++ ":" ++ l.targetKey ++ ":"
    ++ nvl l.linkLogicalId
    ++ String.join ((sortedAttributes l.attributes).map linkAttributeText)

/-- The text `compute` hashes. The code writes `;` before every link but the first and
once more after the last, that is once after each link. -/
def fingerprintText (c : VersionContent) : String :=
  "state=" ++ nvl c.lifecycleStateId
    ++ "|attrs=" ++ String.join ((sortedAttributes c.attributes).map attributeText)
    ++ "|links=" ++ String.join ((sortedLinks c.links).map fun l => linkText l ++ ";")
    ++ "|domains=" ++ String.join ((sortedDomains c.domains).map fun d => d ++ ";")

/-- The digest of a stored version. -/
def fingerprintOf (env : Env) (t : Tables) (v : VersionRow) : String :=
  env.sha256 (fingerprintText (t.contentOf v.nodeId v))

/-- `FingerPrintService.compute`. -/
def compute (env : Env) (nodeId nodeVersionId : Uuid) : Plm String := do
  let version ← query (·.version? nodeVersionId)
  let v ← orElseThrow version
    (.illegalArgument ("Version not found: " ++ toString nodeVersionId))
  let content ← query fun s => s.contentOf nodeId v
  pure (env.sha256 (fingerprintText content))

/-- `compute` reads and writes nothing. -/
theorem returns_compute {env : Env} {nodeId vid : Uuid} {s s' : Db} {fp : String} :
    Returns (compute env nodeId vid) s fp s' ↔
      s' = s ∧ ∃ v, s.version? vid = some v ∧
        fp = env.sha256 (fingerprintText (s.contentOf nodeId v)) := by
  simp only [compute, returns_bind, returns_query, returns_orElseThrow, returns_pure]
  constructor
  · rintro ⟨_, _, ⟨rfl, rfl⟩, v, _, ⟨hv, rfl⟩, _, _, ⟨rfl, rfl⟩, rfl, rfl⟩
    exact ⟨rfl, v, hv, rfl⟩
  · rintro ⟨rfl, v, hv, rfl⟩
    exact ⟨_, _, ⟨rfl, rfl⟩, v, _, ⟨hv, rfl⟩, _, _, ⟨rfl, rfl⟩, rfl, rfl⟩

end PlmCore.Psm
