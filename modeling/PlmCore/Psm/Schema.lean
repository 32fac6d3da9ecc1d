/-
The business tables of psm-api, as `V1__schema.sql` declares them, and the values that
satisfy the schema.

A table is the list of its rows in insertion order. `Tables` holds every table; `Valid`
is the conjunction of the declared primary keys, unique constraints and foreign keys;
`Db` is a `Tables` with a proof of `Valid`, so a store that breaks a constraint cannot
be built. `execute` is one SQL statement: it computes the new tables and succeeds
exactly when the declared constraints hold of them, which is how the database checks
non-deferred constraints (at the end of the statement). Cascading deletes belong to
the statement that triggers them.

Row ids are UUIDs in the code. Here a UUID is a number taken from the counter `nextId`,
so two generated ids differ; `Valid` says that version ids are such numbers. Tables whose `id` column no query reads
(`node_version_attribute`, `node_version_link_attribute`, `node_version_domain`,
`baseline_entry`, `event_outbox`) leave it out.
-/
import Mathlib.Data.List.Nodup
import Mathlib.Tactic.MkIffOfInductiveProp
import PlmCore.Lib.Txn

set_option autoImplicit false

namespace PlmCore.Psm

open PlmCore.Lib

/-- A generated row id. -/
abbrev Uuid := Nat

/-! ## Rows -/

/-- `plm_transaction.status`; the CHECK constraint allows no third value. -/
inductive TransactionStatus
  | OPEN
  | COMMITTED
  deriving DecidableEq

/-- `Enums.ChangeType`. -/
inductive ChangeType
  | CONTENT
  | LIFECYCLE
  | SIGNATURE
  deriving DecidableEq

/-- A row of `plm_transaction`. -/
structure TransactionRow where
  id : Uuid
  ownerId : String
  status : TransactionStatus
  commitComment : Option String
  createdAt : Nat
  committedAt : Option Nat
  deriving DecidableEq

/-- A row of `node`. The lock is the pair `lockedBy`, `lockedAt`. -/
structure NodeRow where
  id : Uuid
  nodeTypeId : String
  projectSpaceId : Option String
  logicalId : Option String
  externalId : Option String
  lockedBy : Option String
  lockedAt : Option Nat
  createdAt : Nat
  createdBy : String
  deriving DecidableEq

/-- A row of `node_version`. -/
structure VersionRow where
  id : Uuid
  nodeId : Uuid
  versionNumber : Nat
  revision : String
  iteration : Nat
  lifecycleStateId : Option String
  changeType : ChangeType
  changeDescription : Option String
  txId : Uuid
  previousVersionId : Option Uuid
  previousVersionFingerprint : Option String
  fingerprint : Option String
  branch : String
  createdAt : Nat
  createdBy : String
  deriving DecidableEq

/-- A row of `node_version_attribute`. -/
structure AttributeRow where
  nodeVersionId : Uuid
  attributeDefId : String
  value : Option String
  deriving DecidableEq

/-- A row of `node_version_link`. -/
structure LinkRow where
  id : Uuid
  linkTypeId : String
  sourceNodeVersionId : Uuid
  targetSourceId : String
  targetType : String
  targetKey : String
  linkLogicalId : Option String
  createdAt : Nat
  createdBy : String
  deriving DecidableEq

/-- A row of `node_version_link_attribute`. -/
structure LinkAttributeRow where
  nodeLinkId : Uuid
  attributeId : String
  value : Option String
  deriving DecidableEq

/-- A row of `node_version_domain`. -/
structure DomainRow where
  nodeVersionId : Uuid
  domainId : String
  deriving DecidableEq

/-- A row of `node_signature`. -/
structure SignatureRow where
  id : Uuid
  nodeId : Uuid
  nodeVersionId : Uuid
  signedBy : String
  signedAt : Nat
  meaning : String
  comment : Option String
  signedVersionFingerprint : Option String
  deriving DecidableEq

/-- A row of `baseline`. -/
structure BaselineRow where
  id : Uuid
  name : String
  description : Option String
  createdAt : Nat
  createdBy : String
  deriving DecidableEq

/-- A row of `baseline_entry`. -/
structure BaselineEntryRow where
  baselineId : Uuid
  nodeLinkId : Uuid
  resolvedKey : String
  deriving DecidableEq

/-- A row of `node_version_comment`. -/
structure CommentRow where
  id : Uuid
  nodeId : Uuid
  nodeVersionId : Uuid
  author : String
  createdAt : Nat
  text : String
  versionFingerprint : Option String
  parentCommentId : Option Uuid
  attributeName : Option String
  deriving DecidableEq

/-- The search document `NodeService.buildNodePayload` embeds in item events: the node's
identity, its current version and the values of the attributes in scope. -/
structure NodePayload where
  typeCode : String
  projectSpaceId : String
  logicalId : String
  revision : String
  iteration : Nat
  stateName : String
  fields : List (String × String)
  deriving DecidableEq

/-- The messages `PlmEventPublisher` writes to `event_outbox`. An empty payload is `none`. -/
inductive PlmEvent
  | lockAcquired (nodeId : Uuid) (lockedBy : String)
  | lockReleased (nodeId : Uuid) (releasedBy : String)
  | stateChanged (nodeId : Uuid) (fromState toState byUser : String)
  | baselineCreated (baselineId : Uuid) (name byUser : String)
  | itemCreated (nodeId : Uuid) (typeCode userId : String) (projectSpaceId : Option String)
      (payload : Option NodePayload)
  | itemCaptured (nodeId txId : Uuid) (byUser : String)
  | itemUpdated (nodeId : Uuid) (byUser : String) (payload : Option NodePayload)
  | itemDefinitionUpdated (nodeId : Uuid) (byUser : String)
  | signed (nodeId : Uuid) (signedBy meaning : String)
  | itemVersionCreated (nodeId : Uuid) (byUser : String)
  | transactionCommitted (txId : Uuid) (nodeIds : List Uuid) (byUser : String)
  | transactionRolledBack (txId : Uuid) (nodeIds : List Uuid) (byUser : String)
  | itemDeleted (nodeId : Uuid) (byUser : String)
  | itemsReleased (nodeIds : List Uuid) (byUser : String)
  | commentAdded (nodeId commentId nodeVersionId : Uuid) (byUser : String)
  | linkCreated (srcId dstId : Uuid) (relType : String) (structural : Bool)
  | linkDeleted (srcId dstId : Uuid) (relType : String)
  deriving DecidableEq

/-! ## The store -/

/-- Every table of the schema, the outbox, and the supply of generated ids. -/
@[ext]
structure Tables where
  txs : List TransactionRow
  nodes : List NodeRow
  versions : List VersionRow
  attributes : List AttributeRow
  links : List LinkRow
  linkAttributes : List LinkAttributeRow
  domains : List DomainRow
  signatures : List SignatureRow
  baselines : List BaselineRow
  baselineEntries : List BaselineEntryRow
  comments : List CommentRow
  outbox : List PlmEvent
  nextId : Uuid
  deriving DecidableEq

namespace Tables

/-- The ids of the stored versions. -/
def versionIds (t : Tables) : List Uuid := t.versions.map (·.id)

/-- The ids of the stored nodes. -/
def nodeIds (t : Tables) : List Uuid := t.nodes.map (·.id)

/-- The ids of the stored links. -/
def linkIds (t : Tables) : List Uuid := t.links.map (·.id)

/-- The ids of the stored transactions. -/
def txIds (t : Tables) : List Uuid := t.txs.map (·.id)

/-- The primary keys and unique constraints `V1__schema.sql` declares. -/
@[mk_iff]
structure Keys (t : Tables) : Prop where
  pk_tx : t.txIds.Nodup
  pk_node : t.nodeIds.Nodup
  pk_version : t.versionIds.Nodup
  uq_node_version : (t.versions.map fun v => (v.nodeId, v.versionNumber)).Nodup
  uq_node_version_attr : (t.attributes.map fun a => (a.nodeVersionId, a.attributeDefId)).Nodup
  pk_link : t.linkIds.Nodup
  uq_nvla : (t.linkAttributes.map fun a => (a.nodeLinkId, a.attributeId)).Nodup
  uq_nvd : (t.domains.map fun d => (d.nodeVersionId, d.domainId)).Nodup
  pk_signature : (t.signatures.map (·.id)).Nodup
  pk_baseline : (t.baselines.map (·.id)).Nodup
  pk_comment : (t.comments.map (·.id)).Nodup

/-- The foreign keys of the node and version tables. -/
@[mk_iff]
structure VersionReferences (t : Tables) : Prop where
  fk_version_node : ∀ v ∈ t.versions, v.nodeId ∈ t.nodeIds
  fk_version_tx : ∀ v ∈ t.versions, v.txId ∈ t.txIds
  fk_version_previous : ∀ v ∈ t.versions, ∀ p ∈ v.previousVersionId, p ∈ t.versionIds
  fk_attribute_version : ∀ a ∈ t.attributes, a.nodeVersionId ∈ t.versionIds
  fk_link_version : ∀ l ∈ t.links, l.sourceNodeVersionId ∈ t.versionIds
  fk_link_attribute : ∀ a ∈ t.linkAttributes, a.nodeLinkId ∈ t.linkIds
  fk_domain_version : ∀ d ∈ t.domains, d.nodeVersionId ∈ t.versionIds

/-- The foreign keys of signatures, baselines and comments. -/
@[mk_iff]
structure AnnotationReferences (t : Tables) : Prop where
  fk_signature_node : ∀ g ∈ t.signatures, g.nodeId ∈ t.nodeIds
  fk_signature_version : ∀ g ∈ t.signatures, g.nodeVersionId ∈ t.versionIds
  fk_entry_baseline : ∀ e ∈ t.baselineEntries, e.baselineId ∈ t.baselines.map (·.id)
  fk_entry_link : ∀ e ∈ t.baselineEntries, e.nodeLinkId ∈ t.linkIds
  fk_comment_node : ∀ c ∈ t.comments, c.nodeId ∈ t.nodeIds
  fk_comment_version : ∀ c ∈ t.comments, c.nodeVersionId ∈ t.versionIds
  fk_comment_parent : ∀ c ∈ t.comments, ∀ p ∈ c.parentCommentId, p ∈ t.comments.map (·.id)

instance (t : Tables) : Decidable t.Keys := decidable_of_iff _ (keys_iff t).symm

instance (t : Tables) : Decidable t.VersionReferences :=
  decidable_of_iff _ (versionReferences_iff t).symm

instance (t : Tables) : Decidable t.AnnotationReferences :=
  decidable_of_iff _ (annotationReferences_iff t).symm

/-- The constraints `V1__schema.sql` declares, and that version ids are generated ones: an id
is never handed out twice, so a deleted version's id does not come back. -/
structure Valid (t : Tables) : Prop extends Keys t, VersionReferences t, AnnotationReferences t where
  generated : ∀ v ∈ t.versions, v.id < t.nextId

instance (t : Tables) : Decidable t.Valid :=
  if h₁ : t.Keys then
    if h₂ : t.VersionReferences then
      if h₃ : t.AnnotationReferences then
        if h₄ : ∀ v ∈ t.versions, v.id < t.nextId then .isTrue { h₁, h₂, h₃ with generated := h₄ }
        else .isFalse fun h => h₄ h.generated
      else .isFalse fun h => h₃ h.toAnnotationReferences
    else .isFalse fun h => h₂ h.toVersionReferences
  else .isFalse fun h => h₁ h.toKeys

/-- The store before anything was written. -/
def empty : Tables :=
  ⟨[], [], [], [], [], [], [], [], [], [], [], [], 0⟩

theorem empty_valid : empty.Valid := by decide

end Tables

/-- A store that satisfies its schema. -/
structure Db extends Tables where
  valid : toTables.Valid

/-- The empty database. -/
def Db.empty : Db := ⟨Tables.empty, Tables.empty_valid⟩

/-- Two stores with the same tables are the same store. -/
theorem Db.ext {s s' : Db} (h : s.toTables = s'.toTables) : s = s' := by
  cases s
  cases s'
  congr

/-! ## Failures -/

/-- A violated soft or hard attribute rule, `ValidationService.Violation`. -/
structure Violation where
  code : String
  attrCode : Option String
  attrLabel : Option String
  message : String
  deriving DecidableEq

/-- The exceptions of the modelled services. -/
inductive PlmError
  | illegalArgument (message : String)
  | illegalState (message : String)
  | accessDenied (message : String)
  | lockConflict (nodeId : Uuid) (lockedBy : String)
  | frozenState (nodeId : Uuid) (stateId : String)
  | cascadeBlocked (blockedNodes : List String)
  | validation (violations : List Violation)
  | dataIntegrity
  | tooManyRows
  | nullPointer (message : String)
  | stackOverflow
  deriving DecidableEq

/-- `Throwable.getMessage` of each exception. -/
def PlmError.getMessage : PlmError → String
  | .illegalArgument m => m
  | .illegalState m => m
  | .accessDenied m => m
  | .lockConflict nodeId lockedBy => "Node " ++ toString nodeId ++ " is locked by " ++ lockedBy
  | .frozenState nodeId stateId =>
    "Node " ++ toString nodeId ++ " is in a frozen state (" ++ stateId
      ++ ") — content modifications are not allowed"
  | .cascadeBlocked blockedNodes =>
    "Cascade blocked — the following nodes cannot be transitioned:\n"
      ++ String.intercalate "\n" (blockedNodes.map fun s => "  • " ++ s)
  | .validation violations => String.intercalate "; " (violations.map (·.message))
  | .dataIntegrity => "data integrity violation"
  | .tooManyRows => "cursor returned more than one result"
  | .nullPointer m => m
  | .stackOverflow => "stack overflow"

/-- A `java.lang.Error`, which `catch (Exception e)` does not catch. -/
def PlmError.isJavaError : PlmError → Bool
  | .stackOverflow => true
  | _ => false

/-- A service method: it runs in one database transaction. -/
abbrev Plm := Txn Db PlmError

/-! ## Statements -/

/-- One SQL statement that rewrites the tables by `f`. -/
def execute (f : Tables → Tables) : Plm Unit := fun s =>
  if h : (f s.toTables).Valid then (.ok (), ⟨f s.toTables, h⟩) else (.error .dataIntegrity, s)

/-- **A statement that returns has done exactly its rewriting.** -/
@[simp] theorem returns_execute {f : Tables → Tables} {s s' : Db} {u : Unit} :
    Returns (execute f) s u s' ↔ s'.toTables = f s.toTables := by
  constructor
  · intro h
    unfold Returns execute at h
    split at h
    · cases h
      rfl
    · cases h
  · intro h
    have hv : (f s.toTables).Valid := h ▸ s'.valid
    have hs : s' = ⟨f s.toTables, hv⟩ := Db.ext h
    unfold Returns execute
    rw [dif_pos hv, hs]

/-- A statement succeeds exactly when the schema admits the tables it computes. -/
theorem execute_succeeds {f : Tables → Tables} {s : Db} :
    (∃ s', Returns (execute f) s () s') ↔ (f s.toTables).Valid := by
  constructor
  · rintro ⟨s', h⟩
    exact returns_execute.mp h ▸ s'.valid
  · intro h
    exact ⟨⟨f s.toTables, h⟩, returns_execute.mpr rfl⟩

/-- A statement does its rewriting, or breaks a constraint and leaves the store alone. -/
theorem outcome_execute {f : Tables → Tables} {s : Db} {P : Unit → Db → Prop}
    {Q : PlmError → Db → Prop} (hP : ∀ s' : Db, s'.toTables = f s.toTables → P () s')
    (hQ : Q .dataIntegrity s) : Outcome (execute f) s P Q := by
  constructor
  · intro u s' h
    exact hP s' (returns_execute.mp h)
  · intro e s' h
    unfold execute at h
    by_cases hv : (f s.toTables).Valid
    · rw [dif_pos hv] at h
      cases h
    · rw [dif_neg hv] at h
      cases h
      exact hQ

/-- A loop of statements is the fold of their rewritings. -/
theorem returns_forM_execute {α : Type} {f : α → Tables → Tables} {xs : List α} {s s' : Db}
    {u : PUnit} (h : Returns (xs.forM fun x => execute (f x)) s u s') :
    s'.toTables = xs.foldl (fun t x => f x t) s.toTables := by
  induction xs generalizing s with
  | nil =>
    rw [returns_forM_nil] at h
    rw [h]
    rfl
  | cons x xs ih =>
    obtain ⟨s₁, h₁, h₂⟩ := returns_forM_cons.mp h
    rw [ih h₂, returns_execute.mp h₁]
    rfl

/-- Looking a row up by a unique key finds the row that has it. -/
theorem find?_eq_some_of_nodup {α : Type} (key : α → Uuid) {rows : List α} {r : α}
    (hnodup : (rows.map key).Nodup) (hr : r ∈ rows) :
    rows.find? (fun x => key x = key r) = some r := by
  cases hf : rows.find? (fun x => key x = key r) with
  | none => simpa using List.find?_eq_none.mp hf r hr
  | some x =>
    have hx : key x = key r := by simpa using List.find?_some hf
    rw [List.inj_on_of_nodup_map hnodup (List.mem_of_find?_eq_some hf) hr hx]

/-- `UUID.randomUUID()`. -/
def randomUUID : Plm Uuid := do
  let id ← query (·.nextId)
  execute fun t => { t with nextId := t.nextId + 1 }
  pure id

/-- The store with one id used. -/
def Tables.takeId (t : Tables) : Tables := { t with nextId := t.nextId + 1 }

/-- Taking an id breaks no constraint. -/
theorem Tables.Valid.takeId {t : Tables} (h : t.Valid) : t.takeId.Valid :=
  { h with generated := fun v hv => Nat.lt_succ_of_lt (h.generated v hv) }

@[simp] theorem returns_randomUUID {s s' : Db} {id : Uuid} :
    Returns randomUUID s id s' ↔ id = s.nextId ∧ s'.toTables = s.toTables.takeId := by
  simp only [randomUUID, returns_bind, returns_query, returns_execute, returns_pure, and_assoc,
    exists_and_left, exists_eq_left, exists_const]
  constructor
  · rintro ⟨s₁, h, hid, rfl⟩
    exact ⟨hid, h⟩
  · rintro ⟨hid, h⟩
    exact ⟨s', h, hid, rfl⟩

/-- `PlmEventPublisher.enqueue`: one row in the outbox. -/
def enqueue (e : PlmEvent) : Plm Unit :=
  execute fun t => { t with outbox := t.outbox ++ [e] }

/-- `fetchOne`: no row gives `none`, two rows are an error. -/
def fetchOne {α : Type} (rows : Db → List α) : Plm (Option α) := do
  let rs ← query rows
  match rs with
  | [] => pure none
  | [r] => pure (some r)
  | _ => throw .tooManyRows

/-- What `fetchOne` tells about the rows it looked at. -/
theorem returns_fetchOne {α : Type} {rows : Db → List α} {s s' : Db} {o : Option α} :
    Returns (fetchOne rows) s o s' ↔ s' = s ∧ rows s = o.toList := by
  unfold fetchOne
  rw [returns_bind]
  simp only [returns_query]
  constructor
  · rintro ⟨rs, s₁, ⟨rfl, rfl⟩, h⟩
    split at h
    · rename_i hrs
      obtain ⟨rfl, rfl⟩ := returns_pure.mp h
      exact ⟨rfl, hrs⟩
    · rename_i r hrs
      obtain ⟨rfl, rfl⟩ := returns_pure.mp h
      exact ⟨rfl, hrs⟩
    · exact absurd h returns_throw
  · rintro ⟨rfl, h⟩
    refine ⟨rows s', s', ⟨rfl, rfl⟩, ?_⟩
    rw [h]
    cases o with
    | none => exact returns_pure.mpr ⟨rfl, rfl⟩
    | some r => exact returns_pure.mpr ⟨rfl, rfl⟩

end PlmCore.Psm
