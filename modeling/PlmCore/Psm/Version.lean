/-
`VersionService`: creating a version of a node inside a PLM transaction, and rewriting
the attributes of a version in place.

`createVersion` is the only writer of new version rows besides `createNode`. It copies
the current version's attributes and domains, chains to it, and stores the fingerprint at
once; its links are not copied, they are inherited through the version number.
-/
import PlmCore.Psm.Fingerprint
import PlmCore.Psm.Lock

set_option autoImplicit false

namespace PlmCore.Psm

open PlmCore.Lib

/-! ## Numbering -/

/-- The carry of `AlphaNumericNumberingStrategy.nextRevision`, last letter first: a letter
below `Z` is incremented, any other becomes `A` and carries. -/
def bumpLetters : List Char → List Char
  | [] => ['A']
  | c :: cs => if c < 'Z' then Char.ofNat (c.toNat + 1) :: cs else 'A' :: bumpLetters cs

/-- `nextRevision`: A, B, …, Z, AA, AB, …. -/
def nextRevision (current : String) : String :=
  String.ofList (bumpLetters current.toList.reverse).reverse

/-- `AlphaNumericNumberingStrategy.compute`, the only scheme, with the check of
`NumberingResult`. Iteration 0 is what a collapse leaves and counts as 1. -/
def computeNumbering (strategy : VersionStrategy) (previousRevision : String)
    (previousIteration : Nat) : Except PlmError (String × Nat) :=
  let effIteration := max previousIteration 1
  let (revision, iteration) := match strategy with
    | .REVISE => (nextRevision previousRevision, 1)
    | .ITERATE => (previousRevision, effIteration + 1)
    | .NONE => (previousRevision, effIteration)
  if isBlank revision then .error (.illegalArgument "revision must not be blank")
  else .ok (revision, iteration)

/-- The strategy when the caller passes none. -/
def defaultStrategy (changeType : ChangeType) : VersionStrategy :=
  if changeType = .CONTENT then .ITERATE else .NONE

/-! ## Statements -/

/-- `Map.putAll`: the new values win. -/
def putAll (base new : List (String × Option String)) : List (String × Option String) :=
  (base.filter fun a => a.1 ∉ new.map (·.1)) ++ new

/-- The attribute values of a version as a map. -/
def Tables.attributeMap (t : Tables) (versionId : Uuid) : List (String × Option String) :=
  (t.attributesOf versionId).map fun a => (a.attributeDefId, a.value)

/-- `INSERT INTO node_version`. -/
def Tables.insertVersion (v : VersionRow) (t : Tables) : Tables :=
  { t with versions := t.versions ++ [v] }

/-- `INSERT INTO node_version_attribute`. -/
def Tables.insertAttribute (a : AttributeRow) (t : Tables) : Tables :=
  { t with attributes := t.attributes ++ [a] }

/-- `INSERT INTO node_version_domain`. -/
def Tables.insertDomain (d : DomainRow) (t : Tables) : Tables :=
  { t with domains := t.domains ++ [d] }

/-- `DELETE FROM node_version_attribute WHERE node_version_id = ?`. -/
def Tables.deleteAttributesOf (versionId : Uuid) (t : Tables) : Tables :=
  { t with attributes := t.attributes.filter (·.nodeVersionId ≠ versionId) }

/-- `UPDATE node_version SET … WHERE id = ?`. -/
def Tables.updateVersion (versionId : Uuid) (f : VersionRow → VersionRow) (t : Tables) : Tables :=
  { t with versions := t.versions.map fun v => if v.id = versionId then f v else v }

/-- `UPDATE node_version SET fingerprint = ? WHERE id = ?`. -/
def Tables.setFingerprint (versionId : Uuid) (fp : String) : Tables → Tables :=
  Tables.updateVersion versionId fun v => { v with fingerprint := some fp }

/-- Rewriting version rows in place keeps the constraints when it keeps their keys and does
not let them reference what does not exist. -/
theorem Tables.Valid.mapVersions {t : Tables} (h : t.Valid) {f : VersionRow → VersionRow}
    (hid : ∀ v, (f v).id = v.id) (hnode : ∀ v, (f v).nodeId = v.nodeId)
    (hnumber : ∀ v, (f v).versionNumber = v.versionNumber)
    (htx : ∀ v ∈ t.versions, (f v).txId ∈ t.txIds)
    (hprevious : ∀ v ∈ t.versions, ∀ x ∈ (f v).previousVersionId, x ∈ t.versionIds) :
    ({ t with versions := t.versions.map f } : Tables).Valid := by
  have hids : (t.versions.map f).map (·.id) = t.versionIds := by
    rw [List.map_map]
    exact List.map_congr_left fun v _ => hid v
  have hkeys : (t.versions.map f).map (fun v => (v.nodeId, v.versionNumber))
      = t.versions.map fun v => (v.nodeId, v.versionNumber) := by
    rw [List.map_map]
    refine List.map_congr_left fun v _ => ?_
    simp [hnode, hnumber]
  refine { h with
    pk_version := by rw [Tables.versionIds, hids]; exact h.pk_version
    uq_node_version := by rw [hkeys]; exact h.uq_node_version
    fk_version_node := ?_
    fk_version_tx := ?_
    fk_version_previous := ?_
    fk_attribute_version := by rw [Tables.versionIds, hids]; exact h.fk_attribute_version
    fk_link_version := by rw [Tables.versionIds, hids]; exact h.fk_link_version
    fk_domain_version := by rw [Tables.versionIds, hids]; exact h.fk_domain_version
    fk_signature_version := by rw [Tables.versionIds, hids]; exact h.fk_signature_version
    fk_comment_version := by rw [Tables.versionIds, hids]; exact h.fk_comment_version
    generated := ?_ }
  · intro v hv
    obtain ⟨w, hw, rfl⟩ := List.mem_map.mp hv
    rw [hnode]
    exact h.fk_version_node w hw
  · intro v hv
    obtain ⟨w, hw, rfl⟩ := List.mem_map.mp hv
    exact htx w hw
  · intro v hv x hx
    obtain ⟨w, hw, rfl⟩ := List.mem_map.mp hv
    rw [Tables.versionIds, hids]
    exact hprevious w hw x hx
  · intro v hv
    obtain ⟨w, hw, rfl⟩ := List.mem_map.mp hv
    rw [hid]
    exact h.generated w hw

/-- An update of columns no constraint mentions always succeeds. -/
theorem Tables.Valid.updateVersion {t : Tables} (h : t.Valid) (versionId : Uuid)
    {f : VersionRow → VersionRow} (hid : ∀ v, (f v).id = v.id) (hnode : ∀ v, (f v).nodeId = v.nodeId)
    (hnumber : ∀ v, (f v).versionNumber = v.versionNumber) (htx : ∀ v, (f v).txId = v.txId)
    (hprevious : ∀ v, (f v).previousVersionId = v.previousVersionId) :
    (t.updateVersion versionId f).Valid := by
  refine h.mapVersions (fun v => ?_) (fun v => ?_) (fun v => ?_) (fun v hv => ?_) (fun v hv x hx => ?_)
  · split
    · exact hid v
    · rfl
  · split
    · exact hnode v
    · rfl
  · split
    · exact hnumber v
    · rfl
  · split
    · exact htx v ▸ h.fk_version_tx v hv
    · exact h.fk_version_tx v hv
  · split at hx
    · exact h.fk_version_previous v hv x (hprevious v ▸ hx)
    · exact h.fk_version_previous v hv x hx

/-- Computes the fingerprint of a version and stores it. -/
def storeFingerprint (env : Env) (nodeId versionId : Uuid) : Plm Unit := do
  let fp ← compute env nodeId versionId
  execute (Tables.setFingerprint versionId fp)

/-! ## `createVersion` -/

/-- `validationService.assertNoViolations` on the values the new version would have. -/
def assertNoViolations (env : Env) (req : ValidationRequest) : Plm Unit := do
  let violations ← query fun s => env.collectViolations s.toTables req
  require (violations = []) (.validation violations)

/-- What step 3 of `createVersion` asks: the effective values in the new state. -/
def stateChangeRequest (t : Tables) (nodeId : Uuid) (current : Option VersionRow)
    (newStateId : Option String) (attributes : List (String × Option String)) :
    ValidationRequest where
  nodeTypeId := (t.node? nodeId).map (·.nodeTypeId)
  targetStateId := newStateId
  values := putAll ((current.map fun v => t.attributeMap v.id).getD []) attributes
  currentStateId := current.bind (·.lifecycleStateId)
  currentVersionId := current.map (·.id)
  logicalId := (t.node? nodeId).bind (·.logicalId)
  changedKeys := some (attributes.map (·.1))

/-- Step 3 of `createVersion`: a change of state validates the effective values. -/
def validateStateChange (env : Env) (nodeId : Uuid) (current : Option VersionRow)
    (newStateId : Option String) (attributes : List (String × Option String)) : Plm Unit := do
  let req ← query fun s => stateChangeRequest s.toTables nodeId current newStateId attributes
  if newStateId.isSome then assertNoViolations env req else pure ()

/-- The row `createVersion` inserts. -/
def nextVersion (ctx : Caller) (versionId nodeId txId : Uuid) (changeType : ChangeType)
    (newStateId : Option String) (description : Option String) (current : Option VersionRow)
    (numbering : String × Nat) : VersionRow where
  id := versionId
  nodeId := nodeId
  versionNumber := (current.map (·.versionNumber)).getD 0 + 1
  revision := numbering.1
  iteration := numbering.2
  lifecycleStateId := newStateId.or (current.bind (·.lifecycleStateId))
  changeType := changeType
  changeDescription := description
  txId := txId
  previousVersionId := current.map (·.id)
  previousVersionFingerprint := current.bind (·.fingerprint)
  fingerprint := none
  branch := (current.map (·.branch)).getD "main"
  createdAt := ctx.now
  createdBy := ctx.userId

/-- `VersionService.createVersion`. -/
def createVersion (env : Env) (ctx : Caller) (nodeId txId : Uuid) (changeType : ChangeType)
    (strategy : Option VersionStrategy) (newStateId : Option String)
    (attributes : List (String × Option String)) (description : Option String) : Plm Uuid := do
  -- 1. the transaction must be OPEN
  let isOpen ← query (·.isOpen txId)
  require (isOpen = true) (.illegalState ("Transaction " ++ toString txId ++ " is not OPEN"))
  -- 2. the current version: the last one of this transaction, else the last committed one
  let current ← query (·.getCurrentVersionForTx nodeId txId)
  -- 3. a change of state is validated
  validateStateChange env nodeId current newStateId attributes
  -- 4. the business identity
  let numbering ← ofResult (computeNumbering (strategy.getD (defaultStrategy changeType))
    ((current.map (·.revision)).getD "A") ((current.map (·.iteration)).getD 1))
  -- 5. copied and merged attributes
  let existing ← query fun s => (current.map fun v => s.attributeMap v.id).getD []
  -- 6. the row
  let versionId ← randomUUID
  execute (Tables.insertVersion
    (nextVersion ctx versionId nodeId txId changeType newStateId description current numbering))
  -- 7. its attributes and domains
  (putAll existing attributes).forM fun e =>
    execute (Tables.insertAttribute ⟨versionId, e.1, e.2⟩)
  let domains ← query fun s => (current.map fun v => s.domainsOf v.id).getD []
  domains.forM fun d => execute (Tables.insertDomain ⟨versionId, d.domainId⟩)
  -- 8. the fingerprint
  storeFingerprint env nodeId versionId
  pure versionId

/-! ## `updateVersionAttributes` -/

/-- `UPDATE node_version SET change_description = ?`, when one is given. -/
def updateDescription (versionId : Uuid) (description : Option String) : Plm Unit :=
  if nullOrBlank description then pure ()
  else execute (Tables.updateVersion versionId fun v => { v with changeDescription := description })

/-- `VersionService.updateVersionAttributes`. -/
def updateVersionAttributes (env : Env) (versionId : Uuid)
    (newAttrs : List (String × Option String)) (description : Option String) : Plm Uuid := do
  let existing ← query (·.attributeMap versionId)
  execute (Tables.deleteAttributesOf versionId)
  (putAll existing newAttrs).forM fun e =>
    execute (Tables.insertAttribute ⟨versionId, e.1, e.2⟩)
  updateDescription versionId description
  let version ← query (·.version? versionId)
  match version with
  | some v => do
    storeFingerprint env v.nodeId versionId
    pure versionId
  | none => pure versionId

/-! ## What `createVersion` does -/

/-- Several `INSERT INTO node_version_attribute`. -/
def Tables.insertAttributes (rows : List AttributeRow) (t : Tables) : Tables :=
  { t with attributes := t.attributes ++ rows }

/-- Several `INSERT INTO node_version_domain`. -/
def Tables.insertDomains (rows : List DomainRow) (t : Tables) : Tables :=
  { t with domains := t.domains ++ rows }

theorem foldl_insertAttribute {α : Type} (f : α → AttributeRow) (xs : List α) (t : Tables) :
    xs.foldl (fun t x => t.insertAttribute (f x)) t = t.insertAttributes (xs.map f) := by
  induction xs generalizing t with
  | nil => simp [Tables.insertAttributes]
  | cons x xs ih =>
    rw [List.foldl_cons, ih]
    simp [Tables.insertAttribute, Tables.insertAttributes]

theorem foldl_insertDomain {α : Type} (f : α → DomainRow) (xs : List α) (t : Tables) :
    xs.foldl (fun t x => t.insertDomain (f x)) t = t.insertDomains (xs.map f) := by
  induction xs generalizing t with
  | nil => simp [Tables.insertDomains]
  | cons x xs ih =>
    rw [List.foldl_cons, ih]
    simp [Tables.insertDomain, Tables.insertDomains]

/-- The rows of a new version before its fingerprint is stored. -/
def Tables.insertVersionRows (row : VersionRow) (attributes : List (String × Option String))
    (domains : List DomainRow) (t : Tables) : Tables :=
  ((t.takeId.insertVersion row).insertAttributes
    (attributes.map fun a => ⟨row.id, a.1, a.2⟩)).insertDomains
      (domains.map fun d => ⟨row.id, d.domainId⟩)

/-- The store with the present digest of a version stored. -/
def Tables.refresh (env : Env) (nodeId : Uuid) (v : VersionRow) (t : Tables) : Tables :=
  t.setFingerprint v.id (env.sha256 (fingerprintText (t.contentOf nodeId v)))

/-- The store with a new version: its row, its attribute and domain rows, one id used, and
its fingerprint stored. -/
def Tables.addVersion (env : Env) (row : VersionRow) (attributes : List (String × Option String))
    (domains : List DomainRow) (t : Tables) : Tables :=
  (t.insertVersionRows row attributes domains).refresh env row.nodeId row

/-- A stored version is found by its id. -/
theorem Db.version?_of_mem {s : Db} {v : VersionRow} (hv : v ∈ s.versions) :
    s.version? v.id = some v :=
  find?_eq_some_of_nodup VersionRow.id s.valid.pk_version hv

/-- What is found by an id is stored under it. -/
theorem Tables.mem_of_version? {t : Tables} {vid : Uuid} {v : VersionRow}
    (h : t.version? vid = some v) : v ∈ t.versions ∧ v.id = vid :=
  ⟨List.mem_of_find?_eq_some h, by simpa using List.find?_some h⟩

theorem storeFingerprint_ok {env : Env} {nodeId vid : Uuid} {s s' : Db}
    (h : Returns (storeFingerprint env nodeId vid) s () s') :
    ∃ v, v ∈ s.versions ∧ v.id = vid ∧ s'.toTables = s.refresh env nodeId v := by
  simp only [storeFingerprint, returns_bind, returns_compute, returns_execute] at h
  obtain ⟨fp, s₁, ⟨rfl, v, hv, rfl⟩, h⟩ := h
  have hmem := Tables.mem_of_version? hv
  refine ⟨v, hmem.1, hmem.2, ?_⟩
  rw [h, Tables.refresh, hmem.2]

theorem validateStateChange_ok {env : Env} {nodeId : Uuid} {current : Option VersionRow}
    {st : Option String} {attrs : List (String × Option String)} {s s' : Db}
    (h : Returns (validateStateChange env nodeId current st attrs) s () s') : s' = s := by
  simp only [validateStateChange, assertNoViolations, returns_bind, returns_query,
    returns_require, returns_ite, returns_pure] at h
  obtain ⟨_, _, ⟨rfl, rfl⟩, h⟩ := h
  rcases h with ⟨-, _, _, ⟨rfl, rfl⟩, -, rfl⟩ | ⟨-, -, rfl⟩
  · rfl
  · rfl

/-- The attribute values of the current version, if there is one. -/
def Tables.currentAttributes (t : Tables) (nodeId txId : Uuid) : List (String × Option String) :=
  ((t.getCurrentVersionForTx nodeId txId).map fun v => t.attributeMap v.id).getD []

/-- The domains of the current version, if there is one. -/
def Tables.currentDomains (t : Tables) (nodeId txId : Uuid) : List DomainRow :=
  ((t.getCurrentVersionForTx nodeId txId).map fun v => t.domainsOf v.id).getD []

/-- **`createVersion` adds one version and nothing else.** The transaction was open, the row
continues the current version, and the attributes and domains are those of the current
version with the submitted values on top. -/
theorem createVersion_ok {env : Env} {ctx : Caller} {nodeId txId vid : Uuid} {ct : ChangeType}
    {strategy : Option VersionStrategy} {st : Option String}
    {attrs : List (String × Option String)} {desc : Option String} {s s' : Db}
    (h : Returns (createVersion env ctx nodeId txId ct strategy st attrs desc) s vid s') :
    s.isOpen txId = true ∧ ∃ numbering row,
      row = nextVersion ctx vid nodeId txId ct st desc (s.getCurrentVersionForTx nodeId txId)
        numbering
      ∧ vid = s.nextId
      ∧ s'.toTables = s.addVersion env row (putAll (s.currentAttributes nodeId txId) attrs)
          (s.currentDomains nodeId txId) := by
  simp only [createVersion, returns_bind, returns_query, returns_require, returns_ofResult,
    returns_execute, returns_pure, returns_randomUUID, and_assoc, exists_and_left, exists_eq_left,
    exists_const] at h
  obtain ⟨hopen, _, _, hval, numbering, -, s₂, hid, s₃, hins, _, s₄, hattrs, _, s₅, hdoms, _, s₆,
    hfp, rfl, rfl⟩ := h
  obtain rfl := (validateStateChange_ok hval).symm
  refine ⟨hopen, numbering, _, rfl, rfl, ?_⟩
  have hvid : (nextVersion ctx s.nextId nodeId txId ct st desc
    (s.getCurrentVersionForTx nodeId txId) numbering).id = s.nextId := rfl
  have hnode : (nextVersion ctx s.nextId nodeId txId ct st desc
    (s.getCurrentVersionForTx nodeId txId) numbering).nodeId = nodeId := rfl
  generalize nextVersion ctx s.nextId nodeId txId ct st desc
    (s.getCurrentVersionForTx nodeId txId) numbering = row at hvid hnode hins ⊢
  have hattrs := returns_forM_execute hattrs
  rw [foldl_insertAttribute (fun e : String × Option String => ⟨s.nextId, e.1, e.2⟩), hins, hid]
    at hattrs
  -- the domains are read after the attributes are written, from an unchanged table
  have hsame : ∀ v : Uuid, s₄.domainsOf v = s.domainsOf v := by
    intro v
    rw [hattrs]
    rfl
  have hdoms := returns_forM_execute hdoms
  simp only [hsame] at hdoms
  rw [foldl_insertDomain (fun d : DomainRow => ⟨s.nextId, d.domainId⟩), hattrs] at hdoms
  have hrows : s₅.toTables = s.insertVersionRows row
      (putAll (s.currentAttributes nodeId txId) attrs) (s.currentDomains nodeId txId) := by
    rw [hdoms, Tables.insertVersionRows, hvid]
    rfl
  obtain ⟨v, hv, hvid', hfp⟩ := storeFingerprint_ok hfp
  have hmem : row ∈ s₅.versions := by
    rw [hrows]
    exact List.mem_append_right _ (List.mem_singleton_self _)
  have hvrow : v = row :=
    List.inj_on_of_nodup_map s₅.valid.pk_version hv hmem (hvid'.trans hvid.symm)
  rw [hfp, hvrow, hrows, Tables.addVersion, hnode]

end PlmCore.Psm
