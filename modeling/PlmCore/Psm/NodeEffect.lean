/-
What the operations of `NodeService`, `DomainService`, `SignatureService` and `CommentService`
do to the tables when they return.

Each lemma takes one operation apart into the states it passes through: the lock, the
transaction, the rows it writes, the digest it stores. Later modules derive what they need
from these chains and do not look at the operations again.
-/
import PlmCore.Lib.Rows
import PlmCore.Psm.Annotation
import PlmCore.Psm.Domain
import PlmCore.Psm.Node

set_option autoImplicit false

namespace PlmCore.Psm

open PlmCore.Lib

/-! ## Looking versions up -/

/-- The version a transaction holds of a node belongs to both. -/
theorem Tables.findOpenVersionInTx_ok {t : Tables} {nodeId x : Uuid} {v : VersionRow}
    (h : t.findOpenVersionInTx nodeId x = some v) :
    v ∈ t.versions ∧ v.nodeId = nodeId ∧ v.txId = x := by
  have hmem := List.argmax_mem h
  simpa using hmem

/-- The last committed version of a node is a committed version of it. -/
theorem Tables.getLastCommittedVersion_ok {t : Tables} {nodeId : Uuid} {v : VersionRow}
    (h : t.getLastCommittedVersion nodeId = some v) :
    v ∈ t.versions ∧ v.nodeId = nodeId ∧ t.isCommitted v.txId = true := by
  have hmem := List.argmax_mem h
  simpa using hmem

/-! ## Transactions -/

theorem openTransaction_ok {ctx : Caller} {x : Uuid} {s s' : Db}
    (h : Returns (openTransaction ctx) s x s') :
    x = s.nextId ∧ s'.toTables = s.takeId.insertTransaction x ctx := by
  simp only [openTransaction, returns_bind, returns_randomUUID, returns_execute, returns_pure,
    and_assoc, exists_and_left, exists_eq_left, exists_const] at h
  obtain ⟨s₁, htake, s₂, hins, rfl, rfl⟩ := h
  exact ⟨rfl, by rw [hins, htake]⟩

/-- The id of a new transaction is new. -/
theorem fresh_of_openTransaction {ctx : Caller} {x : Uuid} {s s' : Db}
    (h : Returns (openTransaction ctx) s x s') : x ∉ s.txIds := by
  have hnodup := s'.valid.pk_tx
  rw [(openTransaction_ok h).2] at hnodup
  change ((s.txs ++ [(⟨x, ctx.userId, .OPEN, none, ctx.now, none⟩ : TransactionRow)]).map (·.id)).Nodup
    at hnodup
  rw [List.map_append] at hnodup
  exact fun hmem => (List.nodup_append.mp hnodup).2.2 _ hmem _ (List.mem_singleton_self _) rfl

theorem findOpenTransaction_ok {userId : String} {o : Option Uuid} {s s' : Db}
    (h : Returns (findOpenTransaction userId) s o s') :
    s' = s ∧ (s.openTransactionsOf userId).map (·.id) = o.toList := by
  simp only [findOpenTransaction, returns_bind, returns_fetchOne, returns_pure] at h
  obtain ⟨row, _, ⟨rfl, hrow⟩, rfl, rfl⟩ := h
  refine ⟨rfl, ?_⟩
  rw [hrow]
  cases row <;> rfl

/-- **The transaction of a request without one**: the only open one of the caller, or a new one
when the caller has none. -/
theorem findOrOpenTransaction_ok {ctx : Caller} {x : Uuid} {s s' : Db}
    (h : Returns (findOrOpenTransaction ctx) s x s') :
    (s' = s ∧ (s.openTransactionsOf ctx.userId).map (·.id) = [x]) ∨
      (s.openTransactionsOf ctx.userId = [] ∧ Returns (openTransaction ctx) s x s') := by
  simp only [findOrOpenTransaction, returns_bind] at h
  obtain ⟨o, s₁, hfind, h⟩ := h
  obtain ⟨rfl, ho⟩ := findOpenTransaction_ok hfind
  cases o with
  | some y =>
    obtain ⟨rfl, rfl⟩ := returns_pure.mp h
    exact .inl ⟨rfl, ho⟩
  | none => exact .inr ⟨List.map_eq_nil_iff.mp ho, h⟩

/-! ## Rows of one version -/

/-- The attribute and domain rows of the version `vid` were rewritten, and nothing else. -/
structure RowsWritten (vid : Uuid) (t t' : Tables) : Prop where
  tables : t' = { t with attributes := t'.attributes, domains := t'.domains }
  attributes : t'.attributes.filter (·.nodeVersionId ≠ vid)
    = t.attributes.filter (·.nodeVersionId ≠ vid)
  domains : t'.domains.filter (·.nodeVersionId ≠ vid) = t.domains.filter (·.nodeVersionId ≠ vid)

theorem RowsWritten.refl (vid : Uuid) (t : Tables) : RowsWritten vid t t := ⟨rfl, rfl, rfl⟩

theorem RowsWritten.trans {vid : Uuid} {t₁ t₂ t₃ : Tables} (h₁ : RowsWritten vid t₁ t₂)
    (h₂ : RowsWritten vid t₂ t₃) : RowsWritten vid t₁ t₃ where
  tables := by
    rw [h₂.tables, h₁.tables]
  attributes := h₂.attributes.trans h₁.attributes
  domains := h₂.domains.trans h₁.domains

/-- Inserting attribute values of a version. -/
theorem RowsWritten.insertAttributes {vid : Uuid} (rows : List AttributeRow) (t : Tables)
    (h : ∀ a ∈ rows, a.nodeVersionId = vid) : RowsWritten vid t (t.insertAttributes rows) where
  tables := rfl
  attributes := filter_append_of_not (fun _ _ => rfl) fun a ha => by simp [h a ha]
  domains := rfl

/-- Assigning a domain to a version. -/
theorem RowsWritten.insertDomain (vid : Uuid) (domainId : String) (t : Tables) :
    RowsWritten vid t (t.insertDomain ⟨vid, domainId⟩) where
  tables := rfl
  attributes := rfl
  domains := filter_append_of_not (fun _ _ => rfl) fun d hd => by simp [List.mem_singleton.mp hd]

/-- Deleting some attribute values of a version. -/
theorem RowsWritten.deleteAttribute (vid : Uuid) (attributeDefId : String) (t : Tables) :
    RowsWritten vid t (t.deleteAttribute vid attributeDefId) where
  tables := rfl
  attributes := by
    rw [Tables.deleteAttribute, List.filter_filter]
    exact List.filter_congr fun a _ => by by_cases ha : a.nodeVersionId = vid <;> simp [ha]
  domains := rfl

/-- Unassigning a domain from a version. -/
theorem RowsWritten.deleteDomain (vid : Uuid) (domainId : String) (t : Tables) :
    RowsWritten vid t (t.deleteDomain vid domainId) where
  tables := rfl
  attributes := rfl
  domains := by
    rw [Tables.deleteDomain, List.filter_filter]
    exact List.filter_congr fun d _ => by by_cases hd : d.nodeVersionId = vid <;> simp [hd]

/-- Deleting all attribute values of a version. -/
theorem RowsWritten.deleteAttributesOf (vid : Uuid) (t : Tables) :
    RowsWritten vid t (t.deleteAttributesOf vid) where
  tables := rfl
  attributes := by
    rw [Tables.deleteAttributesOf, List.filter_filter]
    exact List.filter_congr fun a _ => by simp
  domains := rfl

/-- A loop that rewrites rows of a version in each round. -/
theorem RowsWritten.foldl {α : Type} {vid : Uuid} {f : α → Tables → Tables} {xs : List α} {t : Tables}
    (h : ∀ x ∈ xs, ∀ t, RowsWritten vid t (f x t)) :
    RowsWritten vid t (xs.foldl (fun t x => f x t) t) := by
  induction xs generalizing t with
  | nil => exact .refl vid t
  | cons x xs ih =>
    exact (h x (by simp) t).trans (ih fun y hy => h y (by simp [hy]))

/-- The store with the attribute values of a version replaced. -/
def Tables.replaceAttributes (vid : Uuid) (values : List (String × Option String)) (t : Tables) :
    Tables :=
  (t.deleteAttributesOf vid).insertAttributes (values.map fun a => ⟨vid, a.1, a.2⟩)

theorem RowsWritten.replaceAttributes (vid : Uuid) (values : List (String × Option String))
    (t : Tables) : RowsWritten vid t (t.replaceAttributes vid values) :=
  (deleteAttributesOf vid t).trans (insertAttributes _ _ fun a ha => by
    obtain ⟨e, -, rfl⟩ := List.mem_map.mp ha
    rfl)

/-- Other versions keep their attribute values. -/
theorem RowsWritten.attributesOf {vid w : Uuid} {t t' : Tables} (h : RowsWritten vid t t')
    (hne : w ≠ vid) : t'.attributesOf w = t.attributesOf w :=
  filter_eq_of_filter_eq h.attributes fun a ha => by
    rw [decide_eq_true_eq] at ha ⊢
    rwa [ha]

/-- Other versions keep their domains. -/
theorem RowsWritten.domainsOf {vid w : Uuid} {t t' : Tables} (h : RowsWritten vid t t')
    (hne : w ≠ vid) : t'.domainsOf w = t.domainsOf w :=
  filter_eq_of_filter_eq h.domains fun d hd => by
    rw [decide_eq_true_eq] at hd ⊢
    rwa [hd]

/-! ## Attributes of a version -/

/-- `UPDATE node_version SET change_description = ?`, when one is given. -/
def Tables.describe (vid : Uuid) (description : Option String) (t : Tables) : Tables :=
  if nullOrBlank description then t
  else t.updateVersion vid fun v => { v with changeDescription := description }

theorem updateDescription_ok {vid : Uuid} {description : Option String} {s s' : Db} {u : Unit}
    (h : Returns (updateDescription vid description) s u s') :
    s'.toTables = s.describe vid description := by
  unfold updateDescription at h
  unfold Tables.describe
  split at h
  · rename_i hblank
    rw [if_pos hblank, (returns_pure.mp h).2]
  · rename_i hblank
    rw [if_neg hblank, returns_execute.mp h]

/-- The digest does not read the description. -/
theorem refresh_congr {env : Env} {nodeId : Uuid} {v w : VersionRow} {t : Tables}
    (hid : w.id = v.id) (hstate : w.lifecycleStateId = v.lifecycleStateId)
    (hnumber : w.versionNumber = v.versionNumber) :
    t.refresh env nodeId w = t.refresh env nodeId v := by
  have heffective : t.isEffectiveLink nodeId w = t.isEffectiveLink nodeId v := by
    funext l
    simp only [Tables.isEffectiveLink, hid, hnumber]
  simp only [Tables.refresh, Tables.contentOf, Tables.effectiveLinks, heffective, hid, hstate]

/-- A described version, up to its description. -/
theorem mem_versions_describe {vid : Uuid} {description : Option String} {t : Tables}
    {w : VersionRow} (h : w ∈ (t.describe vid description).versions) :
    ∃ v ∈ t.versions, v.id = w.id ∧ v.nodeId = w.nodeId ∧ v.lifecycleStateId = w.lifecycleStateId
      ∧ v.versionNumber = w.versionNumber := by
  unfold Tables.describe at h
  split at h
  · exact ⟨w, h, rfl, rfl, rfl, rfl⟩
  · obtain ⟨v, hv, rfl⟩ := List.mem_map.mp h
    refine ⟨v, hv, ?_⟩
    split
    · exact ⟨rfl, rfl, rfl, rfl⟩
    · exact ⟨rfl, rfl, rfl, rfl⟩

theorem versionIds_describe (vid : Uuid) (description : Option String) (t : Tables) :
    (t.describe vid description).versionIds = t.versionIds := by
  unfold Tables.describe
  split
  · rfl
  · simp only [Tables.versionIds, Tables.updateVersion, List.map_map]
    refine List.map_congr_left fun v _ => ?_
    simp only [Function.comp_apply]
    split <;> rfl

/-- **`updateVersionAttributes` rewrites one stored version**: its attribute values, its
description, and its digest. -/
theorem updateVersionAttributes_ok {env : Env} {vid r : Uuid} {values : List (String × Option String)}
    {description : Option String} {v : VersionRow} {s s' : Db} (hv : v ∈ s.versions)
    (hvid : v.id = vid)
    (h : Returns (updateVersionAttributes env vid values description) s r s') :
    r = vid ∧ s'.toTables = ((s.replaceAttributes vid (putAll (s.attributeMap vid) values)).describe
      vid description).refresh env v.nodeId v := by
  simp only [updateVersionAttributes, returns_bind, returns_query, returns_execute, and_assoc,
    exists_and_left, exists_eq_left, exists_const] at h
  obtain ⟨s₁, hdel, _, s₂, hins, _, s₃, hdesc, h⟩ := h
  have hs₂ := returns_forM_execute hins
  rw [foldl_insertAttribute (fun e : String × Option String => ⟨vid, e.1, e.2⟩), hdel] at hs₂
  have hs₃ := updateDescription_ok hdesc
  rw [hs₂] at hs₃
  -- the version read back is the old one, with another description
  have hsame : ∀ w ∈ s₃.versions, w.id = vid → w.nodeId = v.nodeId
      ∧ s₃.refresh env v.nodeId w = s₃.refresh env v.nodeId v := by
    intro w hw hwid
    rw [hs₃] at hw
    obtain ⟨u, hu, huid, hunode, hustate, hunumber⟩ := mem_versions_describe hw
    have huv : u = v := List.inj_on_of_nodup_map s.valid.pk_version hu hv (by rw [huid, hwid, hvid])
    rw [huv] at huid hunode hustate hunumber
    exact ⟨hunode.symm, refresh_congr huid.symm hustate.symm hunumber.symm⟩
  split at h
  · rename_i w hw
    simp only [returns_bind, returns_pure] at h
    obtain ⟨_, s₄, hfp, rfl, rfl⟩ := h
    obtain ⟨hw, hwid⟩ := Tables.mem_of_version? hw
    obtain ⟨w', hw', hw'id, hfp⟩ := storeFingerprint_ok hfp
    refine ⟨rfl, ?_⟩
    rw [hfp, (hsame w hw hwid).1, (hsame w' hw' hw'id).2, hs₃]
    rfl
  · rename_i hnone
    have hmem : vid ∈ s₃.versionIds := by
      rw [hs₃, versionIds_describe, ← hvid]
      exact List.mem_map_of_mem hv
    obtain ⟨w, hw, hwid⟩ := List.mem_map.mp hmem
    rw [← hwid, Db.version?_of_mem hw] at hnone
    cases hnone

/-! ## Creating, checking out, modifying -/

theorem checkLogicalId_ok {env : Env} {nodeType : NodeTypeConfig} {logicalId : String} {s s' : Db}
    {u : Unit} (h : Returns (checkLogicalId env nodeType logicalId) s u s') :
    s' = s ∧ s.nodesByLogicalId logicalId = [] := by
  simp only [checkLogicalId, returns_bind, returns_query, returns_require, and_assoc,
    exists_and_left, exists_eq_left, exists_const] at h
  obtain ⟨-, -, hdup, rfl⟩ := h
  exact ⟨rfl, hdup⟩

/-- **What `createNode` does**: it inserts a node with a new logical id, locks it, finds or
opens the transaction of the caller, and adds the initial version to it. -/
theorem createNode_ok {env : Env} {ctx : Caller} {projectSpaceId : Option String}
    {nodeTypeId : String} {logicalId externalId : Option String} {nodeId : Uuid} {s s' : Db}
    (h : Returns (createNode env ctx projectSpaceId nodeTypeId logicalId externalId) s nodeId s') :
    ∃ x s₁ s₂ s₃ row es,
      s.nodesByLogicalId (trim (nvl logicalId)) = [] ∧ nodeId = s.nextId
      ∧ s₁.toTables = s.takeId.insertNode
          (newNode ctx nodeId projectSpaceId nodeTypeId (trim (nvl logicalId)) externalId)
      ∧ Returns (tryLock ctx nodeId) s₁ () s₂
      ∧ Returns (findOrOpenTransaction ctx) s₂ x s₃
      ∧ (∃ state, row = initialVersion ctx s₃.nextId nodeId x state)
      ∧ s'.toTables = (s₃.addVersion env row [] []).withEvents es := by
  simp only [createNode, returns_bind, returns_orElseThrow, returns_query, returns_randomUUID,
    returns_execute, returns_pure, returns_enqueue, and_assoc, exists_and_left, exists_eq_left,
    exists_const] at h
  obtain ⟨nodeType, -, _, _, hlogical, s₁, htake, s₂, hins, _, s₃, hlock, x, s₄, htx, s₅, htake',
    s₆, hversion, _, s₇, hfp, s₈, hevent, rfl, rfl⟩ := h
  obtain ⟨hsame, hdup⟩ := checkLogicalId_ok hlogical
  obtain rfl := hsame.symm
  obtain ⟨v, hv, hvid, hs₇⟩ := storeFingerprint_ok hfp
  have hs₆ : s₆.toTables = s₄.insertVersionRows
      (initialVersion ctx s₄.nextId s.nextId x (initialState env nodeType)) [] [] := by
    rw [hversion, htake']
    simp [Tables.insertVersionRows, Tables.insertAttributes, Tables.insertDomains]
  have hmem : initialVersion ctx s₄.nextId s.nextId x (initialState env nodeType) ∈ s₆.versions := by
    rw [hs₆]
    exact List.mem_append_right _ (List.mem_singleton_self _)
  have hrow := List.inj_on_of_nodup_map s₆.valid.pk_version hv hmem hvid
  rw [hs₇, hrow, hs₆] at hevent
  exact ⟨x, s₂, s₃, s₄, _, _, hdup, rfl, by rw [hins, htake], hlock, htx, ⟨_, rfl⟩, hevent⟩

theorem assertNotFrozen_ok {env : Env} {nodeId : Uuid} {s s' : Db} {u : Unit}
    (h : Returns (assertNotFrozen env nodeId) s u s') : s' = s := by
  simp only [assertNotFrozen, returns_bind, returns_query, and_assoc, exists_and_left,
    exists_eq_left] at h
  split at h
  · exact (returns_pure.mp h).2
  · exact (returns_require.mp h).2

/-- **What `checkout` does**: it takes the lock, finds the transaction, and makes sure that the
transaction holds a version of the node. -/
theorem checkout_ok {env : Env} {ctx : Caller} {nodeId vid : Uuid} {txId : Option Uuid} {s s' : Db}
    (h : Returns (checkout env ctx nodeId txId) s vid s') :
    ∃ x s₁ s₂, Returns (tryLock ctx nodeId) s () s₁ ∧ Returns (resolveTransaction ctx txId) s₁ x s₂
      ∧ ((∃ v, s₂.findOpenVersionInTx nodeId x = some v ∧ vid = v.id ∧ s' = s₂) ∨
        (s₂.findOpenVersionInTx nodeId x = none ∧ ∃ strategy s₃ es,
          Returns (createVersion env ctx nodeId x .CONTENT (some strategy) none [] (some "Checkout"))
            s₂ vid s₃ ∧ s'.toTables = s₃.withEvents es)) := by
  simp only [checkout, returns_bind, returns_query, and_assoc, exists_and_left, exists_eq_left] at h
  obtain ⟨_, _, hfrozen, _, s₁, hlock, x, s₂, htx, h⟩ := h
  obtain rfl := (assertNotFrozen_ok hfrozen).symm
  refine ⟨x, s₁, s₂, hlock, htx, ?_⟩
  split at h
  · rename_i v hv
    obtain ⟨rfl, rfl⟩ := returns_pure.mp h
    exact .inl ⟨v, hv, rfl, rfl⟩
  · rename_i hnone
    simp only [returns_bind, returns_query, returns_enqueue, returns_pure, and_assoc,
      exists_and_left, exists_eq_left] at h
    obtain ⟨vid', s₃, hcreate, _, s₄, hevent, rfl, rfl⟩ := h
    exact .inr ⟨hnone, _, s₃, _, hcreate, hevent⟩

/-- **What `modifyNode` writes**: it takes the lock, and then puts the attributes over those of the
version the given transaction holds of the node, or of a new version. The status of the transaction
matters only when a version is added. -/
theorem modifyNode_writes {env : Env} {ctx : Caller} {nodeId x vid : Uuid}
    {attributes : List (String × Option String)} {description : Option String}
    {strategy : Option VersionStrategy} {s s' : Db}
    (h : Returns (modifyNode env ctx nodeId x attributes description strategy) s vid s') :
    ∃ s₁ s₂ es, Returns (tryLock ctx nodeId) s () s₁ ∧ s'.toTables = s₂.withEvents es
      ∧ ((∃ v, s₁.findOpenVersionInTx nodeId x = some v ∧ vid = v.id
          ∧ s₂.toTables = ((s₁.replaceAttributes vid (putAll (s₁.attributeMap vid) attributes)).describe
              vid description).refresh env nodeId v) ∨
        (s₁.findOpenVersionInTx nodeId x = none ∧ ∃ strategy,
          Returns (createVersion env ctx nodeId x .CONTENT (some strategy) none attributes description)
            s₁ vid s₂)) := by
  simp only [modifyNode, assertWritable, writeAttributes, returns_bind, returns_query,
    returns_require, returns_pure, returns_enqueue, and_assoc, exists_and_left, exists_eq_left,
    exists_const] at h
  obtain ⟨_, _, hfrozen, _, s₁, hlock, -, _, s₂, hwrite, s₃, hevent, rfl, rfl⟩ := h
  obtain rfl := (assertNotFrozen_ok hfrozen).symm
  refine ⟨s₁, s₂, _, hlock, hevent, ?_⟩
  split at hwrite
  · rename_i v hv
    obtain ⟨hmem, hnode, -⟩ := Tables.findOpenVersionInTx_ok hv
    obtain ⟨hvid, hs₂⟩ := updateVersionAttributes_ok hmem rfl hwrite
    exact .inl ⟨v, hv, hvid, by rw [hs₂, hvid, hnode]⟩
  · rename_i hnone
    exact .inr ⟨hnone, _, hwrite⟩

/-- `modifyNode`, without the values. -/
theorem modifyNode_ok {env : Env} {ctx : Caller} {nodeId x vid : Uuid}
    {attributes : List (String × Option String)} {description : Option String}
    {strategy : Option VersionStrategy} {s s' : Db}
    (h : Returns (modifyNode env ctx nodeId x attributes description strategy) s vid s') :
    ∃ s₁ s₂ es, Returns (tryLock ctx nodeId) s () s₁ ∧ s'.toTables = s₂.withEvents es
      ∧ ((∃ v values, s₁.findOpenVersionInTx nodeId x = some v ∧ vid = v.id
          ∧ s₂.toTables = ((s₁.replaceAttributes vid values).describe vid description).refresh env
              nodeId v) ∨
        (s₁.findOpenVersionInTx nodeId x = none ∧ ∃ strategy,
          Returns (createVersion env ctx nodeId x .CONTENT (some strategy) none attributes description)
            s₁ vid s₂)) := by
  obtain ⟨s₁, s₂, es, hlock, hs', ⟨v, hv, hvid, hs₂⟩ | hcreate⟩ := modifyNode_writes h
  · exact ⟨s₁, s₂, es, hlock, hs', .inl ⟨v, _, hv, hvid, hs₂⟩⟩
  · exact ⟨s₁, s₂, es, hlock, hs', .inr hcreate⟩

/-! ## Domains -/

/-- **What `assignDomain` writes**: the assignment, which was not there, and the default values. -/
theorem assignDomain_writes {env : Env} {nodeId vid : Uuid} {domainId : String} {k : Nat} {s s' : Db}
    (h : Returns (assignDomain env nodeId domainId vid) s k s') :
    domainId ∉ (s.domainsOf vid).map (·.domainId) ∧
      s'.toTables = (s.insertDomain ⟨vid, domainId⟩).insertAttributes
        ((defaultsOf env domainId).map fun a => ⟨vid, a.id, a.defaultValue⟩) := by
  simp only [assignDomain, returns_bind, returns_orElseThrow, returns_query, returns_require,
    returns_execute, returns_pure, and_assoc, exists_and_left, exists_eq_left, exists_const] at h
  obtain ⟨domain, -, hnew, _, _, hcollision, s₁, hins, _, s₂, hdefaults, rfl, rfl⟩ := h
  have hs₁ : s₁.toTables = s.insertDomain ⟨vid, domainId⟩ := by
    rw [hins]
    unfold assertNoCollision at hcollision
    split at hcollision
    · rw [(returns_pure.mp hcollision).2]
    · exact absurd hcollision returns_throw
  refine ⟨hnew, ?_⟩
  rw [returns_forM_execute hdefaults, hs₁,
    foldl_insertAttribute fun a : ResolvedAttribute => ⟨vid, a.id, a.defaultValue⟩]

theorem assignDomain_ok {env : Env} {nodeId vid : Uuid} {domainId : String} {k : Nat} {s s' : Db}
    (h : Returns (assignDomain env nodeId domainId vid) s k s') :
    RowsWritten vid s.toTables s'.toTables := by
  rw [(assignDomain_writes h).2]
  refine (RowsWritten.insertDomain vid domainId _).trans (RowsWritten.insertAttributes _ _ fun a ha => ?_)
  obtain ⟨b, -, rfl⟩ := List.mem_map.mp ha
  rfl

/-- Several `DELETE FROM node_version_attribute` of one version. -/
def Tables.clearAttributes (versionId : Uuid) (attributeDefIds : List String) (t : Tables) : Tables :=
  { t with attributes := t.attributes.filter fun a =>
      ¬ (a.nodeVersionId = versionId ∧ a.attributeDefId ∈ attributeDefIds) }

theorem foldl_deleteAttribute (vid : Uuid) (as : List ResolvedAttribute) (t : Tables) :
    as.foldl (fun t a => t.deleteAttribute vid a.id) t = t.clearAttributes vid (as.map (·.id)) := by
  induction as generalizing t with
  | nil => simp [Tables.clearAttributes]
  | cons b as ih =>
    rw [List.foldl_cons, ih, Tables.clearAttributes, Tables.deleteAttribute, List.filter_filter]
    unfold Tables.clearAttributes
    congr 1
    refine List.filter_congr fun a _ => ?_
    rw [← Bool.decide_and, decide_eq_decide, List.map_cons, List.mem_cons]
    tauto

/-- **What `unassignDomain` writes**: the values of the domain's attributes go, and so does the
assignment. -/
theorem unassignDomain_writes {env : Env} {vid : Uuid} {domainId : String} {k : Nat} {s s' : Db}
    (h : Returns (unassignDomain env domainId vid) s k s') :
    s'.toTables = (s.clearAttributes vid ((env.getDomainAttributes domainId).map (·.id))).deleteDomain
      vid domainId := by
  simp only [unassignDomain, returns_bind, returns_query, returns_require,
    returns_execute, returns_pure, and_assoc, exists_and_left, exists_eq_left, exists_const] at h
  obtain ⟨_, s₁, hattrs, s₂, hdom, -, rfl, rfl⟩ := h
  rw [hdom, returns_forM_execute hattrs, foldl_deleteAttribute]

theorem unassignDomain_ok {env : Env} {vid : Uuid} {domainId : String} {k : Nat} {s s' : Db}
    (h : Returns (unassignDomain env domainId vid) s k s') :
    RowsWritten vid s.toTables s'.toTables := by
  rw [unassignDomain_writes h, ← foldl_deleteAttribute]
  exact (RowsWritten.foldl fun a _ t => .deleteAttribute vid a.id t).trans (.deleteDomain vid domainId _)

/-- **What the domain handlers do**: they change the version the transaction holds of the node, and
store its digest. No lock is taken. -/
theorem domainAction_told {env : Env} {ctx : Caller} {nodeId x : Uuid} {domainId : Option String}
    {change : String → Uuid → Plm Nat} {s s' : Db} {u : Unit}
    (hchange : ∀ d vid s k s', Returns (change d vid) s k s' → RowsWritten vid s.toTables s'.toTables)
    (h : Returns (domainAction env ctx nodeId x domainId change) s u s') :
    ∃ v k s₁ es, s.findOpenVersionInTx nodeId x = some v ∧
      Returns (change (nvl domainId) v.id) s k s₁ ∧
      s'.toTables = (s₁.refresh env nodeId v).withEvents es := by
  simp only [domainAction, requireVersionInTx, publishDomainChange, returns_enqueue, returns_bind,
    returns_require, returns_query, returns_orElseThrow, and_assoc, exists_and_left, exists_eq_left,
    exists_const] at h
  obtain ⟨-, v, hv, k, s₁, hrun, _, s₂, hfp, s₃, hevent, hmore⟩ := h
  have hrows := hchange _ _ _ _ _ hrun
  obtain ⟨w, hw, hwid, hs₂⟩ := storeFingerprint_ok hfp
  have hwv : w = v := by
    rw [hrows.tables] at hw
    exact List.inj_on_of_nodup_map s.valid.pk_version hw (Tables.findOpenVersionInTx_ok hv).1 hwid
  rw [hwv] at hs₂
  simp only [returns_ite, returns_enqueue, returns_pure] at hmore
  obtain ⟨-, hs'⟩ | ⟨-, -, rfl⟩ := hmore
  · refine ⟨v, k, s₁, [.itemDefinitionUpdated nodeId ctx.userId,
      .itemUpdated nodeId ctx.userId none], hv, hrun, ?_⟩
    rw [hs', hevent, hs₂]
    simp [Tables.withEvents]
  · exact ⟨v, k, s₁, _, hv, hrun, by rw [hevent, hs₂]⟩

/-- A domain handler, by the rows it rewrites. -/
theorem domainAction_ok {env : Env} {ctx : Caller} {nodeId x : Uuid} {domainId : Option String}
    {change : String → Uuid → Plm Nat} {s s' : Db} {u : Unit}
    (hchange : ∀ d vid s k s', Returns (change d vid) s k s' → RowsWritten vid s.toTables s'.toTables)
    (h : Returns (domainAction env ctx nodeId x domainId change) s u s') :
    ∃ v t es, s.findOpenVersionInTx nodeId x = some v ∧ RowsWritten v.id s.toTables t
      ∧ s'.toTables = (t.refresh env nodeId v).withEvents es := by
  obtain ⟨v, k, s₁, es, hv, hrun, hs'⟩ := domainAction_told hchange h
  exact ⟨v, s₁.toTables, es, hv, hchange _ _ _ _ _ hrun, hs'⟩

/-! ## Annotations -/

/-- **`sign` adds one signature** to the last committed version of the node. -/
theorem sign_ok {env : Env} {ctx : Caller} {nodeId id : Uuid} {meaning comment : Option String}
    {s s' : Db} (h : Returns (sign env ctx nodeId meaning comment) s id s') :
    ∃ v g es, s.getLastCommittedVersion nodeId = some v ∧ g.nodeVersionId = v.id ∧ g.nodeId = nodeId
      ∧ s'.toTables = (s.takeId.insertSignature g).withEvents es := by
  simp only [sign, returns_enqueue, returns_bind, returns_require, returns_query, returns_orElseThrow,
    returns_compute, returns_randomUUID, returns_execute, returns_pure, and_assoc, exists_and_left,
    exists_eq_left, exists_const] at h
  obtain ⟨-, v, hv, -, w, -, s₁, htake, s₂, hins, s₃, hevent, rfl, rfl⟩ := h
  rw [hins, htake] at hevent
  exact ⟨v, _, _, hv, rfl, rfl, hevent⟩

theorem checkParentComment_ok {nodeId : Uuid} {parent : Option Uuid} {s s' : Db} {u : Unit}
    (h : Returns (checkParentComment nodeId parent) s u s') : s' = s := by
  unfold checkParentComment at h
  split at h
  · exact (returns_pure.mp h).2
  · simp only [returns_bind, returns_query, returns_require, and_assoc, exists_and_left,
      exists_eq_left] at h
    exact h.2

/-- **`addComment` adds one comment** to the version the request names. -/
theorem addComment_ok {env : Env} {ctx : Caller} {nodeId vid id : Uuid} {text : Option String}
    {parent : Option Uuid} {attributeName : Option String} {s s' : Db}
    (h : Returns (addComment env ctx nodeId vid text parent attributeName) s id s') :
    ∃ v c es, v ∈ s.versions ∧ v.id = vid ∧ v.nodeId = nodeId ∧ c.nodeVersionId = vid
      ∧ c.nodeId = nodeId ∧ s'.toTables = (s.takeId.insertComment c).withEvents es := by
  simp only [addComment, returns_enqueue, returns_bind, returns_require, returns_query, returns_compute,
    returns_randomUUID, returns_execute, returns_pure, and_assoc, exists_and_left, exists_eq_left,
    exists_const] at h
  obtain ⟨-, hfound, _, s₀, hparent, fp, ⟨_, w, -, -⟩, s₁, htake, s₂, hins, s₃, hevent, rfl, rfl⟩ := h
  obtain rfl := (checkParentComment_ok hparent).symm
  obtain ⟨v, hv, hp⟩ := List.any_eq_true.mp hfound
  rw [decide_eq_true_eq] at hp
  rw [hins, htake] at hevent
  exact ⟨v, _, _, hv, hp.1, hp.2, rfl, rfl, hevent⟩

/-! ## Where versions belong -/

/-- A version's id, node and transaction. -/
structure VersionKey where
  id : Uuid
  nodeId : Uuid
  txId : Uuid
  deriving DecidableEq

def VersionRow.key (v : VersionRow) : VersionKey := ⟨v.id, v.nodeId, v.txId⟩

/-- What the stored versions belong to, in order of insertion. -/
def Tables.versionKeys (t : Tables) : List VersionKey := t.versions.map VersionRow.key

/-- Rewriting versions in place moves none of them. -/
theorem versionKeys_updateVersion {vid : Uuid} {f : VersionRow → VersionRow} (t : Tables)
    (hf : ∀ v, (f v).key = v.key) : (t.updateVersion vid f).versionKeys = t.versionKeys := by
  simp only [Tables.versionKeys, Tables.updateVersion, List.map_map]
  refine List.map_congr_left fun v _ => ?_
  simp only [Function.comp_apply]
  split
  · exact hf v
  · rfl

@[simp] theorem versionKeys_refresh (env : Env) (nodeId : Uuid) (v : VersionRow) (t : Tables) :
    (t.refresh env nodeId v).versionKeys = t.versionKeys :=
  versionKeys_updateVersion t fun _ => rfl

@[simp] theorem versionKeys_describe (vid : Uuid) (description : Option String) (t : Tables) :
    (t.describe vid description).versionKeys = t.versionKeys := by
  unfold Tables.describe
  split
  · rfl
  · exact versionKeys_updateVersion t fun _ => rfl

@[simp] theorem versionKeys_addVersion (env : Env) (row : VersionRow)
    (as : List (String × Option String)) (ds : List DomainRow) (t : Tables) :
    (t.addVersion env row as ds).versionKeys = t.versionKeys ++ [row.key] := by
  rw [Tables.addVersion, versionKeys_refresh]
  simp [Tables.versionKeys, Tables.insertVersionRows, Tables.insertVersion, Tables.insertAttributes,
    Tables.insertDomains, Tables.takeId]

theorem RowsWritten.versionKeys {vid : Uuid} {t t' : Tables} (h : RowsWritten vid t t') :
    t'.versionKeys = t.versionKeys := by
  rw [h.tables]
  rfl

/-- `createVersion` adds one key, of the node and the transaction, and leaves the other tables
the keys are about alone. -/
theorem createVersion_keys {env : Env} {ctx : Caller} {nodeId x vid : Uuid} {ct : ChangeType}
    {strategy : Option VersionStrategy} {st : Option String}
    {attrs : List (String × Option String)} {desc : Option String} {s s' : Db}
    (h : Returns (createVersion env ctx nodeId x ct strategy st attrs desc) s vid s') :
    s'.versionKeys = s.versionKeys ++ [⟨vid, nodeId, x⟩] ∧ s'.nodes = s.nodes ∧ s'.txs = s.txs
      ∧ s'.links = s.links ∧ s'.signatures = s.signatures ∧ s'.comments = s.comments := by
  obtain ⟨-, numbering, row, rfl, -, hs'⟩ := createVersion_ok h
  rw [hs', versionKeys_addVersion]
  exact ⟨rfl, rfl, rfl, rfl, rfl, rfl⟩

end PlmCore.Psm
