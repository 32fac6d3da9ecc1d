/-
The requests a user edits with, and what a request does inside its PLM transaction.

`AuthoringOp` lists them and `run` is the service method behind each. `WorksInside` collects
what they have in common as long as they keep to their transaction: they leave the rest of
the store as it is, they only add versions to the transaction, and a node they create or lock
has a version in it. Two kinds of request do not keep to it by themselves: a link is addressed
by its own id, and an annotation by a node or a version.
-/
import PlmCore.Psm.Lifecycle
import PlmCore.Psm.Outside

set_option autoImplicit false

namespace PlmCore.Psm

open PlmCore.Lib

/-! ## Requests -/

/-- A request, without the transaction it is made in. A checkout may leave the transaction to be
found. -/
inductive AuthoringOp
  | createNode (projectSpaceId : Option String) (nodeTypeId : String)
      (logicalId externalId : Option String)
  | checkout (nodeId : Uuid) (namesTransaction : Bool)
  | modifyNode (nodeId : Uuid) (attributes : List (String × Option String))
      (description : Option String) (strategy : Option VersionStrategy)
  | createLink (linkTypeId : String) (nodeId : Uuid) (sourceCode type key linkLogicalId : Option String)
  | updateLink (linkId : Uuid) (update : LinkUpdate)
  | deleteLink (linkId : Uuid)
  | assignDomain (nodeId : Uuid) (domainId : Option String)
  | unassignDomain (nodeId : Uuid) (domainId : Option String)
  | transition (nodeId : Uuid) (transitionId : String)
  | commit (comment : Option String) (selectedNodeIds : List Uuid)
  | addComment (nodeId nodeVersionId : Uuid) (text : Option String) (parentCommentId : Option Uuid)
      (attributeName : Option String)
  | sign (nodeId : Uuid) (meaning comment : Option String)

namespace AuthoringOp

/-- The service method of a request in the transaction `x`. `depth` bounds the call stack of a
transition. -/
def run (env : Env) (ctx : Caller) (depth : Nat) (x : Uuid) : AuthoringOp → Plm Unit
  | createNode projectSpaceId nodeTypeId logicalId externalId => do
    let _ ← Psm.createNode env ctx projectSpaceId nodeTypeId logicalId externalId
    pure ()
  | checkout nodeId namesTransaction => do
    let _ ← Psm.checkout env ctx nodeId (if namesTransaction then some x else none)
    pure ()
  | modifyNode nodeId attributes description strategy => do
    let _ ← Psm.modifyNode env ctx nodeId x attributes description strategy
    pure ()
  | createLink linkTypeId nodeId sourceCode type key linkLogicalId => do
    let _ ← Psm.createLink env ctx linkTypeId nodeId sourceCode type key x linkLogicalId
    pure ()
  | updateLink linkId update => Psm.updateLink env ctx linkId update
  | deleteLink linkId => Psm.deleteLink env ctx linkId
  | assignDomain nodeId domainId => assignDomainAction env ctx nodeId x domainId
  | unassignDomain nodeId domainId => unassignDomainAction env ctx nodeId x domainId
  | transition nodeId transitionId => do
    let _ ← applyTransition env ctx depth nodeId transitionId x
    pure ()
  | commit comment selectedNodeIds => do
    let _ ← commitTransaction env ctx x comment selectedNodeIds
    pure ()
  | addComment nodeId nodeVersionId text parentCommentId attributeName => do
    let _ ← Psm.addComment env ctx nodeId nodeVersionId text parentCommentId attributeName
    pure ()
  | sign nodeId meaning comment => do
    let _ ← Psm.sign env ctx nodeId meaning comment
    pure ()

/-- The link a request addresses by its id. -/
def link? : AuthoringOp → Option Uuid
  | updateLink linkId _ => some linkId
  | deleteLink linkId => some linkId
  | _ => none

/-- The version a request comments on. -/
def commented? : AuthoringOp → Option Uuid
  | addComment _ nodeVersionId _ _ _ => some nodeVersionId
  | _ => none

/-- The request only edits: it neither changes a state nor closes the transaction. -/
def isEdit : AuthoringOp → Bool
  | transition _ _ => false
  | commit _ _ => false
  | _ => true

/-- The request adds a signature. -/
def signs : AuthoringOp → Bool
  | sign _ _ _ => true
  | _ => false

/-- The request adds a comment. -/
def comments (op : AuthoringOp) : Bool := op.commented?.isSome

end AuthoringOp

/-! ## Working inside a transaction -/

/-- The step keeps to the transaction `x`. -/
structure WorksInside (x : Uuid) (s s' : Tables) : Prop where
  outside : s'.outside x = s.outside x
  txs : s'.txs = s.txs
  keys : s.versionKeys <+: s'.versionKeys
  nodes : ∀ n ∈ s'.nodes, n ∈ s.nodes ∨ n.id ∈ s'.affectedNodes x
  signatures : s'.signatures = s.signatures
  comments : s'.comments = s.comments

/-- The nodes of a transaction, by its keys. -/
theorem mem_affectedNodes_iff {t : Tables} {x nodeId : Uuid} :
    nodeId ∈ t.affectedNodes x ↔ ∃ k ∈ t.versionKeys, k.txId = x ∧ k.nodeId = nodeId := by
  rw [mem_affectedNodes, Tables.versionKeys]
  simp [VersionRow.key]

namespace WorksInside

variable {x : Uuid} {s₁ s₂ s₃ : Tables}

theorem refl (x : Uuid) (s : Tables) : WorksInside x s s :=
  ⟨rfl, rfl, List.prefix_rfl, fun _ h => .inl h, rfl, rfl⟩

/-- A node of the transaction stays one. -/
theorem affected (h : WorksInside x s₁ s₂) {nodeId : Uuid} (hn : nodeId ∈ s₁.affectedNodes x) :
    nodeId ∈ s₂.affectedNodes x := by
  obtain ⟨k, hk, hx⟩ := mem_affectedNodes_iff.mp hn
  exact mem_affectedNodes_iff.mpr ⟨k, h.keys.subset hk, hx⟩

theorem trans (h₁ : WorksInside x s₁ s₂) (h₂ : WorksInside x s₂ s₃) : WorksInside x s₁ s₃ where
  outside := h₂.outside.trans h₁.outside
  txs := h₂.txs.trans h₁.txs
  keys := h₁.keys.trans h₂.keys
  nodes n hn := by
    rcases h₂.nodes n hn with hn | hn
    · exact (h₁.nodes n hn).imp_right h₂.affected
    · exact .inr hn
  signatures := h₂.signatures.trans h₁.signatures
  comments := h₂.comments.trans h₁.comments

/-- Events are not part of it. -/
theorem withEvents (h : WorksInside x s₁ s₂) (es : List PlmEvent) :
    WorksInside x s₁ (s₂.withEvents es) := { h with }

end WorksInside

/-- The step moves no version and writes no node, transaction or annotation. -/
structure SameFrame (s s' : Tables) : Prop where
  keys : s'.versionKeys = s.versionKeys
  nodes : s'.nodes = s.nodes
  txs : s'.txs = s.txs
  signatures : s'.signatures = s.signatures
  comments : s'.comments = s.comments

namespace SameFrame

variable {x : Uuid} {s s' : Tables}

theorem of_rowsWritten {vid : Uuid} (h : RowsWritten vid s s') : SameFrame s s' := by
  refine ⟨h.versionKeys, ?_, ?_, ?_, ?_⟩ <;>
  · rw [h.tables]

theorem describe (h : SameFrame s s') (vid : Uuid) (description : Option String) :
    SameFrame s (s'.describe vid description) := by
  refine ⟨(versionKeys_describe _ _ _).trans h.keys, ?_, ?_, ?_, ?_⟩ <;>
  · unfold Tables.describe
    split
    · first | exact h.nodes | exact h.txs | exact h.signatures | exact h.comments
    · first | exact h.nodes | exact h.txs | exact h.signatures | exact h.comments

theorem refresh (h : SameFrame s s') (env : Env) (nodeId : Uuid) (v : VersionRow) :
    SameFrame s (s'.refresh env nodeId v) :=
  ⟨(versionKeys_refresh _ _ _ _).trans h.keys, h.nodes, h.txs, h.signatures, h.comments⟩

theorem withEvents (h : SameFrame s s') (es : List PlmEvent) : SameFrame s (s'.withEvents es) :=
  { h with }

/-- Such a step works inside a transaction as soon as it leaves the rest as it is. -/
theorem worksInside (h : SameFrame s s') (houtside : s'.outside x = s.outside x) :
    WorksInside x s s' :=
  ⟨houtside, h.txs, h.keys ▸ List.prefix_rfl, fun _ hn => .inl (h.nodes ▸ hn), h.signatures, h.comments⟩

end SameFrame

/-! ## Each request works inside its transaction -/

section Requests

variable {env : Env} {ctx : Caller} {x nodeId : Uuid} {s s' : Db}

/-- `tryLock` writes one node row. -/
theorem tryLock_nodes {s₁ : Db} (h : Returns (tryLock ctx nodeId) s () s₁) :
    ∀ n ∈ s₁.nodes, n ∈ s.nodes ∨ n.id = nodeId := by
  obtain ⟨m, -, ⟨-, rfl⟩ | ⟨-, hs₁⟩⟩ := tryLock_ok h
  · exact fun n hn => .inl hn
  · intro n hn
    rw [hs₁] at hn
    obtain ⟨n₀, hn₀, rfl⟩ := List.mem_map.mp hn
    split
    · rename_i hid
      exact .inr hid
    · exact .inl hn₀

/-- Locking a node the transaction ends up with a version of. -/
theorem WorksInside.of_tryLock {s₁ : Db} {t : Tables} (hlock : Returns (tryLock ctx nodeId) s () s₁)
    (h : WorksInside x s₁.toTables t) (hn : nodeId ∈ t.affectedNodes x) :
    WorksInside x s.toTables t := by
  have hframe := tryLock_frame hlock
  refine ⟨h.outside.trans (outside_tryLock hlock), h.txs.trans (by rw [hframe]), ?_, fun n hmem => ?_,
    h.signatures.trans (by rw [hframe]), h.comments.trans (by rw [hframe])⟩
  · have hkeys : s₁.versionKeys = s.versionKeys := by
      rw [hframe]
      rfl
    exact hkeys ▸ h.keys
  · rcases h.nodes n hmem with hmem | hmem
    · rcases tryLock_nodes hlock n hmem with hmem | rfl
      · exact .inl hmem
      · exact .inr hn
    · exact .inr hmem

theorem worksInside_createVersion {vid : Uuid} {ct : ChangeType} {strategy : Option VersionStrategy}
    {st : Option String} {attrs : List (String × Option String)} {desc : Option String}
    (h : Returns (createVersion env ctx nodeId x ct strategy st attrs desc) s vid s') :
    WorksInside x s.toTables s'.toTables ∧ nodeId ∈ s'.affectedNodes x := by
  obtain ⟨hkeys, hnodes, htxs, -, hsignatures, hcomments⟩ := createVersion_keys h
  refine ⟨⟨outside_createVersion h, htxs, ?_, fun n hn => .inl (hnodes ▸ hn), hsignatures, hcomments⟩, ?_⟩
  · rw [hkeys]
    exact List.prefix_append _ _
  · refine mem_affectedNodes_iff.mpr ⟨⟨vid, nodeId, x⟩, ?_, rfl, rfl⟩
    simp [hkeys]

theorem worksInside_ensureOpenVersion {sv : Uuid}
    (h : Returns (ensureOpenVersion env ctx nodeId x) s sv s') :
    WorksInside x s.toTables s'.toTables ∧ nodeId ∈ s'.affectedNodes x := by
  obtain ⟨-, v, hv, -, hnode, hx⟩ := ensureOpenVersion_ok h
  refine ⟨?_, mem_affectedNodes.mpr ⟨v, hv, hx, hnode⟩⟩
  simp only [ensureOpenVersion, returns_bind, returns_query, and_assoc, exists_and_left,
    exists_eq_left] at h
  split at h
  · obtain ⟨-, rfl⟩ := returns_pure.mp h
    exact .refl _ _
  · exact (worksInside_createVersion h).1

/-- A version the transaction holds of a node makes the node one of its nodes. -/
theorem mem_affectedNodes_of_open {v : VersionRow} (h : s.findOpenVersionInTx nodeId x = some v) :
    nodeId ∈ s.affectedNodes x := by
  obtain ⟨hv, hnode, hx⟩ := Tables.findOpenVersionInTx_ok h
  exact mem_affectedNodes.mpr ⟨v, hv, hx, hnode⟩

/-- The caller's only open transaction is the one found. -/
theorem findOrOpenTransaction_only {y : Uuid}
    (honly : (s.openTransactionsOf ctx.userId).map (·.id) = [x])
    (h : Returns (findOrOpenTransaction ctx) s y s') : y = x ∧ s' = s := by
  obtain ⟨rfl, hy⟩ | ⟨hnil, -⟩ := findOrOpenTransaction_ok h
  · rw [honly] at hy
    exact ⟨(List.cons.inj hy).1.symm, rfl⟩
  · rw [hnil] at honly
    cases honly

theorem worksInside_createNode {projectSpaceId : Option String} {nodeTypeId : String}
    {logicalId externalId : Option String}
    (honly : (s.openTransactionsOf ctx.userId).map (·.id) = [x])
    (h : Returns (createNode env ctx projectSpaceId nodeTypeId logicalId externalId) s nodeId s') :
    WorksInside x s.toTables s'.toTables := by
  obtain ⟨y, s₁, s₂, s₃, row, es, -, -, hins, hlock, htx, ⟨state, rfl⟩, hs'⟩ := createNode_ok h
  obtain ⟨y', s₁', s₂', htxs', htx', houtside⟩ := outside_createNode h
  have hframe := tryLock_frame hlock
  -- the transaction of the user is found, not opened
  have honly₂ : (s₂.openTransactionsOf ctx.userId).map (·.id) = [x] := by
    rw [hframe, hins]
    exact honly
  have honly' : (s₁'.openTransactionsOf ctx.userId).map (·.id) = [x] := by
    rw [Tables.openTransactionsOf, htxs']
    exact honly
  obtain ⟨rfl, rfl⟩ := findOrOpenTransaction_only honly₂ htx
  obtain ⟨rfl, -⟩ := findOrOpenTransaction_only honly' htx'
  -- the node comes with one version, of that transaction
  have hkeys : s'.versionKeys = s.versionKeys ++ [⟨s₃.nextId, nodeId, y'⟩] := by
    rw [hs']
    change (s₃.addVersion env _ [] []).versionKeys = _
    rw [versionKeys_addVersion, hframe, hins]
    rfl
  have haffected : nodeId ∈ s'.affectedNodes y' :=
    mem_affectedNodes_iff.mpr ⟨⟨s₃.nextId, nodeId, y'⟩, by simp [hkeys], rfl, rfl⟩
  refine ⟨houtside, ?_, hkeys ▸ List.prefix_append _ _, fun n hn => ?_, ?_, ?_⟩
  · rw [hs', hframe, hins]
    rfl
  · rw [hs'] at hn
    -- what changes of the nodes is the new one, which is affected
    rcases tryLock_nodes hlock n hn with hn | rfl
    · rw [hins] at hn
      rcases List.mem_append.mp hn with hn | hn
      · exact .inl hn
      · rw [List.mem_singleton.mp hn]
        exact .inr haffected
    · exact .inr haffected
  · rw [hs', hframe, hins]
    rfl
  · rw [hs', hframe, hins]
    rfl

theorem worksInside_checkout {vid : Uuid} {txId : Option Uuid}
    (honly : txId = some x ∨ txId = none ∧ (s.openTransactionsOf ctx.userId).map (·.id) = [x])
    (h : Returns (checkout env ctx nodeId txId) s vid s') : WorksInside x s.toTables s'.toTables := by
  obtain ⟨y, s₁, s₂, hlock, htx, h⟩ := checkout_ok h
  have hy : y = x ∧ s₂ = s₁ := by
    rcases honly with rfl | ⟨rfl, honly⟩
    · exact returns_pure.mp htx
    · refine findOrOpenTransaction_only ?_ htx
      rw [tryLock_frame hlock]
      exact honly
  obtain ⟨rfl, rfl⟩ := hy
  obtain ⟨v, hv, -, rfl⟩ | ⟨-, strategy, s₃, es, hcreate, hs'⟩ := h
  · exact .of_tryLock hlock (.refl _ _) (mem_affectedNodes_of_open hv)
  · obtain ⟨hinside, hnode⟩ := worksInside_createVersion hcreate
    rw [hs']
    exact .of_tryLock hlock (hinside.withEvents es) hnode

theorem worksInside_modifyNode {vid : Uuid} {attributes : List (String × Option String)}
    {description : Option String} {strategy : Option VersionStrategy}
    (h : Returns (modifyNode env ctx nodeId x attributes description strategy) s vid s') :
    WorksInside x s.toTables s'.toTables := by
  have houtside := outside_modifyNode h
  obtain ⟨s₁, s₂, es, hlock, hs', h⟩ := modifyNode_ok h
  obtain ⟨v, values, hv, rfl, hs₂⟩ | ⟨-, strategy, hcreate⟩ := h
  · have hframe : SameFrame s₁.toTables s'.toTables := by
      rw [hs', hs₂]
      exact (((SameFrame.of_rowsWritten (.replaceAttributes v.id values _)).describe v.id
        description).refresh env nodeId v).withEvents es
    have hinside : WorksInside x s₁.toTables s'.toTables :=
      hframe.worksInside (houtside.trans (outside_tryLock hlock).symm)
    exact .of_tryLock hlock hinside (hinside.affected (mem_affectedNodes_of_open hv))
  · obtain ⟨hinside, hnode⟩ := worksInside_createVersion hcreate
    rw [hs']
    exact .of_tryLock hlock (hinside.withEvents es) hnode

theorem worksInside_domainAction {domainId : Option String} {change : String → Uuid → Plm Nat}
    (hchange : ∀ d vid s k s', Returns (change d vid) s k s' → RowsWritten vid s.toTables s'.toTables)
    (h : Returns (domainAction env ctx nodeId x domainId change) s () s') :
    WorksInside x s.toTables s'.toTables := by
  have houtside := outside_domainAction hchange h
  obtain ⟨v, t, es, -, hrows, hs'⟩ := domainAction_ok hchange h
  have hframe : SameFrame s.toTables s'.toTables := by
    rw [hs']
    exact ((SameFrame.of_rowsWritten hrows).refresh env nodeId v).withEvents es
  exact hframe.worksInside houtside

theorem worksInside_createLink {linkTypeId : String} {linkId : Uuid}
    {sourceCode type key linkLogicalId : Option String}
    (h : Returns (createLink env ctx linkTypeId nodeId sourceCode type key x linkLogicalId) s linkId
      s') : WorksInside x s.toTables s'.toTables := by
  have houtside := outside_createLink h
  obtain ⟨target, sv, s₁, s₂, v, es, hensure, hlock, -, -, -, -, hs'⟩ := createLink_ok h
  obtain ⟨hinside, hnode⟩ := worksInside_ensureOpenVersion hensure
  have hinserted : SameFrame s₂.toTables
      (s₂.takeId.insertLink (newLink ctx linkId linkTypeId sv target linkLogicalId)) :=
    ⟨rfl, rfl, rfl, rfl, rfl⟩
  have hframe : SameFrame s₂.toTables s'.toTables := by
    rw [hs']
    exact (hinserted.refresh env nodeId v).withEvents es
  have hinside₂ : WorksInside x s₂.toTables s'.toTables :=
    hframe.worksInside (by rw [houtside, outside_tryLock hlock, hinside.outside])
  have hnode₂ : nodeId ∈ s₂.affectedNodes x := by
    rw [tryLock_frame hlock]
    exact hnode
  exact hinside.trans (.of_tryLock hlock hinside₂ (hinside₂.affected hnode₂))

/-- The link's version is one of the transaction, so its node is. -/
theorem mem_affectedNodes_of_ownsLink {linkId : Uuid} {link : LinkRow} {source : VersionRow}
    (hown : s.ownsLink x linkId) (hlink : link ∈ s.links) (hlid : link.id = linkId)
    (hsource : source ∈ s.versions) (hsid : source.id = link.sourceNodeVersionId) :
    source.nodeId ∈ s.affectedNodes x :=
  mem_affectedNodes.mpr ⟨source, hsource,
    (id_mem_ofTx s.valid hsource).mp (hsid ▸ hown link hlink hlid), rfl⟩

theorem worksInside_deleteLink {linkId : Uuid} (hown : s.ownsLink x linkId)
    (h : Returns (deleteLink env ctx linkId) s () s') : WorksInside x s.toTables s'.toTables := by
  have houtside := outside_deleteLinkOp hown h
  obtain ⟨link, source, s₁, es, hlink, hlid, hsource, hsid, hlock, hs'⟩ := deleteLink_ok h
  have hdeleted : SameFrame s₁.toTables (s₁.deleteLink linkId) := ⟨rfl, rfl, rfl, rfl, rfl⟩
  have hframe : SameFrame s₁.toTables s'.toTables := by
    rw [hs']
    exact (hdeleted.refresh env source.nodeId source).withEvents es
  have hinside : WorksInside x s₁.toTables s'.toTables :=
    hframe.worksInside (houtside.trans (outside_tryLock hlock).symm)
  have hnode : source.nodeId ∈ s₁.affectedNodes x := by
    rw [tryLock_frame hlock]
    exact mem_affectedNodes_of_ownsLink hown hlink hlid hsource hsid
  exact .of_tryLock hlock hinside (hinside.affected hnode)

theorem worksInside_updateLink {linkId : Uuid} {u : LinkUpdate} (hown : s.ownsLink x linkId)
    (honly : ∀ v ∈ s.versions, s.isOpen v.txId = true → v.txId = x)
    (h : Returns (updateLink env ctx linkId u) s () s') : WorksInside x s.toTables s'.toTables := by
  have houtside := outside_updateLink hown honly h
  obtain ⟨link, source, s₁, target, logicalId, rows, v, es, hlink, hlid, hsource, hsid, hlock, -, -,
    -, -, hs'⟩ := updateLink_ok h
  have hwritten : SameFrame s₁.toTables (s₁.writeLink linkId target logicalId rows) :=
    ⟨rfl, rfl, rfl, rfl, rfl⟩
  have hframe : SameFrame s₁.toTables s'.toTables := by
    rw [hs']
    exact (hwritten.refresh env source.nodeId v).withEvents es
  have hinside : WorksInside x s₁.toTables s'.toTables :=
    hframe.worksInside (houtside.trans (outside_tryLock hlock).symm)
  have hnode : source.nodeId ∈ s₁.affectedNodes x := by
    rw [tryLock_frame hlock]
    exact mem_affectedNodes_of_ownsLink hown hlink hlid hsource hsid
  exact .of_tryLock hlock hinside (hinside.affected hnode)

end Requests

end PlmCore.Psm
