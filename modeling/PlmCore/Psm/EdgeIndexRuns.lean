/-
Whether the edge index follows the link table along a run of link requests and ends of
transactions.

An event names the node whose logical id is the whole target key and whose type is the declared
one, the resolver finds more; an edge ends with the first of the links that stand for it; a link
that goes with its version is not told of at all. `Orderly` says when none of this shows.
-/
import PlmCore.Lib.Run
import PlmCore.Psm.EdgeIndex
import PlmCore.Psm.Outside
import PlmCore.Psm.Wrapper

set_option autoImplicit false

namespace PlmCore.Psm

open PlmCore.Lib

/-! ## Requests -/

/-- The requests that create, retarget or remove links, the ends of transactions, and a change of
the metamodel. -/
inductive LinkRequest
  | createLink (ctx : Caller) (linkTypeId : String) (nodeId : Uuid)
      (sourceCode type key : Option String) (txId : Uuid) (linkLogicalId : Option String)
  | updateLink (ctx : Caller) (linkId : Uuid) (u : LinkUpdate)
  | deleteLink (ctx : Caller) (linkId : Uuid)
  | commit (ctx : Caller) (txId : Uuid) (comment : Option String) (selected : List Uuid)
  | rollback (ctx : Caller) (txId : Uuid)
  | release (ctx : Caller) (txId : Uuid) (nodeIds : List Uuid)
  | cleanStale (now : Nat)
  | configured (env : Env)

/-- The metamodel in force and the store. -/
structure LinkStore where
  env : Env
  db : Db

/-- The service method behind a request. -/
def LinkRequest.method (env : Env) : LinkRequest → Plm Unit
  | .createLink ctx linkTypeId nodeId sourceCode type key txId linkLogicalId => do
    let _ ← PlmCore.Psm.createLink env ctx linkTypeId nodeId sourceCode type key txId linkLogicalId
    pure ()
  | .updateLink ctx linkId u => PlmCore.Psm.updateLink env ctx linkId u
  | .deleteLink ctx linkId => PlmCore.Psm.deleteLink env ctx linkId
  | .commit ctx txId comment selected => do
    let _ ← commitTransaction env ctx txId comment selected
    pure ()
  | .rollback ctx txId => rollbackTransaction ctx txId
  | .release ctx txId nodeIds => releaseNodes ctx txId nodeIds
  | .cleanStale now => cleanStaleTransactions now
  | .configured _ => pure ()

/-- One request: a method that fails leaves the store as it was. -/
def LinkStore.step (st : LinkStore) (r : LinkRequest) : LinkStore where
  env := match r with
    | .configured env => env
    | _ => st.env
  db := (atomically (r.method st.env) st.db).2

/-! ## When the events tell the truth -/

/-- Telling of the end of the edge `toldOld` and the beginning of `toldNew` is right, when a link
that stood for `old` now stands for `new` and the other links stand for `others`. -/
structure Retold (others : Edge → Prop) (old toldOld new toldNew : Option Edge) : Prop where
  ended : ∀ e, toldOld = some e → toldNew = some e ∨ (¬ others e ∧ new ≠ some e)
  forgotten : ∀ e, old = some e → toldOld = some e ∨ others e ∨ new = some e
  begun : ∀ e, toldNew = some e → others e ∨ new = some e
  unheard : ∀ e, new = some e → toldNew = some e ∨ others e ∨ old = some e

namespace Tables

variable (env : Env) (t : Tables)

/-- The edge the events of a link speak of. -/
def toldEdge (l : LinkRow) (target : LinkTarget) : Option Edge :=
  edgeFrom (t.ownerNode l.sourceNodeVersionId) (relName env l.linkTypeId) (t.resolveDstNodeId target)

/-- Another link stands for the edge. -/
def OthersLink (linkId : Uuid) (e : Edge) : Prop :=
  ∃ l ∈ t.links, l.id ≠ linkId ∧ t.edgeOf env l = some e

/-- The store without some nodes. -/
def withoutNodes (gone : List Uuid) : Tables := { t with nodes := t.nodes.filter (·.id ∉ gone) }

/-- The number is committed, or the commit of the transaction commits it. -/
def hasSettled (x : Uuid) (deferred : List Uuid) (nodeId : Uuid) (versionNumber : Int) : Bool :=
  t.hasCommitted nodeId versionNumber || t.versions.any fun v =>
    v.nodeId = nodeId ∧ (v.versionNumber : Int) = versionNumber ∧ settled x deferred v

/-- Discarding the selected versions and the nodes `gone` takes no edge of a link that stays: a
link that goes shares its edge with one that stays, or its edge goes with a node. And no link that
stays begins to stand for an edge when the nodes go. -/
structure Undone (p : VersionSelection) (gone : List Uuid) : Prop where
  covered : ∀ l ∈ t.links, l.sourceNodeVersionId ∈ t.selectVersionIds p → ∀ e,
    t.edgeOf env l = some e → e.srcId ∈ gone ∨ e.dstId ∈ gone ∨
      ∃ l' ∈ t.links, l'.sourceNodeVersionId ∉ t.selectVersionIds p ∧
        (t.withoutNodes gone).edgeOf env l' = some e
  unmoved : ∀ l ∈ t.links, l.sourceNodeVersionId ∉ t.selectVersionIds p → ∀ e,
    (t.withoutNodes gone).edgeOf env l = some e → t.Links env e

end Tables

/-- What is told of a request is what it does to the edges of the link table. -/
def LinkStore.Orderly (st : LinkStore) : LinkRequest → Prop
  | .createLink _ linkTypeId nodeId sourceCode type key _ _ =>
    ∀ linkType, st.env.getLinkType linkTypeId = some linkType →
      Retold (st.db.Links st.env) none none
        (edgeFrom (some nodeId) (relName st.env linkTypeId)
          (st.db.selfTarget st.env (askedTarget linkType sourceCode type key)))
        (edgeFrom (some nodeId) (relName st.env linkTypeId)
          (st.db.resolveDstNodeId (askedTarget linkType sourceCode type key)))
  | .updateLink _ linkId u => u.targetChanged = true → ∀ l ∈ st.db.links, l.id = linkId →
    Retold (st.db.OthersLink st.env linkId) (st.db.edgeOf st.env l)
      (st.db.toldEdge st.env l l.target)
      (st.db.edgeOf st.env (l.pointingAt (u.newTarget l) l.linkLogicalId))
      (st.db.toldEdge st.env l (u.newTarget l))
  | .deleteLink _ linkId => ∀ l ∈ st.db.links, l.id = linkId →
    Retold (st.db.OthersLink st.env linkId) (st.db.edgeOf st.env l)
      (st.db.toldEdge st.env l l.target) none none
  | .commit _ x _ selected => ∀ l ∈ st.db.links, ∀ e,
    edgeFrom (st.db.ownerNode l.sourceNodeVersionId) (relName st.env l.linkTypeId)
      (resolveSelf st.env st.db.nodes
        (st.db.hasSettled x (deferredNodeIds (st.db.affectedNodes x) selected)) l.target) = some e →
      st.db.Links st.env e
  | .rollback _ x =>
    st.db.Undone st.env (ofTx x) (st.db.emptied (ofTx x) (st.db.affectedNodes x))
  | .release _ x nodeIds =>
    st.db.Undone st.env (ofTxAndNodes x nodeIds) (st.db.emptied (ofTxAndNodes x nodeIds) nodeIds)
  | .cleanStale now => st.db.Undone st.env (ofTxs (st.db.staleTxIds now)) []
  | .configured env => ∀ e, st.db.Links env e ↔ st.db.Links st.env e

/-- A request is refused, or orderly. -/
def LinkStore.Fits (st : LinkStore) (r : LinkRequest) : Prop :=
  (∃ s', Returns (r.method st.env) st.db () s') → st.Orderly r

/-! ## The steps that tell of a link -/

theorem Retold.iff {others : Edge → Prop} {old toldOld new toldNew : Option Edge}
    (h : Retold others old toldOld new toldNew) (e : Edge) :
    ((others e ∨ old = some e) ∧ toldOld ≠ some e ∨ toldNew = some e) ↔ others e ∨ new = some e := by
  have hended := h.ended e
  have hforgotten := h.forgotten e
  have hbegun := h.begun e
  have hunheard := h.unheard e
  tauto

/-- A new link is told of by its edge. -/
theorem Retold.begins {others : Edge → Prop} (new : Option Edge) : Retold others none none new new where
  ended _ h := by cases h
  forgotten _ h := by cases h
  begun _ h := .inr h
  unheard _ h := .inl h

/-- The end of the only link that stands for an edge is told of. -/
theorem Retold.ends {others : Edge → Prop} {old told : Option Edge} (htold : old = told)
    (h : ∀ e, ¬ others e) : Retold others old told none none where
  ended e _ := .inr ⟨h e, by simp⟩
  forgotten _ h := .inl (htold ▸ h)
  begun _ h := by cases h
  unheard _ h := by cases h

section Steady

variable {env : Env} {ctx : Caller} {nodeId : Uuid} {s s' : Db}

theorem Steady.refresh (env : Env) (t : Tables) (nodeId : Uuid) (v : VersionRow) :
    Steady t (t.refresh env nodeId v) := Steady.setFingerprint ..

theorem versionIds_refresh (t : Tables) (nodeId : Uuid) (v : VersionRow) :
    (t.refresh env nodeId v).versionIds = t.versionIds := by
  simp only [Tables.refresh, Tables.setFingerprint, Tables.updateVersion, Tables.versionIds,
    List.map_map]
  refine List.map_congr_left fun w _ => ?_
  simp only [Function.comp_apply]
  split <;> rfl

theorem steady_tryLock (h : Returns (tryLock ctx nodeId) s () s') : Steady s.toTables s'.toTables := by
  refine .of_versions ?_ (by rw [tryLock_frame h]) (by rw [tryLock_frame h])
  obtain ⟨n, -, ⟨-, rfl⟩ | ⟨-, hs'⟩⟩ := tryLock_ok h
  · rfl
  · rw [hs']
    exact unlocked_setLock ..

/-- Making sure of an open version moves no link target, touches no link and tells nothing. -/
theorem ensureOpenVersion_steady {x sv : Uuid} (h : Returns (ensureOpenVersion env ctx nodeId x) s sv s') :
    Steady s.toTables s'.toTables ∧ s.versionIds ⊆ s'.versionIds ∧ s'.links = s.links ∧
      s'.indexEvents = s.indexEvents := by
  simp only [ensureOpenVersion, returns_bind, returns_query, and_assoc, exists_and_left,
    exists_eq_left] at h
  split at h
  · obtain ⟨-, rfl⟩ := returns_pure.mp h
    exact ⟨.refl _, List.Subset.refl _, rfl, rfl⟩
  · obtain ⟨hopen, numbering, row, hrow, -, hs'⟩ := createVersion_ok h
    have hrowx : s.takeId.isCommitted row.txId = false := by
      rw [hrow]
      exact Tables.not_isCommitted_of_isOpen hopen
    have hids : s.versionIds ⊆ (s.insertVersionRows row
        (putAll (s.currentAttributes nodeId x) []) (s.currentDomains nodeId x)).versionIds := by
      simp [Tables.versionIds, Tables.insertVersionRows, Tables.insertVersion,
        Tables.insertAttributes, Tables.insertDomains, Tables.takeId]
    rw [hs', Tables.addVersion, versionIds_refresh]
    refine ⟨?_, hids, rfl, indexEvents_of_outbox rfl⟩
    have hinsert : Steady s.takeId (s.takeId.insertVersion row) := Steady.insertVersion hrowx
    have hrows : Steady s.toTables (s.insertVersionRows row
        (putAll (s.currentAttributes nodeId x) []) (s.currentDomains nodeId x)) :=
      { hinsert with }
    exact hrows.trans (Steady.refresh ..) hids

end Steady

/-- What a request that tells of a link does: of the edge of one link, and of the edges told. The
other links keep theirs. -/
theorem Follows.retold {env : Env} {s s' : Tables} {others : Edge → Prop}
    {old toldOld new toldNew : Option Edge} (hf : Follows env s)
    (hbefore : ∀ e, s.Links env e ↔ others e ∨ old = some e)
    (hafter : ∀ e, s'.Links env e ↔ others e ∨ new = some e)
    (htold : ∀ e, e ∈ s'.edgeIndex ↔ e ∈ s.edgeIndex ∧ toldOld ≠ some e ∨ toldNew = some e)
    (h : Retold others old toldOld new toldNew) : Follows env s' := by
  intro e
  rw [htold, hf, hbefore, hafter]
  exact h.iff e

theorem edgeIndex_withEvents {es : List PlmEvent} (h : ∀ e ∈ es, e.isIndexed = true) (t : Tables) :
    (t.withEvents es).edgeIndex = es.foldl applyEdgeEvent t.edgeIndex := by
  refine edgeIndex_of_indexEvents ?_
  rw [indexEvents_withEvents, List.filter_eq_self.mpr h]

/-- The link is one of the links. -/
theorem links_iff_others {env : Env} {s : Db} {link : LinkRow} (hlink : link ∈ s.links) (e : Edge) :
    s.Links env e ↔ s.OthersLink env link.id e ∨ s.edgeOf env link = some e := by
  constructor
  · rintro ⟨l, hl, he⟩
    by_cases hid : l.id = link.id
    · rw [List.inj_on_of_nodup_map s.valid.pk_link hl hlink hid] at he
      exact .inr he
    · exact .inl ⟨l, hl, hid, he⟩
  · rintro (⟨l, hl, -, he⟩ | he)
    · exact ⟨l, hl, he⟩
    · exact ⟨link, hlink, he⟩

section LinkSteps

variable {env : Env} {ctx : Caller} {linkId : Uuid} {s s' : Db}

theorem follows_createLink {linkTypeId : String} {nodeId txId : Uuid}
    {sourceCode type key linkLogicalId : Option String} (hf : Follows env s.toTables)
    (h : Returns (createLink env ctx linkTypeId nodeId sourceCode type key txId linkLogicalId)
      s linkId s')
    (hr : ∀ linkType, env.getLinkType linkTypeId = some linkType →
      Retold (s.Links env) none none
        (edgeFrom (some nodeId) (relName env linkTypeId)
          (s.selfTarget env (askedTarget linkType sourceCode type key)))
        (edgeFrom (some nodeId) (relName env linkTypeId)
          (s.resolveDstNodeId (askedTarget linkType sourceCode type key)))) :
    Follows env s'.toTables := by
  obtain ⟨linkType, target, sv, s₁, s₂, v, hlinkType, rfl, hensure, hlock, -, -, -, -, hs'⟩ :=
    createLink_told h
  obtain ⟨hsteady₁, hids, hlinks, hquiet⟩ := ensureOpenVersion_steady hensure
  obtain ⟨-, w, hw, rfl, hwnode, -⟩ := ensureOpenVersion_ok hensure
  have hsteady₂ : Steady s₁.toTables s₂.toTables := steady_tryLock hlock
  have hlinks₂ : s₂.links = s.links := by rw [tryLock_frame hlock, ← hlinks]
  have hversions₂ : s₂.versionIds = s₁.versionIds := by
    rw [tryLock_frame hlock]
    rfl
  have hquiet₂ : s₂.edgeIndex = s.edgeIndex := by
    rw [Tables.edgeIndex, tryLock_indexEvents hlock, hquiet, Tables.edgeIndex]
  have hsteady : Steady s.toTables s₂.toTables := hsteady₁.trans hsteady₂ hids
  -- the statements after the lock move no target either
  set l := newLink ctx linkId linkTypeId w.id (askedTarget linkType sourceCode type key) linkLogicalId
    with hl
  have hlast : Steady s₂.toTables s'.toTables := by
    have hrefresh := Steady.refresh env (s₂.takeId.insertLink l) nodeId v
    rw [hs']
    exact { hrefresh with }
  have hsteady' : Steady s.toTables s'.toTables := hsteady.trans hlast (hversions₂ ▸ hids)
  have hlinks' : s'.links = s.links ++ [l] := by
    rw [hs', ← hlinks₂]
    rfl
  have howner : s'.ownerNode w.id = some nodeId := by
    have hone : s₁.ownerNode w.id = some nodeId := by
      rw [Tables.ownerNode, Db.version?_of_mem hw]
      simp [hwnode]
    rw [(hsteady₂.trans hlast (hversions₂ ▸ List.Subset.refl _)).owner _ (List.mem_map_of_mem hw), hone]
  have hnew : s'.edgeOf env l = edgeFrom (some nodeId) (relName env linkTypeId)
      (s.selfTarget env (askedTarget linkType sourceCode type key)) := by
    rw [Tables.edgeOf, hsteady'.selfTarget]
    change edgeFrom (s'.ownerNode w.id) _ _ = _
    rw [howner]
    rfl
  refine hf.retold (fun e => by simp) (fun e => ?_) (fun e => ?_) (hr linkType hlinkType)
  · rw [← hnew]
    simp only [Tables.Links, hlinks', List.mem_append, List.mem_singleton]
    constructor
    · rintro ⟨m, hm | rfl, he⟩
      · rw [hsteady'.edgeOf (s.valid.fk_link_version m hm)] at he
        exact .inl ⟨m, hm, he⟩
      · exact .inr he
    · rintro (⟨m, hm, he⟩ | he)
      · exact ⟨m, .inl hm, by rw [hsteady'.edgeOf (s.valid.fk_link_version m hm), he]⟩
      · exact ⟨l, .inr rfl, he⟩
  · have hname : relName env linkTypeId = linkType.name := by simp [relName, hlinkType]
    rw [hs', edgeIndex_withEvents (by simp [PlmEvent.isIndexed]), mem_foldl_linkCreated, hname,
      hsteady.resolveDstNodeId, ← hquiet₂]
    simp only [ne_eq, reduceCtorEq, not_false_eq_true, and_true]
    exact Iff.rfl

theorem follows_deleteLink (hf : Follows env s.toTables)
    (h : Returns (deleteLink env ctx linkId) s () s')
    (hr : ∀ l ∈ s.links, l.id = linkId →
      Retold (s.OthersLink env linkId) (s.edgeOf env l) (s.toldEdge env l l.target) none none) :
    Follows env s'.toTables := by
  obtain ⟨link, source, s₁, hlink, rfl, hsource, hsid, hlock, hs'⟩ := deleteLink_told h
  have hsteady₁ : Steady s.toTables s₁.toTables := steady_tryLock hlock
  have hlast : Steady s₁.toTables s'.toTables := by
    have hrefresh := Steady.refresh env (s₁.deleteLink link.id) source.nodeId source
    rw [hs']
    exact { hrefresh with }
  have hsteady : Steady s.toTables s'.toTables := hsteady₁.trans hlast (by
    rw [tryLock_frame hlock]
    exact List.Subset.refl _)
  have hquiet : s₁.edgeIndex = s.edgeIndex := by
    rw [Tables.edgeIndex, tryLock_indexEvents hlock, Tables.edgeIndex]
  have hlinks : s'.links = s.links.filter (·.id ≠ link.id) := by
    rw [hs', tryLock_frame hlock]
    rfl
  have howner : s.ownerNode link.sourceNodeVersionId = some source.nodeId := by
    rw [← hsid, Tables.ownerNode, Db.version?_of_mem hsource]
    rfl
  refine hf.retold (links_iff_others hlink) (fun e => ?_) (fun e => ?_) (hr link hlink rfl)
  · simp only [Tables.Links, Tables.OthersLink, hlinks, List.mem_filter, decide_eq_true_eq,
      reduceCtorEq, or_false]
    constructor
    · rintro ⟨m, ⟨hm, hid⟩, he⟩
      exact ⟨m, hm, hid, by rw [← hsteady.edgeOf (s.valid.fk_link_version m hm), he]⟩
    · rintro ⟨m, hm, hid, he⟩
      exact ⟨m, ⟨hm, hid⟩, by rw [hsteady.edgeOf (s.valid.fk_link_version m hm), he]⟩
  · rw [hs', edgeIndex_withEvents (by simp [PlmEvent.isIndexed]), mem_foldl_linkDeleted,
      hsteady₁.resolveDstNodeId, ← hquiet, Tables.toldEdge, howner]
    simp only [reduceCtorEq, or_false]
    exact Iff.rfl

theorem follows_updateLink {u : LinkUpdate} (hf : Follows env s.toTables)
    (h : Returns (updateLink env ctx linkId u) s () s')
    (hr : u.targetChanged = true → ∀ l ∈ s.links, l.id = linkId →
      Retold (s.OthersLink env linkId) (s.edgeOf env l) (s.toldEdge env l l.target)
        (s.edgeOf env (l.pointingAt (u.newTarget l) l.linkLogicalId))
        (s.toldEdge env l (u.newTarget l))) :
    Follows env s'.toTables := by
  obtain ⟨link, source, s₁, target, logicalId, rows, v, es, hlink, rfl, hsource, hsid, hlock, hcases,
    -, -, -, hs'⟩ := updateLink_told h
  have hsteady₁ : Steady s.toTables s₁.toTables := steady_tryLock hlock
  have hlast : Steady s₁.toTables s'.toTables := by
    have hrefresh := Steady.refresh env (s₁.writeLink link.id target logicalId rows)
      source.nodeId v
    rw [hs']
    exact { hrefresh with }
  have hsteady : Steady s.toTables s'.toTables := hsteady₁.trans hlast (by
    rw [tryLock_frame hlock]
    exact List.Subset.refl _)
  have hquiet : s₁.edgeIndex = s.edgeIndex := by
    rw [Tables.edgeIndex, tryLock_indexEvents hlock, Tables.edgeIndex]
  have hlinks : s'.links = s.links.map fun l =>
      if l.id = link.id then l.pointingAt target logicalId else l := by
    rw [hs', tryLock_frame hlock]
    rfl
  have howner : s.ownerNode link.sourceNodeVersionId = some source.nodeId := by
    rw [← hsid, Tables.ownerNode, Db.version?_of_mem hsource]
    rfl
  -- the rewritten link stands for what its new target resolves to
  have hafter : ∀ e, s'.Links env e ↔ s.OthersLink env link.id e ∨
      s.edgeOf env (link.pointingAt target link.linkLogicalId) = some e := by
    intro e
    have hnew : s'.edgeOf env (link.pointingAt target logicalId) =
        s.edgeOf env (link.pointingAt target link.linkLogicalId) := by
      have hsource : (link.pointingAt target logicalId).sourceNodeVersionId ∈ s.versionIds :=
        s.valid.fk_link_version link hlink
      rw [hsteady.edgeOf hsource]
      rfl
    simp only [Tables.Links, Tables.OthersLink, hlinks, List.mem_map]
    constructor
    · rintro ⟨_, ⟨m, hm, rfl⟩, he⟩
      by_cases hid : m.id = link.id
      · rw [if_pos hid, List.inj_on_of_nodup_map s.valid.pk_link hm hlink hid, hnew] at he
        exact .inr he
      · rw [if_neg hid, hsteady.edgeOf (s.valid.fk_link_version m hm)] at he
        exact .inl ⟨m, hm, hid, he⟩
    · rintro (⟨m, hm, hid, he⟩ | he)
      · refine ⟨_, ⟨m, hm, rfl⟩, ?_⟩
        rw [if_neg hid, hsteady.edgeOf (s.valid.fk_link_version m hm), he]
      · refine ⟨_, ⟨link, hlink, rfl⟩, ?_⟩
        rw [if_pos rfl, hnew, he]
  obtain ⟨-, rfl, rfl⟩ | ⟨hchanged, rfl, -, rfl⟩ := hcases
  · -- the target is the stored one and nothing is told
    intro e
    have hsame : s'.edgeIndex = s.edgeIndex := by
      rw [hs', edgeIndex_withEvents (by simp), ← hquiet]
      rfl
    rw [hsame, hf, hafter, links_iff_others hlink]
    exact Iff.rfl
  · refine hf.retold (links_iff_others hlink) hafter (fun e => ?_) (hr hchanged link hlink rfl)
    rw [hs', edgeIndex_withEvents, retargetEvents, List.foldl_append, mem_foldl_linkCreated,
      mem_foldl_linkDeleted, hsteady₁.resolveDstNodeId, hsteady₁.resolveDstNodeId, ← hquiet,
      Tables.toldEdge, Tables.toldEdge, howner]
    · exact Iff.rfl
    · simp only [retargetEvents, List.mem_append, List.mem_map]
      rintro e (⟨d, -, rfl⟩ | ⟨d, -, rfl⟩) <;> rfl

end LinkSteps

/-! ## The ends of transactions -/

section Ends

variable {env : Env} {s s' : Db}

@[simp] theorem deferTo_id (x y : Uuid) (deferred : List Uuid) (v : VersionRow) :
    (v.deferTo x y deferred).id = v.id := by
  unfold VersionRow.deferTo
  split <;> rfl

@[simp] theorem deferTo_nodeId (x y : Uuid) (deferred : List Uuid) (v : VersionRow) :
    (v.deferTo x y deferred).nodeId = v.nodeId := by
  unfold VersionRow.deferTo
  split <;> rfl

@[simp] theorem deferTo_versionNumber (x y : Uuid) (deferred : List Uuid) (v : VersionRow) :
    (v.deferTo x y deferred).versionNumber = v.versionNumber := by
  unfold VersionRow.deferTo
  split <;> rfl

/-- A commit commits the numbers it settles. -/
theorem Commits.hasCommitted {x y : Uuid} {deferred : List Uuid} {t t' : Tables}
    (h : Commits x y deferred t t') (nodeId : Uuid) (k : Int) :
    t'.hasCommitted nodeId k = t.hasSettled x deferred nodeId k := by
  rw [Bool.eq_iff_iff, hasCommitted_iff, h.versions]
  simp only [List.mem_map, exists_exists_and_eq_and, deferTo_nodeId, deferTo_versionNumber,
    Tables.hasSettled, Tables.hasCommitted, Bool.or_eq_true, List.any_eq_true, decide_eq_true_eq]
  constructor
  · rintro ⟨v, hv, hnode, hnumber, hcommitted⟩
    rw [h.committed v hv, Bool.or_eq_true] at hcommitted
    obtain hcommitted | hsettled := hcommitted
    · exact .inl ⟨v, hv, hnode, hnumber, hcommitted⟩
    · exact .inr ⟨v, hv, hnode, hnumber, hsettled⟩
  · rintro (⟨v, hv, hnode, hnumber, hcommitted⟩ | ⟨v, hv, hnode, hnumber, hsettled⟩)
    · exact ⟨v, hv, hnode, hnumber, by rw [h.committed v hv, hcommitted, Bool.true_or]⟩
    · exact ⟨v, hv, hnode, hnumber, by rw [h.committed v hv, hsettled, Bool.or_true]⟩

theorem Commits.ownerNode {x y : Uuid} {deferred : List Uuid} {t t' : Tables}
    (h : Commits x y deferred t t') (vid : Uuid) : t'.ownerNode vid = t.ownerNode vid := by
  simp only [Tables.ownerNode, Tables.version?, h.versions, List.find?_map, Option.map_map,
    Function.comp_def, deferTo_id, deferTo_nodeId]

/-- What resolves goes on to resolve when more numbers are committed. -/
theorem resolveSelf_mono {nodes : List NodeRow} {committed committed' : Uuid → Int → Bool}
    {target : LinkTarget} {d : Uuid} (hmono : ∀ n k, committed n k = true → committed' n k = true)
    (h : resolveSelf env nodes committed target = some d) :
    resolveSelf env nodes committed' target = some d := by
  unfold resolveSelf at h ⊢
  split at h
  · rename_i hself
    rw [if_pos hself]
    simp only [Option.bind_eq_some_iff, Option.filter_eq_some_iff, Option.all_eq_true] at h ⊢
    obtain ⟨p, hp, hnode, hpinned⟩ := h
    exact ⟨p, hp, hnode, fun k hk => hmono _ _ (hpinned k hk)⟩
  · cases h

theorem follows_commit {ctx : Caller} {x : Uuid} {comment : Option String} {selected : List Uuid}
    {o : Option Uuid} (hf : Follows env s.toTables)
    (h : Returns (commitTransaction env ctx x comment selected) s o s')
    (hr : ∀ l ∈ s.links, ∀ e,
      edgeFrom (s.ownerNode l.sourceNodeVersionId) (relName env l.linkTypeId)
        (resolveSelf env s.nodes (s.hasSettled x (deferredNodeIds (s.affectedNodes x) selected))
          l.target) = some e → s.Links env e) : Follows env s'.toTables := by
  obtain ⟨⟨y, hcommits⟩, -, hquiet⟩ := commitTransaction_commits h
  have hedge : ∀ l, s'.edgeOf env l =
      edgeFrom (s.ownerNode l.sourceNodeVersionId) (relName env l.linkTypeId)
        (resolveSelf env s.nodes (s.hasSettled x (deferredNodeIds (s.affectedNodes x) selected))
          l.target) := by
    intro l
    rw [Tables.edgeOf, hcommits.ownerNode, Tables.selfTarget,
      resolveSelf_congr l.target hcommits.nodes hcommits.hasCommitted]
  intro e
  rw [Tables.edgeIndex, hquiet]
  refine (hf e).trans ⟨?_, ?_⟩
  · rintro ⟨l, hl, he⟩
    refine ⟨l, hcommits.links ▸ hl, ?_⟩
    obtain ⟨hsrc, hrel, hdst⟩ := edgeFrom_eq_some.mp he
    rw [hedge]
    exact edgeFrom_eq_some.mpr ⟨hsrc, hrel, resolveSelf_mono (fun n k hk => by
      rw [Tables.hasSettled, hk, Bool.true_or]) hdst⟩
  · rintro ⟨l, hl, he⟩
    exact hr l (hcommits.links ▸ hl) e (hedge l ▸ he)

/-- A node that stays is found among the nodes that stay. -/
theorem selfNode_withoutNodes {nodes : List NodeRow} {gone : List Uuid} {type logicalId : String}
    {n : NodeRow} (h : selfNode env nodes type logicalId = some n) (hn : n.id ∉ gone) :
    selfNode env (nodes.filter (·.id ∉ gone)) type logicalId = some n := by
  have hexact : exactNodes (nodes.filter (·.id ∉ gone)) type logicalId =
      (exactNodes nodes type logicalId).filter (·.id ∉ gone) := List.filter_comm ..
  have hall : (nodes.filter (·.id ∉ gone)).filter (·.logicalId = some logicalId) =
      (nodes.filter (·.logicalId = some logicalId)).filter (·.id ∉ gone) := List.filter_comm ..
  have hkeep : [n].filter (·.id ∉ gone) = [n] := by simp [hn]
  unfold selfNode at h ⊢
  rw [hexact, hall]
  split at h
  · rename_i hnone
    obtain ⟨hsingle, htype⟩ := Option.filter_eq_some_iff.mp h
    rw [hnone, single_eq_some.mp hsingle, hkeep]
    simpa [single] using htype
  · rw [single_eq_some.mp h, hkeep]
    simp [single]

theorem selfTarget_withoutNodes {t : Tables} {gone : List Uuid} {target : LinkTarget} {d : Uuid}
    (h : t.selfTarget env target = some d) (hd : d ∉ gone) :
    (t.withoutNodes gone).selfTarget env target = some d := by
  unfold Tables.selfTarget resolveSelf at h ⊢
  split at h
  · rename_i hself
    rw [if_pos hself]
    simp only [Option.bind_eq_some_iff, Option.filter_eq_some_iff, Option.map_eq_some_iff] at h ⊢
    obtain ⟨p, hp, ⟨n, hn, rfl⟩, hpinned⟩ := h
    exact ⟨p, hp, ⟨n, selfNode_withoutNodes hn hd, rfl⟩, hpinned⟩
  · cases h

theorem not_mem_gone_of_selfTarget {t : Tables} {gone : List Uuid} {target : LinkTarget} {d : Uuid}
    (h : (t.withoutNodes gone).selfTarget env target = some d) : d ∉ gone := by
  unfold Tables.selfTarget resolveSelf at h
  split at h
  · simp only [Option.bind_eq_some_iff, Option.filter_eq_some_iff, Option.map_eq_some_iff] at h
    obtain ⟨p, -, ⟨n, hn, rfl⟩, -⟩ := h
    exact of_decide_eq_true (List.mem_filter.mp (selfNode_mem hn).1).2
  · cases h

section Discarding

variable {p : VersionSelection} {gone : List Uuid}

/-- No version that goes was committed. -/
theorem Discards.hasCommitted (h : Discards p gone s.toTables s'.toTables) (nodeId : Uuid) (k : Int) :
    s'.hasCommitted nodeId k = s.hasCommitted nodeId k := by
  rw [Bool.eq_iff_iff, hasCommitted_iff, hasCommitted_iff]
  constructor
  · rintro ⟨v, hv, hnode, hnumber, hcommitted⟩
    rw [h.committed v hv] at hcommitted
    rw [h.versions] at hv
    exact ⟨v, List.mem_of_mem_filter hv, hnode, hnumber, hcommitted⟩
  · rintro ⟨v, hv, hnode, hnumber, hcommitted⟩
    have hv' : v ∈ s'.versions := by
      rw [h.versions]
      refine List.mem_filter.mpr ⟨hv, ?_⟩
      cases hp : p v with
      | false => simp
      | true =>
        rw [h.wereOpen v hv hp] at hcommitted
        cases hcommitted
    exact ⟨v, hv', hnode, hnumber, by rw [h.committed v hv', hcommitted]⟩

/-- The version of a link that stays, before and after. -/
theorem Discards.owner (h : Discards p gone s.toTables s'.toTables) {vid : Uuid}
    (hvid : vid ∈ s.versionIds) (hstays : vid ∉ s.selectVersionIds p) :
    ∃ v ∈ s.versions, v.id = vid ∧ s.ownerNode vid = some v.nodeId ∧
      s'.ownerNode vid = some v.nodeId ∧ v.nodeId ∉ gone := by
  obtain ⟨v, hv, rfl⟩ := List.mem_map.mp hvid
  have hpv : p v = false := by
    by_contra hpv
    exact hstays (mem_selectVersionIds.mpr ⟨v, hv, by simpa using hpv, rfl⟩)
  have hv' : v ∈ s'.versions := by
    rw [h.versions]
    exact List.mem_filter.mpr ⟨hv, by simp [hpv]⟩
  refine ⟨v, hv, rfl, ?_, ?_, fun hgone => ?_⟩
  · rw [Tables.ownerNode, Db.version?_of_mem hv]
    rfl
  · rw [Tables.ownerNode, Db.version?_of_mem hv']
    rfl
  · rw [h.whole v.nodeId hgone v hv rfl] at hpv
    cases hpv

/-- The edge of a link that stays is what its target resolves to without the nodes that go. -/
theorem Discards.edgeOf (h : Discards p gone s.toTables s'.toTables) {l : LinkRow} (hl : l ∈ s.links)
    (hstays : l.sourceNodeVersionId ∉ s.selectVersionIds p) :
    s'.edgeOf env l = (s.withoutNodes gone).edgeOf env l := by
  obtain ⟨v, -, -, howner, howner', -⟩ := h.owner (s.valid.fk_link_version l hl) hstays
  have hsame : (s.withoutNodes gone).ownerNode l.sourceNodeVersionId = some v.nodeId := howner
  rw [Tables.edgeOf, Tables.edgeOf, howner', hsame, Tables.selfTarget, Tables.selfTarget,
    resolveSelf_congr l.target h.nodes h.hasCommitted]
  rfl

/-- **Discarding keeps the index right when the edges are undone with their links.** -/
theorem follows_discard {byUser : String} (hf : Follows env s.toTables)
    (h : Discards p gone s.toTables s'.toTables)
    (hevents : s'.indexEvents = s.indexEvents ++ deletionEvents byUser gone)
    (hr : s.Undone env p gone) : Follows env s'.toTables := by
  intro e
  have hmem : ∀ l, l ∈ s'.links ↔ l ∈ s.links ∧ l.sourceNodeVersionId ∉ s.selectVersionIds p := by
    intro l
    rw [h.links]
    simp
  rw [edgeIndex_of_indexEvents hevents, mem_foldl_deletionEvents, hf]
  constructor
  · rintro ⟨⟨l, hl, he⟩, hsrc, hdst⟩
    by_cases hgoes : l.sourceNodeVersionId ∈ s.selectVersionIds p
    · obtain hgone | hgone | ⟨m, hm, hstays, hedge⟩ := hr.covered l hl hgoes e he
      · exact absurd hgone hsrc
      · exact absurd hgone hdst
      · exact ⟨m, (hmem m).mpr ⟨hm, hstays⟩, by rw [h.edgeOf hm hstays, hedge]⟩
    · refine ⟨l, (hmem l).mpr ⟨hl, hgoes⟩, ?_⟩
      obtain ⟨howner, hrel, htarget⟩ := edgeFrom_eq_some.mp he
      rw [h.edgeOf hl hgoes]
      exact edgeFrom_eq_some.mpr ⟨howner, hrel, selfTarget_withoutNodes htarget hdst⟩
  · rintro ⟨l, hl, he⟩
    obtain ⟨hl, hstays⟩ := (hmem l).mp hl
    rw [h.edgeOf hl hstays] at he
    refine ⟨hr.unmoved l hl hstays e he, ?_, ?_⟩
    · obtain ⟨v, -, -, howner, -, hnode⟩ := h.owner (s.valid.fk_link_version l hl) hstays
      obtain ⟨hsrc, -, -⟩ := edgeFrom_eq_some.mp he
      have hsame : s.ownerNode l.sourceNodeVersionId = some e.srcId := hsrc
      rw [howner] at hsame
      rwa [← Option.some.inj hsame]
    · obtain ⟨-, -, htarget⟩ := edgeFrom_eq_some.mp he
      exact not_mem_gone_of_selfTarget htarget

end Discarding

end Ends

/-! ## Runs -/

/-- **One request that is carried out.** The index goes on following the link table. -/
theorem follows_method {env : Env} {s s' : Db} {r : LinkRequest} (hf : Follows env s.toTables)
    (h : Returns (r.method env) s () s') (hr : (LinkStore.mk env s).Orderly r) :
    Follows ((LinkStore.mk env s).step r).env s'.toTables := by
  cases r with
  | createLink ctx linkTypeId nodeId sourceCode type key txId linkLogicalId =>
    obtain ⟨linkId, h⟩ := returns_void.mp h
    exact follows_createLink hf h hr
  | updateLink ctx linkId u => exact follows_updateLink hf h hr
  | deleteLink ctx linkId => exact follows_deleteLink hf h hr
  | commit ctx txId comment selected =>
    obtain ⟨o, h⟩ := returns_void.mp h
    exact follows_commit hf h hr
  | rollback ctx txId =>
    obtain ⟨hdiscards, hevents⟩ := rollbackTransaction_discards h
    exact follows_discard hf hdiscards hevents hr
  | release ctx txId nodeIds =>
    obtain ⟨hdiscards, hevents⟩ := releaseNodes_discards h
    exact follows_discard hf hdiscards hevents hr
  | cleanStale now =>
    obtain ⟨hdiscards, hevents⟩ := cleanStaleTransactions_discards h
    -- no node goes, so nothing is told
    have hnone : s'.indexEvents = s.indexEvents ++ deletionEvents "" [] := by
      rw [hevents]
      exact (List.append_nil _).symm
    exact follows_discard hf hdiscards hnone hr
  | configured env' =>
    obtain ⟨-, rfl⟩ := returns_pure.mp h
    exact fun e => (hf e).trans (hr e).symm

/-- **One request.** -/
theorem follows_step (st : LinkStore) (r : LinkRequest) (hf : Follows st.env st.db.toTables)
    (hr : st.Fits r) : Follows (st.step r).env (st.step r).db.toTables := by
  obtain ⟨env, s⟩ := st
  obtain h | ⟨hs', hfails⟩ := atomically_cases (r.method env) s
  · exact follows_method hf h (hr ⟨_, h⟩)
  · have hdb : ((LinkStore.mk env s).step r).db = s := hs'
    rw [hdb]
    cases r with
    | configured env' => exact absurd (returns_pure.mpr ⟨rfl, rfl⟩) (hfails s)
    | _ => exact hf

/-- **The edge index follows the link table** in every state of a run whose requests are each
refused or orderly. -/
theorem edge_index_follows_links {start : LinkStore} {rs : List LinkRequest}
    (hf : Follows start.env start.db.toTables) (h : Along LinkStore.step LinkStore.Fits start rs)
    (past : List LinkRequest) (hpast : past <+: rs) :
    Follows (run LinkStore.step start past).env (run LinkStore.step start past).db.toTables := by
  obtain ⟨rest, rfl⟩ := hpast
  exact Along.invariant follows_step hf (Along.append.mp h).1

/-! ## Two parts -/

/-- Two parts with their committed versions, and an open transaction. -/
def twoPartTables : Tables where
  txs := [⟨0, "engineer", .COMMITTED, some "created", 0, some 0⟩,
    ⟨1, "engineer", .OPEN, none, 0, none⟩]
  nodes := [⟨0, "nt-part", none, some "A", none, none, none, 0, "engineer"⟩,
    ⟨1, "nt-part", none, some "B", none, none, none, 0, "engineer"⟩]
  versions := [⟨0, 0, 1, "A", 1, some "draft", .CONTENT, none, 0, none, none, none, "main", 0,
      "engineer"⟩,
    ⟨1, 1, 1, "A", 1, some "draft", .CONTENT, none, 0, none, none, none, "main", 0, "engineer"⟩]
  attributes := []
  links := []
  linkAttributes := []
  domains := []
  signatures := []
  baselines := []
  baselineEntries := []
  comments := []
  outbox := []
  nextId := 2

/-- The two parts as a store. -/
def twoPartDb : Db := ⟨twoPartTables, by decide⟩

/-- A link from the one part to the other. -/
def partLink (linkLogicalId : String) : LinkRequest :=
  .createLink engineer "lt-composed-of" 0 none none (some "B") 1 (some linkLogicalId)

/-- A link that is created and deleted is told of both times. -/
theorem edge_index_follows_one_link :
    Follows (run LinkStore.step ⟨partsEnv, twoPartDb⟩ [partLink "b", .deleteLink engineer 3]).env
      (run LinkStore.step ⟨partsEnv, twoPartDb⟩
        [partLink "b", .deleteLink engineer 3]).db.toTables := by
  have hfits : Along LinkStore.step LinkStore.Fits ⟨partsEnv, twoPartDb⟩
      [partLink "b", .deleteLink engineer 3] := by
    refine ⟨?_, ?_, trivial⟩
    · rintro - linkType hlinkType
      have htold : twoPartDb.selfTarget partsEnv ⟨"SELF", "nt-part", "B"⟩ =
          twoPartDb.resolveDstNodeId ⟨"SELF", "nt-part", "B"⟩ := by decide +kernel
      have htarget : askedTarget linkType none none (some "B") = ⟨"SELF", "nt-part", "B"⟩ := by
        rw [← Option.some.inj hlinkType]
        decide +kernel
      rw [htarget, htold]
      exact Retold.begins _
    · rintro - l hl -
      have honly : ∀ l ∈ (LinkStore.step ⟨partsEnv, twoPartDb⟩ (partLink "b")).db.links,
          l.id = 3 ∧ (LinkStore.step ⟨partsEnv, twoPartDb⟩ (partLink "b")).db.edgeOf partsEnv l =
            (LinkStore.step ⟨partsEnv, twoPartDb⟩ (partLink "b")).db.toldEdge partsEnv l l.target := by
        decide +kernel
      refine Retold.ends (honly l hl).2 ?_
      rintro e ⟨m, hm, hne, -⟩
      exact hne (honly m hm).1
  refine edge_index_follows_links (fun e => ?_) hfits _ (List.prefix_refl _)
  simp [Tables.edgeIndex, Tables.indexEvents, Tables.Links, twoPartDb, twoPartTables]

instance (env : Env) (t : Tables) (e : Edge) : Decidable (t.Links env e) :=
  inferInstanceAs (Decidable (∃ l ∈ t.links, t.edgeOf env l = some e))

/-- **The events forget an edge.** Of two links between the same parts one is deleted, and the edge
of the other leaves the index. -/
theorem one_of_two_links_deleted :
    Follows partsEnv twoPartDb.toTables ∧
      ¬ Follows (run LinkStore.step ⟨partsEnv, twoPartDb⟩
          [partLink "b", partLink "c", .deleteLink engineer 3]).env
        (run LinkStore.step ⟨partsEnv, twoPartDb⟩
          [partLink "b", partLink "c", .deleteLink engineer 3]).db.toTables := by
  constructor
  · intro e
    simp [Tables.edgeIndex, Tables.indexEvents, Tables.Links, twoPartDb, twoPartTables]
  · intro h
    have hlost : (⟨0, "composed_of", 1⟩ : Edge) ∉ (run LinkStore.step ⟨partsEnv, twoPartDb⟩
          [partLink "b", partLink "c", .deleteLink engineer 3]).db.edgeIndex ∧
        (run LinkStore.step ⟨partsEnv, twoPartDb⟩
          [partLink "b", partLink "c", .deleteLink engineer 3]).db.Links partsEnv
            ⟨0, "composed_of", 1⟩ := by
      decide +kernel
    exact hlost.1 ((h _).mpr hlost.2)

end PlmCore.Psm
