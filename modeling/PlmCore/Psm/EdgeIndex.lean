/-
The edge index of the search service (`LuceneEdgeStore`), and the links it stands for.

The index holds one document per source node, relation and target node. LINK_CREATED writes the
document, LINK_DELETED removes it, and ITEM_DELETED removes those of the node. A link of the store
stands for such an edge when the resolver of the source SELF finds its target.
-/
import PlmCore.Psm.Discard
import PlmCore.Psm.Link

set_option autoImplicit false

namespace PlmCore.Psm

open PlmCore.Lib

/-! ## The index -/

/-- An edge document, by the three parts of its `_edge_id`. -/
structure Edge where
  srcId : Uuid
  relType : String
  dstId : Uuid
  deriving DecidableEq

/-- The edges after an event: `upsert`, `delete` and `deleteForNode`. -/
def applyEdgeEvent (edges : List Edge) : PlmEvent → List Edge
  | .linkCreated srcId dstId relType _ =>
    ⟨srcId, relType, dstId⟩ :: edges.filter (· ≠ ⟨srcId, relType, dstId⟩)
  | .linkDeleted srcId dstId relType => edges.filter (· ≠ ⟨srcId, relType, dstId⟩)
  | .itemDeleted nodeId _ => edges.filter fun e => e.srcId ≠ nodeId ∧ e.dstId ≠ nodeId
  | _ => edges

/-- The index when all events have been applied in order. -/
def Tables.edgeIndex (t : Tables) : List Edge := t.indexEvents.foldl applyEdgeEvent []

/-! ## The links as edges -/

/-- The only row of a result, as `fetchOne` gives it. -/
def single {α : Type} : List α → Option α
  | [r] => some r
  | _ => none

/-- The nodes of a logical id that are of exactly the type. -/
def exactNodes (nodes : List NodeRow) (type logicalId : String) : List NodeRow :=
  nodes.filter fun n => n.logicalId = some logicalId ∧ n.nodeTypeId = type

/-- The node `SelfNodeResolver.resolve` finds for a logical id: the one of the type, or else the
one of a type below it. -/
def selfNode (env : Env) (nodes : List NodeRow) (type logicalId : String) : Option NodeRow :=
  if exactNodes nodes type logicalId = [] then
    (single (nodes.filter (·.logicalId = some logicalId))).filter
      fun n => env.isTypeOrDescendant n.nodeTypeId type
  else single (exactNodes nodes type logicalId)

/-- A version of the number is committed. -/
def Tables.hasCommitted (t : Tables) (nodeId : Uuid) (versionNumber : Int) : Bool :=
  t.versions.any fun v =>
    v.nodeId = nodeId ∧ (v.versionNumber : Int) = versionNumber ∧ t.isCommitted v.txId

/-- The node a SELF target resolves to, by the nodes and the numbers of their committed
versions. -/
def resolveSelf (env : Env) (nodes : List NodeRow) (committed : Uuid → Int → Bool)
    (target : LinkTarget) : Option Uuid :=
  if target.sourceCode = "SELF" then
    (parseKey target.key).toOption.bind fun p =>
      ((selfNode env nodes target.type p.logicalId).map (·.id)).filter fun nodeId =>
        p.versionNumber.all (committed nodeId)
  else none

/-- The node a SELF target resolves to. -/
def Tables.selfTarget (env : Env) (t : Tables) (target : LinkTarget) : Option Uuid :=
  resolveSelf env t.nodes t.hasCommitted target

/-- The node of a version. -/
def Tables.ownerNode (t : Tables) (versionId : Uuid) : Option Uuid :=
  (t.version? versionId).map (·.nodeId)

/-- The edge from a node to another, when both are there. -/
def edgeFrom (srcId : Option Uuid) (rel : String) (dstId : Option Uuid) : Option Edge :=
  srcId.bind fun srcId => dstId.map fun dstId => ⟨srcId, rel, dstId⟩

/-- The edge a link stands for. -/
def Tables.edgeOf (env : Env) (t : Tables) (l : LinkRow) : Option Edge :=
  edgeFrom (t.ownerNode l.sourceNodeVersionId) (relName env l.linkTypeId) (t.selfTarget env l.target)

/-- Some link stands for the edge. -/
def Tables.Links (env : Env) (t : Tables) (e : Edge) : Prop := ∃ l ∈ t.links, t.edgeOf env l = some e

/-- The index holds an edge exactly when the link table has a link for it. -/
def Follows (env : Env) (t : Tables) : Prop := ∀ e, e ∈ t.edgeIndex ↔ t.Links env e

theorem edgeFrom_eq_some {srcId dstId : Option Uuid} {rel : String} {e : Edge} :
    edgeFrom srcId rel dstId = some e ↔
      srcId = some e.srcId ∧ e.relType = rel ∧ dstId = some e.dstId := by
  simp only [edgeFrom, Option.bind_eq_some_iff, Option.map_eq_some_iff]
  constructor
  · rintro ⟨src, hsrc, dst, hdst, rfl⟩
    exact ⟨hsrc, rfl, hdst⟩
  · rintro ⟨hsrc, rfl, hdst⟩
    exact ⟨e.srcId, hsrc, e.dstId, hdst, rfl⟩

theorem single_eq_some {α : Type} {rows : List α} {r : α} : single rows = some r ↔ rows = [r] := by
  unfold single
  split
  · simp
  · rename_i hne
    constructor
    · intro h
      cases h
    · intro h
      exact absurd h (hne r)

/-- The resolver finds a node of the list that has the logical id. -/
theorem selfNode_mem {env : Env} {nodes : List NodeRow} {type logicalId : String} {n : NodeRow}
    (h : selfNode env nodes type logicalId = some n) : n ∈ nodes ∧ n.logicalId = some logicalId := by
  have hmem : n ∈ [n] := List.mem_singleton_self n
  unfold selfNode at h
  split at h
  · obtain ⟨hsingle, -⟩ := Option.filter_eq_some_iff.mp h
    rw [← single_eq_some.mp hsingle, List.mem_filter, decide_eq_true_eq] at hmem
    exact hmem
  · rw [← single_eq_some.mp h, exactNodes, List.mem_filter, decide_eq_true_eq] at hmem
    exact ⟨hmem.1, hmem.2.1⟩

theorem returns_resolveDescendant {env : Env} {type logicalId : String} {n : NodeRow} {s s' : Db} :
    Returns (resolveDescendant env type logicalId) s n s' ↔
      s' = s ∧ (single (s.nodes.filter (·.logicalId = some logicalId))).filter
        (fun n => env.isTypeOrDescendant n.nodeTypeId type) = some n := by
  simp only [resolveDescendant, returns_bind, returns_fetchOne, returns_orElseThrow,
    returns_require, returns_pure, and_assoc, exists_and_left, exists_eq_left, exists_const,
    Option.filter_eq_some_iff, single_eq_some]
  constructor
  · rintro ⟨_, hrow, m, rfl, htype, rfl, rfl⟩
    exact ⟨rfl, hrow, htype⟩
  · rintro ⟨rfl, hrow, htype⟩
    exact ⟨some n, hrow, n, rfl, htype, rfl, rfl⟩

theorem returns_resolveNode {env : Env} {type logicalId : String} {n : NodeRow} {s s' : Db} :
    Returns (resolveNode env type logicalId) s n s' ↔
      s' = s ∧ selfNode env s.nodes type logicalId = some n := by
  simp only [resolveNode, returns_bind, returns_fetchOne, and_assoc, exists_eq_left]
  constructor
  · rintro ⟨o, hexact, h⟩
    have hexact : exactNodes s.nodes type logicalId = o.toList := hexact
    cases o with
    | some m =>
      obtain ⟨rfl, rfl⟩ := returns_pure.mp h
      exact ⟨rfl, by simp [selfNode, hexact, single]⟩
    | none =>
      obtain ⟨rfl, hrow⟩ := returns_resolveDescendant.mp h
      rw [selfNode, if_pos (show exactNodes s'.nodes type logicalId = [] from hexact)]
      exact ⟨rfl, hrow⟩
  · rintro ⟨rfl, h⟩
    unfold selfNode at h
    split at h
    · rename_i hexact
      exact ⟨none, hexact, returns_resolveDescendant.mpr ⟨rfl, h⟩⟩
    · exact ⟨some n, single_eq_some.mp h, returns_pure.mpr ⟨rfl, rfl⟩⟩

theorem hasCommitted_iff {t : Tables} {nodeId : Uuid} {k : Int} :
    t.hasCommitted nodeId k = true ↔ ∃ v ∈ t.versions, v.nodeId = nodeId ∧
      (v.versionNumber : Int) = k ∧ t.isCommitted v.txId = true := by
  simp [Tables.hasCommitted]

theorem resolveVersion_ok {node : NodeRow} {logicalId : String} {k : Int} {r : ResolvedTarget}
    {s s' : Db} (h : Returns (resolveVersion node logicalId k) s r s') :
    r.node = node ∧ s.hasCommitted node.id k = true := by
  simp only [resolveVersion, returns_bind, returns_fetchOne, returns_orElseThrow, returns_pure,
    and_assoc, exists_and_left, exists_eq_left] at h
  obtain ⟨_, hrows, v, rfl, rfl, rfl⟩ := h
  have hv : v ∈ (some v).toList := List.mem_singleton_self v
  rw [← hrows] at hv
  obtain ⟨hv, hp⟩ := List.mem_filter.mp hv
  exact ⟨rfl, hasCommitted_iff.mpr ⟨v, hv, by simpa using hp⟩⟩

/-- A number names at most one version of a node, so the number of a committed version resolves to
that version. -/
theorem returns_resolveVersion {node : NodeRow} {v : VersionRow} {s : Db} (logicalId : String)
    (hv : v ∈ s.versions) (hnode : v.nodeId = node.id) (hcommitted : s.isCommitted v.txId = true) :
    Returns (resolveVersion node logicalId v.versionNumber) s
      ⟨logicalId ++ "@" ++ toString v.versionNumber, node.nodeTypeId,
        some (logicalId ++ "@" ++ toString v.versionNumber), node, some v⟩ s := by
  have honly : (s.versions.filter fun w => w.nodeId = node.id ∧
      (w.versionNumber : Int) = v.versionNumber ∧ s.isCommitted w.txId) = [v] := by
    refine filter_eq_singleton (List.Nodup.of_map _ s.valid.pk_version) hv ?_ fun w hw hsame => ?_
    · exact decide_eq_true ⟨hnode, rfl, hcommitted⟩
    · obtain ⟨hwnode, hwnumber, -⟩ := of_decide_eq_true hsame
      refine List.inj_on_of_nodup_map s.valid.uq_node_version hw hv ?_
      rw [Prod.mk.injEq, hwnode, hnode]
      exact ⟨rfl, by omega⟩
  simp only [resolveVersion, returns_bind, returns_fetchOne, returns_orElseThrow, returns_pure,
    and_assoc, exists_and_left, exists_eq_left]
  exact ⟨some v, honly, v, rfl, rfl, trivial⟩

/-- A pinned key resolves when its version is committed. -/
theorem resolveVersion_succeeds {node : NodeRow} {k : Int} {s : Db} (logicalId : String)
    (h : s.hasCommitted node.id k = true) : ∃ r, Returns (resolveVersion node logicalId k) s r s := by
  obtain ⟨v, hv, hnode, rfl, hcommitted⟩ := hasCommitted_iff.mp h
  exact ⟨_, returns_resolveVersion logicalId hv hnode hcommitted⟩

/-- **The target of a link is the node `SelfNodeResolver.resolve` finds.** -/
theorem selfTarget_iff {env : Env} {s : Db} {type key : String} {nodeId : Uuid} :
    s.selfTarget env ⟨"SELF", type, key⟩ = some nodeId ↔
      ∃ r, Returns (selfResolve env type key) s r s ∧ r.node.id = nodeId := by
  simp only [Tables.selfTarget, resolveSelf, if_true, selfResolve, returns_bind, returns_ofResult,
    returns_resolveNode, and_assoc, exists_and_left, exists_eq_left]
  cases hparse : parseKey key with
  | error e => simp [Except.toOption]
  | ok p =>
    simp only [Except.toOption, Option.bind_some, Option.filter_eq_some_iff, Option.map_eq_some_iff,
      Except.ok.injEq, exists_eq_left']
    cases hv : p.versionNumber with
    | none =>
      constructor
      · rintro ⟨⟨n, hn, rfl⟩, -⟩
        exact ⟨_, ⟨n, hn, returns_pure.mpr ⟨rfl, rfl⟩⟩, rfl⟩
      · rintro ⟨r, ⟨n, hn, h⟩, rfl⟩
        obtain ⟨rfl, -⟩ := returns_pure.mp h
        exact ⟨⟨n, hn, rfl⟩, rfl⟩
    | some k =>
      constructor
      · rintro ⟨⟨n, hn, rfl⟩, hk⟩
        obtain ⟨r, hr⟩ := resolveVersion_succeeds p.logicalId hk
        exact ⟨r, ⟨n, hn, hr⟩, by rw [(resolveVersion_ok hr).1]⟩
      · rintro ⟨r, ⟨n, hn, h⟩, rfl⟩
        obtain ⟨hnode, hk⟩ := resolveVersion_ok h
        rw [hnode]
        exact ⟨⟨n, hn, rfl⟩, hk⟩

/-! ## What the resolution depends on -/

/-- The steps that move no link target: they touch no node but its lock, commit no version, and keep
the node of every version. -/
structure Steady (t t' : Tables) : Prop where
  nodes : t'.nodes.map NodeRow.unlocked = t.nodes.map NodeRow.unlocked
  committed : ∀ nodeId k, t'.hasCommitted nodeId k = t.hasCommitted nodeId k
  owner : ∀ vid ∈ t.versionIds, t'.ownerNode vid = t.ownerNode vid

theorem single_map {α β : Type} (f : α → β) (rows : List α) :
    single (rows.map f) = (single rows).map f := by
  cases rows with
  | nil => rfl
  | cons r rows => cases rows <;> rfl

/-- Locks take no part in the resolution. -/
theorem selfNode_unlocked (env : Env) (nodes : List NodeRow) (type logicalId : String) :
    selfNode env (nodes.map NodeRow.unlocked) type logicalId =
      (selfNode env nodes type logicalId).map NodeRow.unlocked := by
  have hexact : exactNodes (nodes.map NodeRow.unlocked) type logicalId =
      (exactNodes nodes type logicalId).map NodeRow.unlocked := List.filter_map
  have hall : (nodes.map NodeRow.unlocked).filter (·.logicalId = some logicalId) =
      (nodes.filter (·.logicalId = some logicalId)).map NodeRow.unlocked := List.filter_map
  simp only [selfNode, hexact, hall, single_map, List.map_eq_nil_iff]
  split
  · exact Option.filter_map ..
  · rfl

theorem selfNode_id_congr {env : Env} {nodes nodes' : List NodeRow} (type logicalId : String)
    (h : nodes'.map NodeRow.unlocked = nodes.map NodeRow.unlocked) :
    (selfNode env nodes' type logicalId).map (·.id) = (selfNode env nodes type logicalId).map (·.id) := by
  have hid : ∀ ns : List NodeRow, (selfNode env ns type logicalId).map (·.id) =
      (selfNode env (ns.map NodeRow.unlocked) type logicalId).map (·.id) := by
    intro ns
    rw [selfNode_unlocked, Option.map_map]
    rfl
  rw [hid nodes', hid nodes, h]

theorem resolveSelf_congr {env : Env} {nodes nodes' : List NodeRow}
    {committed committed' : Uuid → Int → Bool} (target : LinkTarget)
    (hnodes : nodes'.map NodeRow.unlocked = nodes.map NodeRow.unlocked)
    (hcommitted : ∀ nodeId k, committed' nodeId k = committed nodeId k) :
    resolveSelf env nodes' committed' target = resolveSelf env nodes committed target := by
  rw [show committed' = committed from funext fun n => funext (hcommitted n)]
  simp only [resolveSelf, selfNode_id_congr _ _ hnodes]

namespace Steady

variable {env : Env} {t t₁ t' : Tables}

theorem refl (t : Tables) : Steady t t := ⟨rfl, fun _ _ => rfl, fun _ _ => rfl⟩

theorem trans (h : Steady t t₁) (h' : Steady t₁ t') (hids : t.versionIds ⊆ t₁.versionIds) :
    Steady t t' where
  nodes := h'.nodes.trans h.nodes
  committed nodeId k := (h'.committed nodeId k).trans (h.committed nodeId k)
  owner vid hv := (h'.owner vid (hids hv)).trans (h.owner vid hv)

/-- A step that leaves versions and transactions alone. -/
theorem of_versions (hnodes : t'.nodes.map NodeRow.unlocked = t.nodes.map NodeRow.unlocked)
    (hversions : t'.versions = t.versions) (htxs : t'.txs = t.txs) : Steady t t' where
  nodes := hnodes
  committed nodeId k := by
    simp only [Tables.hasCommitted, hversions, Tables.isCommitted_congr htxs]
  owner vid _ := by rw [Tables.ownerNode, Tables.version?, hversions, Tables.ownerNode, Tables.version?]

/-- New versions of open transactions, one after the stored ones. -/
theorem insertVersion {row : VersionRow} (h : t.isCommitted row.txId = false) :
    Steady t (t.insertVersion row) where
  nodes := rfl
  committed nodeId k := by
    have hsame : ∀ x, (t.insertVersion row).isCommitted x = t.isCommitted x := fun _ => rfl
    have hversions : (t.insertVersion row).versions = t.versions ++ [row] := rfl
    simp only [Tables.hasCommitted, hsame, hversions, List.any_append]
    simp [h]
  owner vid hv := by
    obtain ⟨v, hmem, hid⟩ := List.mem_map.mp hv
    obtain ⟨w, hw⟩ : ∃ w, t.versions.find? (·.id = vid) = some w :=
      Option.isSome_iff_exists.mp (List.find?_isSome.mpr ⟨v, hmem, decide_eq_true hid⟩)
    simp [Tables.ownerNode, Tables.version?, Tables.insertVersion, List.find?_append, hw]

/-- A digest takes no part in the resolution. -/
theorem setFingerprint (t : Tables) (versionId : Uuid) (fp : String) :
    Steady t (t.setFingerprint versionId fp) where
  nodes := rfl
  committed nodeId k := by
    have hsame : ∀ x, (t.setFingerprint versionId fp).isCommitted x = t.isCommitted x := fun _ => rfl
    simp only [Tables.hasCommitted, hsame]
    simp only [Tables.setFingerprint, Tables.updateVersion, List.any_map]
    congr 1
    funext v
    simp only [Function.comp_apply]
    split <;> rfl
  owner vid _ := by
    simp only [Tables.ownerNode, Tables.version?, Tables.setFingerprint, Tables.updateVersion,
      List.find?_map, Option.map_map]
    congr 1
    · funext v
      simp only [Function.comp_apply]
      split <;> rfl
    · congr 1
      funext v
      simp only [Function.comp_apply]
      split <;> rfl

theorem selfTarget (h : Steady t t') (target : LinkTarget) :
    t'.selfTarget env target = t.selfTarget env target :=
  resolveSelf_congr target h.nodes h.committed

theorem edgeOf (h : Steady t t') {l : LinkRow} (hl : l.sourceNodeVersionId ∈ t.versionIds) :
    t'.edgeOf env l = t.edgeOf env l := by
  simp only [Tables.edgeOf, h.owner _ hl, h.selfTarget]

/-- The node the events name is found without locks or versions. -/
theorem resolveDstNodeId (h : Steady t t') (target : LinkTarget) :
    t'.resolveDstNodeId target = t.resolveDstNodeId target := by
  have hid : ∀ t : Tables, (t.nodes.find? fun n =>
      n.logicalId = some target.key ∧ n.nodeTypeId = target.type).map (·.id) =
      ((t.nodes.map NodeRow.unlocked).find? fun n =>
        n.logicalId = some target.key ∧ n.nodeTypeId = target.type).map (·.id) := by
    intro t
    rw [List.find?_map, Option.map_map]
    rfl
  simp only [Tables.resolveDstNodeId, hid, h.nodes]

end Steady

/-! ## The edges of the index -/

theorem mem_applyEdgeEvent_linkCreated {edges : List Edge} {srcId dstId : Uuid} {rel : String} {b : Bool}
    {e : Edge} : e ∈ applyEdgeEvent edges (.linkCreated srcId dstId rel b) ↔
      e ∈ edges ∨ e = ⟨srcId, rel, dstId⟩ := by
  simp only [applyEdgeEvent, List.mem_cons, List.mem_filter, decide_eq_true_eq]
  tauto

theorem mem_applyEdgeEvent_linkDeleted {edges : List Edge} {srcId dstId : Uuid} {rel : String} {e : Edge} :
    e ∈ applyEdgeEvent edges (.linkDeleted srcId dstId rel) ↔ e ∈ edges ∧ e ≠ ⟨srcId, rel, dstId⟩ := by
  simp [applyEdgeEvent]

/-- Deleted nodes take their edges with them. -/
theorem mem_foldl_deletionEvents {byUser : String} {gone : List Uuid} {edges : List Edge} {e : Edge} :
    e ∈ (deletionEvents byUser gone).foldl applyEdgeEvent edges ↔
      e ∈ edges ∧ e.srcId ∉ gone ∧ e.dstId ∉ gone := by
  induction gone generalizing edges with
  | nil => simp [deletionEvents]
  | cons nodeId gone ih =>
    have hcons : deletionEvents byUser (nodeId :: gone) =
        .itemDeleted nodeId byUser :: deletionEvents byUser gone := rfl
    rw [hcons, List.foldl_cons, ih]
    simp only [applyEdgeEvent, List.mem_filter, decide_eq_true_eq, List.mem_cons, not_or]
    tauto

/-- The end of an edge, when the event has a target. -/
theorem mem_foldl_linkDeleted {srcId : Uuid} {dstId : Option Uuid} {rel : String} {edges : List Edge}
    {e : Edge} : e ∈ (dstId.toList.map fun dst => PlmEvent.linkDeleted srcId dst rel).foldl
      applyEdgeEvent edges ↔ e ∈ edges ∧ edgeFrom (some srcId) rel dstId ≠ some e := by
  cases dstId with
  | none => simp [edgeFrom]
  | some dst =>
    simp only [Option.toList_some, List.map_cons, List.map_nil, List.foldl_cons, List.foldl_nil,
      mem_applyEdgeEvent_linkDeleted, edgeFrom, Option.bind_some, Option.map_some, ne_eq,
      Option.some.injEq, eq_comm]

/-- The beginning of an edge, when the event has a target. -/
theorem mem_foldl_linkCreated {srcId : Uuid} {dstId : Option Uuid} {rel : String} {edges : List Edge}
    {e : Edge} : e ∈ (dstId.toList.map fun dst => PlmEvent.linkCreated srcId dst rel true).foldl
      applyEdgeEvent edges ↔ e ∈ edges ∨ edgeFrom (some srcId) rel dstId = some e := by
  cases dstId with
  | none => simp [edgeFrom]
  | some dst =>
    simp only [Option.toList_some, List.map_cons, List.map_nil, List.foldl_cons, List.foldl_nil,
      mem_applyEdgeEvent_linkCreated, edgeFrom, Option.bind_some, Option.map_some,
      Option.some.injEq, eq_comm]

theorem edgeIndex_of_indexEvents {t t' : Tables} {es : List PlmEvent}
    (h : t'.indexEvents = t.indexEvents ++ es) :
    t'.edgeIndex = es.foldl applyEdgeEvent t.edgeIndex := by
  rw [Tables.edgeIndex, h, List.foldl_append, Tables.edgeIndex]

end PlmCore.Psm
