/-
The parent view of a node, and whether it is the converse of the child view.

`getChildLinks` starts from the links of a node and joins the node whose logical id is the key up
to its first `@`. `getParentLinks` starts from the logical id and searches the keys by text: the
key is the logical id, or is `LIKE` the logical id followed by `@%`. The two agree about a key
unless the logical id has characters of the pattern language or an `@` of its own, and about a node
without versions, which only the parent view shows.
-/
import PlmCore.Psm.KeyMeaning
import PlmCore.Psm.LinkIdentity

set_option autoImplicit false

namespace PlmCore.Psm

open PlmCore.Lib

/-! ## The parent view -/

/-- A row of the parent view: the link, and its source at the version the view shows. -/
structure ParentLink where
  linkId : Uuid
  linkTypeId : String
  linkAttributeValues : List (String × Option String)
  linkLogicalId : String
  sourceNodeId : Uuid
  sourceNodeType : String
  sourceLogicalId : String
  sourceRevision : String
  sourceIteration : Nat
  sourceState : String
  sourceStateName : String
  deriving DecidableEq

/-- `nl.target_key = ? OR nl.target_key LIKE ?`, with the logical id and the logical id followed by
`"@%"`. The comparison with a null logical id is not true, and the pattern has its text. -/
def NodeRow.isNamedIn (n : NodeRow) (key : String) : Bool :=
  n.logicalId = some key || sqlLike key (n.logicalId.getD "null" ++ "@%")

/-- The rows `getParentLinks` joins to a link: the node of its source version, when the viewer sees
that, with the newest versions of the node. -/
def Tables.parentRows (ctx : Caller) (t : Tables) (l : LinkRow) : List (NodeRow × VersionRow) :=
  (t.versions.filter fun v => v.id = l.sourceNodeVersionId ∧ t.sees ctx v.txId).flatMap fun source =>
    (t.nodes.filter (·.id = source.nodeId)).flatMap fun n =>
      (t.newestVersions n.id).map fun v => (n, v)

/-- One row. -/
def parentLink (env : Env) (t : Tables) (l : LinkRow) (n : NodeRow) (v : VersionRow) : ParentLink where
  linkId := l.id
  linkTypeId := l.linkTypeId
  linkAttributeValues := t.linkAttributeValues l
  linkLogicalId := nvl l.linkLogicalId
  sourceNodeId := n.id
  sourceNodeType := ((env.getNodeType n.nodeTypeId).map (·.name)).getD n.nodeTypeId
  sourceLogicalId := nvl n.logicalId
  sourceRevision := v.revision
  sourceIteration := v.iteration
  sourceState := nvl v.lifecycleStateId
  sourceStateName := env.resolveStateName v.lifecycleStateId

/-- The rows before they are ordered. -/
def parentLinksOf (env : Env) (ctx : Caller) (t : Tables) (self : NodeRow) : List ParentLink :=
  (t.links.filter fun l => l.targetSourceId = "SELF" ∧ self.isNamedIn l.targetKey).flatMap
    fun l => (t.parentRows ctx l).map fun r => parentLink env t l r.1 r.2

/-- `LinkService.getParentLinks`: the rows ordered by the source's logical id. -/
def getParentLinks (env : Env) (ctx : Caller) (t : Tables) (nodeId : Uuid) : List ParentLink :=
  match t.node? nodeId with
  | none => []
  | some self => (parentLinksOf env ctx t self).insertionSort fun a b => a.sourceLogicalId ≤ b.sourceLogicalId

/-! ## What the views report -/

/-- The parent view of `c` reports the link as one of `p`. -/
def ReportsParent (env : Env) (ctx : Caller) (t : Tables) (p c linkId : Uuid) : Prop :=
  ∃ r ∈ getParentLinks env ctx t c, r.linkId = linkId ∧ r.sourceNodeId = p

/-- The child view of `p` reports the link as one to `c`. -/
def ReportsChild (env : Env) (ctx : Caller) (t : Tables) (p c linkId : Uuid) : Prop :=
  ∃ r ∈ (getChildLinks env ctx t p).1, r.linkId = linkId ∧ r.targetNodeId = c

instance (env : Env) (ctx : Caller) (t : Tables) (p c linkId : Uuid) :
    Decidable (ReportsParent env ctx t p c linkId) :=
  inferInstanceAs (Decidable (∃ r ∈ getParentLinks env ctx t c, _))

instance (env : Env) (ctx : Caller) (t : Tables) (p c linkId : Uuid) :
    Decidable (ReportsChild env ctx t p c linkId) :=
  inferInstanceAs (Decidable (∃ r ∈ (getChildLinks env ctx t p).1, _))

section Views

variable {env : Env} {ctx : Caller} {s : Db} {p c linkId : Uuid}

/-- A link the viewer sees has a row, of the node that owns it. -/
theorem exists_parentRow {l : LinkRow} :
    (∃ r ∈ s.parentRows ctx l, r.1.id = p) ↔ s.isVisibleLinkOf ctx p l = true := by
  simp only [Tables.parentRows, Tables.isVisibleLinkOf, List.mem_flatMap, List.mem_map,
    List.mem_filter, List.any_eq_true, decide_eq_true_eq]
  constructor
  · rintro ⟨_, ⟨source, ⟨hsource, hid, hsees⟩, n, ⟨-, hn⟩, v, -, rfl⟩, rfl⟩
    exact ⟨source, hsource, hid, hn.symm, hsees⟩
  · rintro ⟨source, hsource, hid, rfl, hsees⟩
    obtain ⟨n, hn, hnode⟩ := List.mem_map.mp (s.valid.fk_version_node source hsource)
    -- the source version is one of the node, so the node has a newest one
    have hversions : s.versionsOf n.id ≠ [] :=
      List.ne_nil_of_mem (List.mem_filter.mpr ⟨hsource, decide_eq_true hnode.symm⟩)
    obtain ⟨v, hv⟩ := newestVersions_eq_singleton hversions
    exact ⟨(n, v), ⟨source, ⟨hsource, hid, hsees⟩, n, ⟨hn, hnode⟩, v, hv ▸ List.mem_singleton_self v, rfl⟩,
      hnode⟩

/-- A link has a row of the node its key names, when that has a version. -/
theorem exists_childRow {l : LinkRow} {n : NodeRow} (hn : n ∈ s.nodes) :
    (∃ r ∈ s.childRows l, r.1.id = n.id) ↔
      n.logicalId = some (beforeAt l.targetKey) ∧ s.versionsOf n.id ≠ [] := by
  simp only [Tables.childRows, Tables.childTargets, List.mem_flatMap, List.mem_map, List.mem_filter,
    decide_eq_true_eq]
  constructor
  · rintro ⟨_, ⟨m, ⟨hm, hlogical⟩, v, hv, rfl⟩, hid⟩
    rw [List.inj_on_of_nodup_map s.valid.pk_node hm hn hid] at hlogical hv
    exact ⟨hlogical, List.ne_nil_of_mem (List.mem_of_mem_filter hv)⟩
  · rintro ⟨hlogical, hversions⟩
    obtain ⟨v, hv⟩ := newestVersions_eq_singleton hversions
    exact ⟨(n, v), ⟨n, ⟨hn, hlogical⟩, v, hv ▸ List.mem_singleton_self v, rfl⟩, rfl⟩

/-- The parent view reports the visible SELF links whose key matches the text of the logical id. -/
theorem reportsParent_iff : ReportsParent env ctx s.toTables p c linkId ↔
    ∃ l ∈ s.links, l.id = linkId ∧ l.targetSourceId = "SELF" ∧ s.isVisibleLinkOf ctx p l = true ∧
      ∃ n ∈ s.nodes, n.id = c ∧ n.isNamedIn l.targetKey = true := by
  have hview : ∀ r, r ∈ getParentLinks env ctx s.toTables c ↔
      ∃ n ∈ s.nodes, n.id = c ∧ r ∈ parentLinksOf env ctx s.toTables n := by
    intro r
    unfold getParentLinks
    cases hself : s.node? c with
    | none =>
      have hnone : ∀ n ∈ s.nodes, n.id ≠ c := by simpa [Tables.node?] using hself
      simp only [List.not_mem_nil, false_iff]
      rintro ⟨n, hn, hid, -⟩
      exact hnone n hn hid
    | some self =>
      have hmem : self ∈ s.nodes := List.mem_of_find?_eq_some hself
      have hid : self.id = c := by simpa using List.find?_some hself
      simp only [List.mem_insertionSort]
      constructor
      · intro hr
        exact ⟨self, hmem, hid, hr⟩
      · rintro ⟨n, hn, hnid, hr⟩
        rw [← List.inj_on_of_nodup_map s.valid.pk_node hn hmem (hnid.trans hid.symm)]
        exact hr
  simp only [ReportsParent, hview, parentLinksOf, List.mem_flatMap, List.mem_map, List.mem_filter,
    decide_eq_true_eq]
  constructor
  · rintro ⟨_, ⟨n, hn, hid, l, ⟨hl, hself, hnamed⟩, r, hr, rfl⟩, rfl, rfl⟩
    exact ⟨l, hl, rfl, hself, exists_parentRow.mp ⟨r, hr, rfl⟩, n, hn, hid, hnamed⟩
  · rintro ⟨l, hl, rfl, hself, hvisible, n, hn, hid, hnamed⟩
    obtain ⟨r, hr, hrow⟩ := exists_parentRow.mpr hvisible
    exact ⟨_, ⟨n, hn, hid, l, ⟨hl, hself, hnamed⟩, r, hr, rfl⟩, rfl, hrow⟩

/-- The child view reports the visible SELF links whose key begins with the logical id, up to its
first `@`. -/
theorem reportsChild_iff : ReportsChild env ctx s.toTables p c linkId ↔
    ∃ l ∈ s.links, l.id = linkId ∧ l.targetSourceId = "SELF" ∧ s.isVisibleLinkOf ctx p l = true ∧
      ∃ n ∈ s.nodes, n.id = c ∧ n.logicalId = some (beforeAt l.targetKey) ∧ s.versionsOf n.id ≠ [] := by
  simp only [ReportsChild, getChildLinks, List.mem_insertionSort, selfChildLinks, List.mem_flatMap,
    List.mem_map, List.mem_filter, decide_eq_true_eq]
  constructor
  · rintro ⟨_, ⟨l, ⟨hl, hself, hvisible⟩, r, hr, rfl⟩, rfl, rfl⟩
    obtain ⟨n, hn, v, hv, rfl⟩ : ∃ n ∈ s.childTargets l, ∃ v ∈ s.newestVersions n.id, (n, v) = r := by
      simpa [Tables.childRows] using hr
    have hstored : n ∈ s.nodes := List.mem_of_mem_filter hn
    exact ⟨l, hl, rfl, hself, hvisible, n, hstored, rfl, (exists_childRow hstored).mp ⟨_, hr, rfl⟩⟩
  · rintro ⟨l, hl, rfl, hself, hvisible, n, hn, rfl, hnamed⟩
    obtain ⟨r, hr, hrow⟩ := (exists_childRow hn).mpr hnamed
    exact ⟨_, ⟨l, ⟨hl, hself, hvisible⟩, r, hr, rfl⟩, rfl, hrow⟩

/-! ## When the views agree -/

/-- The search by text finds the node in the key exactly when the child view joins it. -/
def Tables.ReadsAlike (t : Tables) (n : NodeRow) (key : String) : Prop :=
  n.isNamedIn key = true ↔ n.logicalId = some (beforeAt key) ∧ t.versionsOf n.id ≠ []

/-- The keys of the links of `p` that the viewer sees are read alike, as far as `c` is concerned. -/
def Tables.LinksReadAlike (t : Tables) (ctx : Caller) (p c : Uuid) : Prop :=
  ∀ l ∈ t.links, l.targetSourceId = "SELF" → t.isVisibleLinkOf ctx p l = true →
    ∀ n ∈ t.nodes, n.id = c → t.ReadsAlike n l.targetKey

theorem reports_iff_of_readAlike (h : s.LinksReadAlike ctx p c) :
    ReportsParent env ctx s.toTables p c linkId ↔ ReportsChild env ctx s.toTables p c linkId := by
  rw [reportsParent_iff, reportsChild_iff]
  constructor
  · rintro ⟨l, hl, hid, hself, hvisible, n, hn, hc, hnamed⟩
    exact ⟨l, hl, hid, hself, hvisible, n, hn, hc, (h l hl hself hvisible n hn hc).mp hnamed⟩
  · rintro ⟨l, hl, hid, hself, hvisible, n, hn, hc, hnamed⟩
    exact ⟨l, hl, hid, hself, hvisible, n, hn, hc, (h l hl hself hvisible n hn hc).mpr hnamed⟩

end Views

/-- **Parent links are the converse of child links** exactly for the nodes about which the keys of the
links in view are read alike. -/
theorem parents_converse_iff (env : Env) (ctx : Caller) (s : Db) (p c : Uuid) :
    (∀ linkId, ReportsParent env ctx s.toTables p c linkId ↔ ReportsChild env ctx s.toTables p c linkId) ↔
      s.LinksReadAlike ctx p c := by
  constructor
  · intro h l hl hself hvisible n hn hc
    have hone := h l.id
    rw [reportsParent_iff, reportsChild_iff] at hone
    -- the id is that of this link, and `c` that of this node
    constructor
    · intro hnamed
      obtain ⟨m, hm, hid, -, -, k, hk, hkid, hread⟩ :=
        hone.mp ⟨l, hl, rfl, hself, hvisible, n, hn, hc, hnamed⟩
      rw [List.inj_on_of_nodup_map s.valid.pk_link hm hl hid,
        List.inj_on_of_nodup_map s.valid.pk_node hk hn (hkid.trans hc.symm)] at hread
      exact hread
    · intro hread
      obtain ⟨m, hm, hid, -, -, k, hk, hkid, hnamed⟩ :=
        hone.mpr ⟨l, hl, rfl, hself, hvisible, n, hn, hc, hread⟩
      rw [List.inj_on_of_nodup_map s.valid.pk_link hm hl hid,
        List.inj_on_of_nodup_map s.valid.pk_node hk hn (hkid.trans hc.symm)] at hnamed
      exact hnamed
  · intro h linkId
    exact reports_iff_of_readAlike h

/-! ## A wildcard in a logical id -/

/-- Three parts, and a link of the first one pinned to version 1 of the third. -/
def pinnedToPX1 : List StoreRequest :=
  [createsPart "A", createsPart "P_1", createsPart "PX1",
    .authoring engineer 1 1 (.commit (some "first") []), .openTransaction engineer,
    .authoring engineer 1 7
      (.createLink "lt-composed-of" 0 none none (some "PX1@1") (some "a")),
    .authoring engineer 1 7 (.commit (some "second") [])]

/-- The parent view of `P_1` reports the link to `PX1`. -/
theorem parent_view_reads_wildcard :
    (run (Db.step partsEnv) Db.empty pinnedToPX1).nodes.map (fun n => (n.id, n.logicalId)) =
        [(0, some "A"), (3, some "P_1"), (5, some "PX1")] ∧
      ReportsParent partsEnv engineer (run (Db.step partsEnv) Db.empty pinnedToPX1).toTables 0 3 9 ∧
      ¬ ReportsChild partsEnv engineer (run (Db.step partsEnv) Db.empty pinnedToPX1).toTables 0 3 9 ∧
      ReportsChild partsEnv engineer (run (Db.step partsEnv) Db.empty pinnedToPX1).toTables 0 5 9 := by
  exact ⟨by decide +kernel, by decide +kernel, by decide +kernel, by decide +kernel⟩

end PlmCore.Psm
