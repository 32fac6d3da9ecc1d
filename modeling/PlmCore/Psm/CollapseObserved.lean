/-
What a reader sees of a node before and after history collapse.

`SameObserved` compares the surviving version, the child view of the node for every viewer,
and the content of every baseline. `CollapseKeepsAll` is the exact condition on the store
before: no baseline records a link of a deleted version, no deleted version owns a link the
child view shows, and neither the child view nor a readable baseline shows a version the
collapse deletes or renumbers.
-/
import PlmCore.Psm.CollapseEffect
import PlmCore.Psm.Node

set_option autoImplicit false

namespace PlmCore.Psm

open PlmCore.Lib

/-! ## The comparison -/

/-- The version a state action runs for, as `LifecycleService` passes it: a version of the
node, and its newest one. -/
structure Entering (ctx : StateActionContext) (t : Tables) (v : VersionRow) : Prop where
  stored : v ∈ t.versions
  isCurrent : v.id = ctx.versionId
  ofNode : v.nodeId = ctx.nodeId
  newest : ∀ w ∈ t.versions, w.nodeId = ctx.nodeId → w.versionNumber ≤ v.versionNumber

/-- Nothing a reader sees of the surviving version changed. -/
structure SameObserved (env : Env) (ctx : StateActionContext) (v : VersionRow) (t t' : Tables) :
    Prop where
  version : ∃ v' ∈ t'.versions, v'.id = v.id ∧ v'.revision = v.revision
    ∧ v'.lifecycleStateId = v.lifecycleStateId
  attributes : t'.attributesOf v.id = t.attributesOf v.id
  domains : t'.domainsOf v.id = t.domainsOf v.id
  childLinks : ∀ viewer, getChildLinks env viewer t' ctx.nodeId = getChildLinks env viewer t ctx.nodeId
  baselines : ∀ b ∈ t.baselines, getBaselineContent t' b.id = getBaselineContent t b.id

/-- The stores whose observations a collapse keeps. -/
structure CollapseKeepsAll (ctx : StateActionContext) (t : Tables) : Prop where
  unrecorded : ∀ e ∈ t.baselineEntries, ∀ l ∈ t.links, l.id = e.nodeLinkId →
    l.sourceNodeVersionId ∉ t.collapsedIds ctx
  noShownLink : ∀ l ∈ t.links, l.sourceNodeVersionId ∈ t.collapsedIds ctx →
    l.targetSourceId = "SELF" ∧ t.childRows l = []
  noSelfTarget : ∀ l ∈ t.links, t.isLinkOf ctx.nodeId l = true → l.targetSourceId = "SELF" →
    ∀ r ∈ t.childRows l, r.2.id = ctx.versionId → r.2.iteration = 0
  noRecorded : ∀ b ∈ t.baselines, t.isReadableBaseline b.id = true →
    ∀ el ∈ t.entriesWithLinks b.id, ∀ n ∈ t.recordedNodes el.1 el.2,
      ∀ v ∈ t.recordedVersions el.1 n,
        v.id ∉ t.collapsedIds ctx ∧ (v.id = ctx.versionId → v.iteration = 0)

/-! ## Versions after a collapse -/

section Versions

variable {ctx : StateActionContext} {s s' : Db} {cur : VersionRow}

/-- The deleted versions belong to the node, and none is the entering one. -/
theorem nodeId_of_collapsed {t : Tables} (ht : t.Valid) {v : VersionRow} (hv : v ∈ t.versions)
    (h : v.id ∈ t.collapsedIds ctx) : v.nodeId = ctx.nodeId ∧ v.id ≠ ctx.versionId := by
  obtain ⟨w, hw, hid⟩ := List.mem_map.mp h
  have hw := mem_toDelete.mp hw
  rw [List.inj_on_of_nodup_map ht.pk_version hw.1 hv hid] at hw
  exact ⟨hw.2.1, hw.2.2.2.1⟩

/-- A newest version of a node is never deleted. -/
theorem newest_kept (he : Entering ctx s.toTables cur) {nodeId : Uuid} {v : VersionRow}
    (hv : v ∈ s.newestVersions nodeId) : v.id ∉ s.collapsedIds ctx := by
  intro hmem
  obtain ⟨hvn, hmax⟩ := List.mem_filter.mp hv
  obtain ⟨hvs, hnode⟩ := List.mem_filter.mp hvn
  obtain ⟨hctx, hne⟩ := nodeId_of_collapsed s.valid hvs hmem
  have hnode : v.nodeId = nodeId := by simpa using hnode
  have hcur : cur ∈ s.versionsOf nodeId :=
    List.mem_filter.mpr ⟨he.stored, by simp [he.ofNode, ← hnode, hctx]⟩
  have hle : cur.versionNumber ≤ v.versionNumber := by simpa using List.all_eq_true.mp hmax cur hcur
  have hsame : v = cur := List.inj_on_of_nodup_map s.valid.uq_node_version hvs he.stored (by
    simp [hctx, he.ofNode, Nat.le_antisymm (he.newest v hvs hctx) hle])
  exact hne (hsame ▸ he.isCurrent)

theorem versionsOf_after (h : CollapsedTo ctx s.toTables s'.toTables) (nodeId : Uuid) :
    s'.versionsOf nodeId = ((s.versionsOf nodeId).filter (·.id ∉ s.collapsedIds ctx)).map
      (keptRow (s.collapsedIds ctx) ctx.versionId) := by
  rw [Tables.versionsOf, h.versions, List.filter_map, Tables.versionsOf, List.filter_filter,
    List.filter_filter]
  congr 1
  refine List.filter_congr fun v _ => ?_
  simp [keptRow, Bool.and_comm]

/-- The newest versions of a node stay the newest. -/
theorem newestVersions_after (h : CollapsedTo ctx s.toTables s'.toTables)
    (he : Entering ctx s.toTables cur) (nodeId : Uuid) :
    s'.newestVersions nodeId =
      (s.newestVersions nodeId).map (keptRow (s.collapsedIds ctx) ctx.versionId) := by
  rw [Tables.newestVersions, versionsOf_after h, List.filter_map, Tables.newestVersions,
    List.filter_filter]
  congr 1
  refine List.filter_congr fun v hv => ?_
  have hmax : ∃ m ∈ s.versionsOf nodeId, m.id ∉ s.collapsedIds ctx
      ∧ ∀ w ∈ s.versionsOf nodeId, w.versionNumber ≤ m.versionNumber := by
    obtain ⟨m, hm⟩ := newestVersions_eq_singleton (List.ne_nil_of_mem hv)
    have hm : m ∈ s.newestVersions nodeId := by simp [hm]
    exact ⟨m, List.mem_of_mem_filter hm, newest_kept he hm, by simpa using (List.mem_filter.mp hm).2⟩
  obtain ⟨m, hm, hmkept, hmmax⟩ := hmax
  rw [Bool.eq_iff_iff]
  simp only [Function.comp_apply, Bool.and_eq_true, List.all_eq_true, List.mem_map, List.mem_filter,
    decide_eq_true_eq, forall_exists_index, and_imp]
  constructor
  · intro hall w hw
    have hle := hall.1 _ m hm hmkept rfl
    exact Nat.le_trans (hmmax w hw) hle
  · intro hall
    refine ⟨?_, newest_kept he (List.mem_filter.mpr ⟨hv, by simpa using hall⟩)⟩
    rintro _ w hw - rfl
    exact hall w hw

end Versions

/-! ## Links after a collapse -/

section Links

variable {env : Env} {ctx : StateActionContext} {viewer : Caller} {s s' : Db} {cur : VersionRow}
  {l : LinkRow}

theorem sees_after (h : CollapsedTo ctx s.toTables s'.toTables) (txId : Uuid) :
    s'.sees viewer txId = s.sees viewer txId := by
  rw [Tables.sees, h.txs, Tables.sees]

/-- A link of a kept version is seen as before. -/
theorem isVisibleLinkOf_after (h : CollapsedTo ctx s.toTables s'.toTables) {nodeId : Uuid}
    (hl : l.sourceNodeVersionId ∉ s.collapsedIds ctx) :
    s'.isVisibleLinkOf viewer nodeId l = s.isVisibleLinkOf viewer nodeId l := by
  rw [Tables.isVisibleLinkOf, h.versions, List.any_map, List.any_filter, Tables.isVisibleLinkOf]
  rw [Bool.eq_iff_iff]
  simp only [List.any_eq_true, Function.comp_apply, keptRow, sees_after h, Bool.and_eq_true,
    decide_eq_true_eq]
  constructor
  · rintro ⟨v, hv, -, hp⟩
    exact ⟨v, hv, of_decide_eq_true hp⟩
  · rintro ⟨v, hv, hp⟩
    exact ⟨v, hv, hp.1 ▸ hl, decide_eq_true hp⟩

theorem isLinkOf_of_visible {t : Tables} {nodeId : Uuid}
    (h : t.isVisibleLinkOf viewer nodeId l = true) : t.isLinkOf nodeId l = true := by
  simp only [Tables.isVisibleLinkOf, Tables.isLinkOf, List.any_eq_true, decide_eq_true_eq] at h ⊢
  obtain ⟨v, hv, hid, hnode, -⟩ := h
  exact ⟨v, hv, hid, hnode⟩

/-- The versions a link joins are newest versions. -/
theorem mem_childRows {t : Tables} {r : NodeRow × VersionRow} (h : r ∈ t.childRows l) :
    r.1 ∈ t.nodes ∧ r.2 ∈ t.newestVersions r.1.id := by
  obtain ⟨n, hn, hr⟩ := List.mem_flatMap.mp h
  obtain ⟨v, hv, rfl⟩ := List.mem_map.mp hr
  exact ⟨List.mem_of_mem_filter hn, hv⟩

theorem childRows_after (h : CollapsedTo ctx s.toTables s'.toTables)
    (he : Entering ctx s.toTables cur) (l : LinkRow) :
    s'.childRows l = (s.childRows l).map fun r =>
      (r.1, keptRow (s.collapsedIds ctx) ctx.versionId r.2) := by
  rw [Tables.childRows, Tables.childRows, Tables.childTargets, h.nodes, List.map_flatMap]
  refine List.flatMap_congr fun n _ => ?_
  rw [newestVersions_after h he, List.map_map, List.map_map]
  rfl

/-- The attribute values of a kept link stay. -/
theorem linkAttributeValues_after (h : CollapsedTo ctx s.toTables s'.toTables) (hl : l ∈ s.links)
    (hkept : l.sourceNodeVersionId ∉ s.collapsedIds ctx) :
    s'.linkAttributeValues l = s.linkAttributeValues l := by
  rw [Tables.linkAttributeValues, Tables.attributesOfLink, h.linkAttributes, List.filter_filter,
    Tables.linkAttributeValues, Tables.attributesOfLink]
  congr 1
  refine List.filter_congr fun a _ => ?_
  rw [Bool.eq_iff_iff]
  simp only [Bool.and_eq_true, decide_eq_true_eq, and_iff_left_iff_imp]
  intro hid m hm hmid
  rw [List.inj_on_of_nodup_map s.valid.pk_link hm hl (hmid.trans hid)]
  exact hkept

/-- A version that is not deleted owns the same links. -/
theorem linksOwnedBy_after (h : CollapsedTo ctx s.toTables s'.toTables) {vid : Uuid}
    (hvid : vid ∉ s.collapsedIds ctx) : s'.linksOwnedBy vid = s.linksOwnedBy vid := by
  rw [Tables.linksOwnedBy, h.links, List.filter_filter, Tables.linksOwnedBy]
  refine List.filter_congr fun m _ => ?_
  rw [Bool.eq_iff_iff]
  simp only [Bool.and_eq_true, decide_eq_true_eq, and_iff_left_iff_imp]
  exact fun hm => hm ▸ hvid

/-- A row of the child view stays when its link is kept and its target version is not the
renumbered one. -/
theorem childLink_after (h : CollapsedTo ctx s.toTables s'.toTables) (hl : l ∈ s.links)
    (hkept : l.sourceNodeVersionId ∉ s.collapsedIds ctx) (n : NodeRow) {v : VersionRow}
    (hv : v.id ∉ s.collapsedIds ctx) (hiter : v.id = ctx.versionId → v.iteration = 0) :
    childLink env s'.toTables l n (keptRow (s.collapsedIds ctx) ctx.versionId v)
      = childLink env s.toTables l n v := by
  have hi : (if v.id = ctx.versionId then 0 else v.iteration) = v.iteration := by
    split
    · rename_i hid
      exact (hiter hid).symm
    · rfl
  have hcount : s'.linksOwnedBy (keptRow (s.collapsedIds ctx) ctx.versionId v).id
      = s.linksOwnedBy v.id := linksOwnedBy_after h hv
  simp only [childLink, linkAttributeValues_after h hl hkept, hcount]
  simp [keptRow, hi]

/-- Under `CollapseKeepsAll` the SELF rows of the child view are the same. -/
theorem selfChildLinks_after (h : CollapsedTo ctx s.toTables s'.toTables)
    (he : Entering ctx s.toTables cur) (hk : CollapseKeepsAll ctx s.toTables) :
    selfChildLinks env viewer s'.toTables ctx.nodeId
      = selfChildLinks env viewer s.toTables ctx.nodeId := by
  rw [selfChildLinks, h.links, List.filter_filter, selfChildLinks]
  refine flatMap_filter_congr (fun l hl hp => ?_) (fun l hl hq hp => ?_)
  · simp only [Bool.and_eq_true, decide_eq_true_eq] at hp ⊢
    obtain ⟨⟨hself, hvisible⟩, hkept⟩ := hp
    rw [isVisibleLinkOf_after h hkept] at hvisible
    refine ⟨⟨hself, hvisible⟩, ?_⟩
    rw [childRows_after h he, List.map_map]
    refine List.map_congr_left fun r hr => ?_
    exact childLink_after h hl hkept r.1 (newest_kept he (mem_childRows hr).2)
      (hk.noSelfTarget l hl (isLinkOf_of_visible hvisible) hself r hr)
  · have hgone : l.sourceNodeVersionId ∈ s.collapsedIds ctx := by
      by_contra hkept
      rw [isVisibleLinkOf_after h hkept] at hp
      simp only [decide_eq_true_eq] at hq
      simp [hq, hkept] at hp
    rw [(hk.noShownLink l hl hgone).2]
    rfl

/-- Under `CollapseKeepsAll` the rows of other sources are the same. -/
theorem externalChildLinks_after (h : CollapsedTo ctx s.toTables s'.toTables)
    (hk : CollapseKeepsAll ctx s.toTables) :
    externalChildLinks viewer s'.toTables ctx.nodeId
      = externalChildLinks viewer s.toTables ctx.nodeId := by
  rw [externalChildLinks, h.links, List.filter_filter, externalChildLinks]
  have hfilter : (s.links.filter fun l => decide (l.targetSourceId ≠ "SELF"
      ∧ s'.isVisibleLinkOf viewer ctx.nodeId l = true) &&
        decide (l.sourceNodeVersionId ∉ s.collapsedIds ctx))
      = s.links.filter fun l => l.targetSourceId ≠ "SELF"
        ∧ s.isVisibleLinkOf viewer ctx.nodeId l = true := by
    refine List.filter_congr fun l hl => ?_
    by_cases hgone : l.sourceNodeVersionId ∈ s.collapsedIds ctx
    · simp [(hk.noShownLink l hl hgone).1]
    · simp [hgone, isVisibleLinkOf_after h hgone]
  rw [hfilter]
  refine List.map_congr_left fun l hl => ?_
  obtain ⟨hl, hp⟩ := List.mem_filter.mp hl
  have hkept : l.sourceNodeVersionId ∉ s.collapsedIds ctx := by
    intro hgone
    simp [(hk.noShownLink l hl hgone).1] at hp
  rw [linkAttributeValues_after h hl hkept]

end Links

/-! ## Baselines after a collapse -/

section Baselines

variable {ctx : StateActionContext} {s s' : Db}

theorem recordedNodes_after (h : CollapsedTo ctx s.toTables s'.toTables) (e : BaselineEntryRow)
    (l : LinkRow) : s'.recordedNodes e l = s.recordedNodes e l := by
  rw [Tables.recordedNodes, h.nodes, Tables.recordedNodes]

theorem recordedVersions_after (h : CollapsedTo ctx s.toTables s'.toTables) (e : BaselineEntryRow)
    (n : NodeRow) : s'.recordedVersions e n =
      ((s.recordedVersions e n).filter (·.id ∉ s.collapsedIds ctx)).map
        (keptRow (s.collapsedIds ctx) ctx.versionId) := by
  rw [Tables.recordedVersions, h.versions, List.filter_map, Tables.recordedVersions,
    List.filter_filter, List.filter_filter]
  congr 1
  refine List.filter_congr fun v _ => ?_
  rw [Bool.and_comm]
  rfl

/-- Recorded links are kept, so the entries join the same links. -/
theorem entriesWithLinks_after (h : CollapsedTo ctx s.toTables s'.toTables)
    (hk : ∀ e ∈ s.baselineEntries, ∀ l ∈ s.links, l.id = e.nodeLinkId →
      l.sourceNodeVersionId ∉ s.collapsedIds ctx) (baselineId : Uuid) :
    s'.entriesWithLinks baselineId = s.entriesWithLinks baselineId := by
  rw [Tables.entriesWithLinks, h.baselineEntries, Tables.entriesWithLinks]
  refine List.flatMap_congr fun e he => ?_
  rw [h.links, List.filter_filter]
  congr 1
  refine List.filter_congr fun l hl => ?_
  rw [Bool.eq_iff_iff]
  simp only [Bool.and_eq_true, decide_eq_true_eq, and_iff_left_iff_imp]
  exact hk e (List.mem_of_mem_filter he) l hl

theorem isReadableBaseline_after (h : CollapsedTo ctx s.toTables s'.toTables)
    (hk : ∀ e ∈ s.baselineEntries, ∀ l ∈ s.links, l.id = e.nodeLinkId →
      l.sourceNodeVersionId ∉ s.collapsedIds ctx) (baselineId : Uuid) :
    s'.isReadableBaseline baselineId = s.isReadableBaseline baselineId := by
  simp only [Tables.isReadableBaseline, entriesWithLinks_after h hk, recordedNodes_after h]

/-- A recorded node whose versions stay shows the same rows. -/
theorem nodeContentRows_after (h : CollapsedTo ctx s.toTables s'.toTables) {e : BaselineEntryRow}
    {l : LinkRow} {n : NodeRow} (hk : ∀ v ∈ s.recordedVersions e n,
      v.id ∉ s.collapsedIds ctx ∧ (v.id = ctx.versionId → v.iteration = 0)) :
    s'.nodeContentRows e l n = s.nodeContentRows e l n := by
  have hversions : s'.recordedVersions e n =
      (s.recordedVersions e n).map (keptRow (s.collapsedIds ctx) ctx.versionId) := by
    rw [recordedVersions_after h]
    congr 1
    exact List.filter_eq_self.mpr fun v hv => by simp [(hk v hv).1]
  have hrow : ∀ v ∈ s.recordedVersions e n,
      Tables.contentRow e l (some n) (some (keptRow (s.collapsedIds ctx) ctx.versionId v))
        = Tables.contentRow e l (some n) (some v) := by
    intro v hv
    have hi : (if v.id = ctx.versionId then 0 else v.iteration) = v.iteration := by
      split
      · rename_i hid
        exact ((hk v hv).2 hid).symm
      · rfl
    simp [Tables.contentRow, keptRow, hi]
  rw [Tables.nodeContentRows, hversions, Tables.nodeContentRows]
  cases hv : s.recordedVersions e n with
  | nil => rfl
  | cons v vs =>
    rw [hv] at hrow
    simp only [List.map_cons, List.map_map, hrow v (by simp)]
    congr 1
    exact List.map_congr_left fun w hw => hrow w (by simp [hw])

/-- **Under `CollapseKeepsAll` every baseline reads the same.** -/
theorem getBaselineContent_after (h : CollapsedTo ctx s.toTables s'.toTables)
    (hk : CollapseKeepsAll ctx s.toTables) {b : BaselineRow} (hb : b ∈ s.baselines) :
    getBaselineContent s'.toTables b.id = getBaselineContent s.toTables b.id := by
  rw [getBaselineContent, isReadableBaseline_after h hk.unrecorded,
    entriesWithLinks_after h hk.unrecorded, getBaselineContent]
  split
  · rename_i hread
    have hrows : (s.entriesWithLinks b.id).flatMap (fun el => s'.entryContentRows el.1 el.2)
        = (s.entriesWithLinks b.id).flatMap fun el => s.entryContentRows el.1 el.2 := by
      refine List.flatMap_congr fun el hel => ?_
      rw [Tables.entryContentRows, recordedNodes_after h, Tables.entryContentRows]
      cases hn : s.recordedNodes el.1 el.2 with
      | nil => rfl
      | cons n ns =>
        refine List.flatMap_congr fun m hm => nodeContentRows_after h ?_
        exact hk.noRecorded b hb hread el hel m (by rw [hn]; exact hm)
    rw [hrows]
  · rfl

end Baselines

/-! ## What equal observations tell about the store before -/

section Converse

variable {env : Env} {ctx : StateActionContext} {s s' : Db} {cur : VersionRow}

theorem mem_selfChildLinks {viewer : Caller} {t : Tables} {nodeId : Uuid} {x : ChildLink} :
    x ∈ selfChildLinks env viewer t nodeId ↔ ∃ l ∈ t.links, l.targetSourceId = "SELF"
      ∧ t.isVisibleLinkOf viewer nodeId l = true ∧ ∃ r ∈ t.childRows l, childLink env t l r.1 r.2 = x := by
  simp [selfChildLinks, and_assoc]

/-- An administrator sees every link of a node. -/
theorem isVisibleLinkOf_admin (viewer : Caller) (hadmin : viewer.isAdmin = true) {nodeId : Uuid}
    {l : LinkRow} (h : s.isLinkOf nodeId l = true) : s.isVisibleLinkOf viewer nodeId l = true := by
  simp only [Tables.isVisibleLinkOf, Tables.isLinkOf, List.any_eq_true, decide_eq_true_eq] at h ⊢
  obtain ⟨v, hv, hid, hnode⟩ := h
  refine ⟨v, hv, hid, hnode, ?_⟩
  obtain ⟨x, hx, hxid⟩ := List.mem_map.mp (s.valid.fk_version_tx v hv)
  simp only [Tables.sees, List.any_eq_true, decide_eq_true_eq]
  refine ⟨x, hx, hxid, ?_⟩
  cases x.status with
  | OPEN => exact .inr ⟨rfl, .inr hadmin⟩
  | COMMITTED => exact .inl rfl

/-- A viewer who sees everything. -/
def anAdmin : Caller := ⟨"admin", true, 0⟩

theorem isLinkOf_of_collapsed {l : LinkRow} (h : l.sourceNodeVersionId ∈ s.collapsedIds ctx) :
    s.isLinkOf ctx.nodeId l = true := by
  obtain ⟨w, hw, hid⟩ := List.mem_map.mp h
  have hw := mem_toDelete.mp hw
  simp only [Tables.isLinkOf, List.any_eq_true, decide_eq_true_eq]
  exact ⟨w, hw.1, hid, hw.2.1⟩

/-- Links of deleted versions are not in the child view, so they were not before. -/
theorem noShownLink_of_same (h : CollapsedTo ctx s.toTables s'.toTables)
    (hsame : getChildLinks env anAdmin s'.toTables ctx.nodeId
      = getChildLinks env anAdmin s.toTables ctx.nodeId) :
    ∀ l ∈ s.links, l.sourceNodeVersionId ∈ s.collapsedIds ctx →
      l.targetSourceId = "SELF" ∧ s.childRows l = [] := by
  intro l hl hgone
  have hvisible := isVisibleLinkOf_admin anAdmin rfl (isLinkOf_of_collapsed hgone)
  -- a link the view shows after the collapse is kept
  have hkept : ∀ m ∈ s'.links, m.id ≠ l.id := by
    intro m hm hid
    rw [h.links] at hm
    obtain ⟨hm, hmkept⟩ := List.mem_filter.mp hm
    rw [List.inj_on_of_nodup_map s.valid.pk_link hm hl hid] at hmkept
    simp [hgone] at hmkept
  obtain ⟨hself, hext⟩ := Prod.mk.inj hsame
  by_cases hsource : l.targetSourceId = "SELF"
  · refine ⟨hsource, List.eq_nil_iff_forall_not_mem.mpr fun r hr => ?_⟩
    have hrow : childLink env s.toTables l r.1 r.2 ∈ selfChildLinks env anAdmin s.toTables ctx.nodeId :=
      mem_selfChildLinks.mpr ⟨l, hl, hsource, hvisible, r, hr, rfl⟩
    rw [← List.mem_insertionSort (fun a b => a.targetLogicalId ≤ b.targetLogicalId), ← hself,
      List.mem_insertionSort, mem_selfChildLinks] at hrow
    obtain ⟨m, hm, -, -, r', -, heq⟩ := hrow
    exact hkept m hm (congrArg ChildLink.linkId heq)
  · exfalso
    have hrow : (⟨l.id, l.linkTypeId, s.linkAttributeValues l, nvl l.linkLogicalId, l.target⟩ :
        ExternalLink) ∈ externalChildLinks anAdmin s.toTables ctx.nodeId :=
      List.mem_map.mpr ⟨l, List.mem_filter.mpr ⟨hl, by simp [hsource, hvisible]⟩, rfl⟩
    rw [← List.mem_insertionSort (fun a b : ExternalLink =>
      toLex (a.target.sourceCode, a.target.key) ≤ toLex (b.target.sourceCode, b.target.key)), ← hext,
      List.mem_insertionSort] at hrow
    obtain ⟨m, hm, heq⟩ := List.mem_map.mp hrow
    exact hkept m (List.mem_of_mem_filter hm) (congrArg ExternalLink.linkId heq)

/-- The surviving version shows iteration 0 afterwards, so where it was shown it had it. -/
theorem noSelfTarget_of_same (h : CollapsedTo ctx s.toTables s'.toTables)
    (he : Entering ctx s.toTables cur)
    (hsame : getChildLinks env anAdmin s'.toTables ctx.nodeId
      = getChildLinks env anAdmin s.toTables ctx.nodeId) :
    ∀ l ∈ s.links, s.isLinkOf ctx.nodeId l = true → l.targetSourceId = "SELF" →
      ∀ r ∈ s.childRows l, r.2.id = ctx.versionId → r.2.iteration = 0 := by
  intro l hl hof hsource r hr hid
  have hrow : childLink env s.toTables l r.1 r.2 ∈ selfChildLinks env anAdmin s.toTables ctx.nodeId :=
    mem_selfChildLinks.mpr ⟨l, hl, hsource, isVisibleLinkOf_admin _ rfl hof, r, hr, rfl⟩
  rw [← List.mem_insertionSort (fun a b => a.targetLogicalId ≤ b.targetLogicalId),
    ← (Prod.mk.inj hsame).1, List.mem_insertionSort, mem_selfChildLinks] at hrow
  obtain ⟨m, -, -, -, r', hr', heq⟩ := hrow
  rw [childRows_after h he] at hr'
  obtain ⟨q, hq, rfl⟩ := List.mem_map.mp hr'
  -- both rows show the newest version of one node
  have hnode : q.1.id = r.1.id := congrArg ChildLink.targetNodeId heq
  have hq₂ := (mem_childRows hq).2
  have hr₂ := (mem_childRows hr).2
  rw [hnode] at hq₂
  obtain ⟨v, hv⟩ := @newestVersions_eq_singleton s r.1.id
    (List.ne_nil_of_mem (List.mem_of_mem_filter hr₂))
  rw [hv, List.mem_singleton] at hq₂ hr₂
  have hiter := congrArg ChildLink.targetIteration heq
  simp only [childLink, keptRow, hq₂, ← hr₂, hid, if_true] at hiter
  exact hiter.symm

theorem contentRow_mem {t : Tables} {e : BaselineEntryRow} {l : LinkRow} {n : NodeRow}
    {v : VersionRow} (hn : n ∈ t.recordedNodes e l) (hv : v ∈ t.recordedVersions e n) :
    Tables.contentRow e l (some n) (some v) ∈ t.entryContentRows e l := by
  have hrow : Tables.contentRow e l (some n) (some v) ∈ t.nodeContentRows e l n := by
    unfold Tables.nodeContentRows
    split
    · rename_i hnil
      rw [hnil] at hv
      cases hv
    · exact List.mem_map_of_mem hv
  unfold Tables.entryContentRows
  split
  · rename_i hnil
    rw [hnil] at hn
    cases hn
  · exact List.mem_flatMap.mpr ⟨n, hn, hrow⟩

/-- A row that shows a version shows a stored one. -/
theorem version_of_contentRow {t : Tables} {e : BaselineEntryRow} {l : LinkRow}
    {row : BaselineContentRow} {vid : Uuid} (h : row ∈ t.entryContentRows e l)
    (hvid : row.nodeVersionId = some vid) :
    ∃ v ∈ t.versions, v.id = vid ∧ row.iteration = some v.iteration := by
  unfold Tables.entryContentRows at h
  split at h
  · rw [List.mem_singleton.mp h] at hvid
    cases hvid
  · obtain ⟨n, -, h⟩ := List.mem_flatMap.mp h
    unfold Tables.nodeContentRows at h
    split at h
    · rw [List.mem_singleton.mp h] at hvid
      cases hvid
    · obtain ⟨v, hv, rfl⟩ := List.mem_map.mp h
      exact ⟨v, List.mem_of_mem_filter hv, Option.some.inj hvid, rfl⟩

/-- A version a readable baseline shows is kept, and was not renumbered. -/
theorem noRecorded_of_same (h : CollapsedTo ctx s.toTables s'.toTables)
    (hrec : ∀ e ∈ s.baselineEntries, ∀ l ∈ s.links, l.id = e.nodeLinkId →
      l.sourceNodeVersionId ∉ s.collapsedIds ctx)
    {b : BaselineRow} (hread : s.isReadableBaseline b.id = true)
    (hsame : getBaselineContent s'.toTables b.id = getBaselineContent s.toTables b.id) :
    ∀ el ∈ s.entriesWithLinks b.id, ∀ n ∈ s.recordedNodes el.1 el.2,
      ∀ v ∈ s.recordedVersions el.1 n,
        v.id ∉ s.collapsedIds ctx ∧ (v.id = ctx.versionId → v.iteration = 0) := by
  intro el hel n hn v hv
  -- the row that shows the version is in the content of before, and so in that of after
  have hrow : Tables.contentRow el.1 el.2 (some n) (some v)
      ∈ (s.entriesWithLinks b.id).flatMap fun el => s.entryContentRows el.1 el.2 :=
    List.mem_flatMap.mpr ⟨el, hel, contentRow_mem hn hv⟩
  have hread' : s'.isReadableBaseline b.id = true := by rw [isReadableBaseline_after h hrec, hread]
  rw [getBaselineContent, if_pos hread', getBaselineContent, if_pos hread] at hsame
  rw [← List.mem_insertionSort (fun a b : BaselineContentRow =>
    a.sortKey.1 < b.sortKey.1 ∨ (a.sortKey.1 = b.sortKey.1 ∧ a.sortKey.2 ≤ b.sortKey.2)),
    ← Except.ok.inj hsame, List.mem_insertionSort] at hrow
  obtain ⟨el', -, hrow⟩ := List.mem_flatMap.mp hrow
  -- its version is among those that are kept, with the iteration it had
  obtain ⟨v', hv', hid, hiter⟩ := version_of_contentRow hrow rfl
  rw [h.versions] at hv'
  obtain ⟨w, hw, rfl⟩ := List.mem_map.mp hv'
  obtain ⟨hw, hkept⟩ := List.mem_filter.mp hw
  have hwid : w.id = v.id := hid
  have hwv : w = v :=
    List.inj_on_of_nodup_map s.valid.pk_version hw (List.mem_of_mem_filter hv) hwid
  subst hwv
  refine ⟨by simpa using hkept, fun hcur => ?_⟩
  have hiter : w.iteration = (keptRow (s.collapsedIds ctx) ctx.versionId w).iteration :=
    Option.some.inj hiter
  rw [hiter, keptRow, if_pos hcur]

end Converse

/-! ## The equivalence -/

/-- **History collapse preserves what can be observed exactly under `CollapseKeepsAll`.** For
every store and every version entering the state: the action succeeds, the version keeps
its revision, state, attributes and domains, the child view of its node is the same for
every viewer and every baseline reads the same, if and only if the state is no release
state or the store meets the condition. -/
theorem collapseHistory_preserves_iff {env : Env} {ctx : StateActionContext} {s : Db}
    {cur : VersionRow} (he : Entering ctx s.toTables cur) :
    (∃ s', Returns (collapseHistory env ctx) s () s'
        ∧ SameObserved env ctx cur s.toTables s'.toTables) ↔
      (env.isTrue "LIFECYCLE_STATE" ctx.toStateId ctx.metaKey = true →
        CollapseKeepsAll ctx s.toTables) := by
  have hcur : ctx.versionId ∈ s.versionIds := by
    rw [← he.isCurrent]
    exact List.mem_map_of_mem he.stored
  cases htrue : env.isTrue "LIFECYCLE_STATE" ctx.toStateId ctx.metaKey with
  | false =>
    -- a state in which the action does nothing
    simp only [Bool.false_eq_true, false_imp_iff, iff_true]
    refine ⟨s, ?_, ⟨cur, he.stored, rfl, rfl, rfl⟩, rfl, rfl, fun _ => rfl, fun _ _ => rfl⟩
    simp [collapseHistory, htrue]
  | true =>
    simp only [forall_const]
    constructor
    · rintro ⟨s', hrun, hsame⟩
      have h := collapseHistory_ok htrue hrun
      have hrec := (collapseHistory_succeeds_iff htrue hcur).mp ⟨s', hrun⟩
      exact ⟨hrec, noShownLink_of_same h (hsame.childLinks anAdmin),
        noSelfTarget_of_same h he (hsame.childLinks anAdmin),
        fun b hb hread => noRecorded_of_same h hrec hread (hsame.baselines b hb)⟩
    · intro hk
      obtain ⟨s', hrun⟩ := (collapseHistory_succeeds_iff htrue hcur).mpr hk.unrecorded
      have h := collapseHistory_ok htrue hrun
      -- the current version is not one of those that go
      have hkept : cur.id ∉ s.collapsedIds ctx := fun hgone =>
        (nodeId_of_collapsed s.valid he.stored hgone).2 he.isCurrent
      refine ⟨s', hrun, ?_, ?_, ?_, fun viewer => ?_, fun b hb => getBaselineContent_after h hk hb⟩
      · refine ⟨keptRow (s.collapsedIds ctx) ctx.versionId cur, ?_, rfl, rfl, rfl⟩
        rw [h.versions]
        exact List.mem_map_of_mem (List.mem_filter.mpr ⟨he.stored, by simpa using hkept⟩)
      · rw [Tables.attributesOf, h.attributes, List.filter_filter, Tables.attributesOf]
        refine List.filter_congr fun a _ => ?_
        rw [Bool.eq_iff_iff]
        simp only [Bool.and_eq_true, decide_eq_true_eq, and_iff_left_iff_imp]
        exact fun ha => ha ▸ hkept
      · rw [Tables.domainsOf, h.domains, List.filter_filter, Tables.domainsOf]
        refine List.filter_congr fun d _ => ?_
        rw [Bool.eq_iff_iff]
        simp only [Bool.and_eq_true, decide_eq_true_eq, and_iff_left_iff_imp]
        exact fun hd => hd ▸ hkept
      · rw [getChildLinks, selfChildLinks_after h he hk, externalChildLinks_after h hk, getChildLinks]

/-! ## Two concrete histories -/

/-- Creates a part and an assembly, with a link between them if asked, commits both and
starts the release of the assembly. -/
def startRelease (withLink : Bool) : Plm Uuid := do
  let _ ← createNode partsEnv engineer none "nt-part" (some "P-1") none
  let assembly ← createNode partsEnv engineer none "nt-assembly" (some "A-1") none
  let txId ← findOrOpenTransaction engineer
  let _ ← (if withLink then createLink partsEnv engineer "lt-composed-of" assembly none none
    (some "P-1") txId (some "10") else pure 0)
  let _ ← commitTransaction partsEnv engineer txId (some "first") []
  let releaseTx ← openTransaction engineer
  createVersion partsEnv engineer assembly releaseTx .LIFECYCLE none (some "released") [] none

/-- The context the release action of a version gets. -/
def releaseContext (v : VersionRow) : StateActionContext := ⟨v.nodeId, "released", v.id, v.revision, []⟩

/-- What a test of a run of `startRelease` shows about the entering version. -/
theorem startRelease_entering (withLink : Bool) (test : Tables → VersionRow → Bool)
    (h : passes (startRelease withLink) Db.empty (fun vid s => s.versions.any fun v => v.id = vid
      ∧ (s.versions.all fun w => w.nodeId ≠ v.nodeId ∨ w.versionNumber ≤ v.versionNumber) = true
      ∧ test s.toTables v = true) = true) :
    ∃ s v, Returns (startRelease withLink) Db.empty v.id s
      ∧ Entering (releaseContext v) s.toTables v ∧ test s.toTables v = true := by
  obtain ⟨vid, s, hrun, hany⟩ := returns_of_passes h
  obtain ⟨v, hv, hall⟩ := List.any_eq_true.mp hany
  obtain ⟨rfl, hnewest, htest⟩ := of_decide_eq_true hall
  refine ⟨s, v, hrun, ⟨hv, rfl, rfl, fun w hw hnode => ?_⟩, htest⟩
  have hw := List.all_eq_true.mp hnewest w hw
  exact (of_decide_eq_true hw).resolve_left fun hne => hne hnode

/-- An assembly without children: the collapse preserves what is observed. -/
theorem collapseHistory_preserves_childless : ∃ s v,
    Returns (startRelease false) Db.empty v.id s ∧ s.collapsedIds (releaseContext v) ≠ [] ∧
      ∃ s', Returns (collapseHistory partsEnv (releaseContext v)) s () s'
        ∧ SameObserved partsEnv (releaseContext v) v s.toTables s'.toTables := by
  obtain ⟨s, v, hrun, he, htest⟩ := startRelease_entering false
    (fun t v => t.links = [] ∧ t.baselines = [] ∧ t.baselineEntries = []
      ∧ t.collapsedIds (releaseContext v) ≠ []) (by decide +kernel)
  obtain ⟨hlinks, hbaselines, hentries, hids⟩ := of_decide_eq_true htest
  have hk : CollapseKeepsAll (releaseContext v) s.toTables :=
    ⟨by simp [hentries], by simp [hlinks], by simp [hlinks], by simp [hbaselines]⟩
  exact ⟨s, v, hrun, hids, (collapseHistory_preserves_iff he).mpr fun _ => hk⟩

/-- The link the assembly got in its first version is gone from the released one. -/
theorem collapseHistory_loses_inherited_link : ∃ s v,
    Returns (startRelease true) Db.empty v.id s ∧ Entering (releaseContext v) s.toTables v
      ∧ (∃ s', Returns (collapseHistory partsEnv (releaseContext v)) s () s')
      ∧ ¬ ∃ s', Returns (collapseHistory partsEnv (releaseContext v)) s () s'
        ∧ SameObserved partsEnv (releaseContext v) v s.toTables s'.toTables := by
  obtain ⟨s, v, hrun, he, htest⟩ := startRelease_entering true
    (fun t v => (∃ l ∈ t.links, l.sourceNodeVersionId ∈ t.collapsedIds (releaseContext v)
      ∧ t.childRows l ≠ []) ∧ t.baselineEntries = []) (by decide +kernel)
  obtain ⟨⟨l, hl, hgone, hshown⟩, hentries⟩ := of_decide_eq_true htest
  have hcur : (releaseContext v).versionId ∈ s.versionIds := List.mem_map_of_mem he.stored
  refine ⟨s, v, hrun, he, ?_, ?_⟩
  · refine (collapseHistory_succeeds_iff rfl hcur).mpr fun e hmem => ?_
    rw [hentries] at hmem
    cases hmem
  · rintro ⟨s', hcollapse, hsame⟩
    have h := collapseHistory_ok rfl hcollapse
    exact hshown (noShownLink_of_same h (hsame.childLinks anAdmin) l hl hgone).2

end PlmCore.Psm
