/-
The logical ids of the links a version has, and how many of a type there are.

A version has the links it owns and those of the earlier committed versions of its node. The
cardinality is counted over all versions of the node, so it is never exceeded. The logical id is
compared with the links of one version only, and an update compares it with no pattern; whoever
takes a logical id that no other version of the node uses, and that fits, keeps the rules.
-/
import PlmCore.Lib.Run
import PlmCore.Psm.MethodRule
import PlmCore.Psm.Store

set_option autoImplicit false

namespace PlmCore.Psm

open PlmCore.Lib

/-! ## The rules -/

/-- The links of all versions of a node. -/
def Tables.linksOfNode (t : Tables) (nodeId : Uuid) : List LinkRow :=
  t.links.filter (t.isLinkOf nodeId)

/-- The rules on logical ids and cardinality, at every version. -/
structure LinkRules (env : Env) (t : Tables) : Prop where
  distinct : ∀ v ∈ t.versions, ((t.effectiveLinks v.nodeId v).map (·.linkLogicalId)).Nodup
  accepted : ∀ v ∈ t.versions, ∀ l ∈ t.effectiveLinks v.nodeId v,
    ∀ linkType ∈ env.getLinkType l.linkTypeId, linkType.accepts env l.linkLogicalId
  bounded : ∀ v ∈ t.versions, ∀ linkTypeId, ∀ linkType ∈ env.getLinkType linkTypeId,
    ∀ maxCard ∈ linkType.maxCardinality,
      ((t.effectiveLinks v.nodeId v).filter (·.linkTypeId = linkTypeId)).length ≤ maxCard

/-- The same rules over all versions of a node at once, which is what the requests keep. -/
structure NodeLinkRules (env : Env) (t : Tables) : Prop where
  distinct : ∀ nodeId, ((t.linksOfNode nodeId).map (·.linkLogicalId)).Nodup
  accepted : ∀ l ∈ t.links, ∀ linkType ∈ env.getLinkType l.linkTypeId,
    linkType.accepts env l.linkLogicalId
  bounded : ∀ nodeId linkTypeId, ∀ linkType ∈ env.getLinkType linkTypeId,
    ∀ maxCard ∈ linkType.maxCardinality,
      ((t.linksOfNode nodeId).filter (·.linkTypeId = linkTypeId)).length ≤ maxCard

/-- A link of another version of the node has the logical id. -/
def Tables.isTakenElsewhere (t : Tables) (nodeId : Uuid) (versionId : Option Uuid)
    (linkLogicalId : Option String) : Prop :=
  ∃ l ∈ t.linksOfNode nodeId, some l.sourceNodeVersionId ≠ versionId ∧ l.linkLogicalId = linkLogicalId

/-- The logical id a request gives to a link is not taken by a link of another version of the node,
and a logical id that replaces another one fits the pattern of the link type. -/
def StoreRequest.TakesFreeId (env : Env) (t : Tables) : StoreRequest → Prop
  | .authoring _ _ txId (.createLink _ nodeId _ _ _ linkLogicalId) =>
    ¬ t.isTakenElsewhere nodeId ((t.findOpenVersionInTx nodeId txId).map (·.id)) linkLogicalId
  | .authoring _ _ _ (.updateLink linkId u) => nullOrBlank u.logicalId = false →
    ∀ link ∈ t.links, link.id = linkId →
      (∀ nodeId, t.isLinkOf nodeId link = true →
        ¬ t.isTakenElsewhere nodeId (some link.sourceNodeVersionId) u.logicalId) ∧
      ∀ linkType ∈ env.getLinkType link.linkTypeId, linkType.accepts env u.logicalId
  | _ => True

/-- A link of the version is a link of its node. -/
theorem effectiveLinks_sublist (t : Tables) (v : VersionRow) :
    (t.effectiveLinks v.nodeId v).Sublist (t.linksOfNode v.nodeId) := by
  refine List.monotone_filter_right _ fun l hl => ?_
  simp only [Tables.isEffectiveLink, Tables.isLinkOf, List.any_eq_true, decide_eq_true_eq] at hl ⊢
  obtain ⟨w, hw, hid, hnode, -⟩ := hl
  exact ⟨w, hw, hid, hnode⟩

theorem NodeLinkRules.linkRules {env : Env} {t : Tables} (h : NodeLinkRules env t) :
    LinkRules env t where
  distinct v _ := (h.distinct v.nodeId).sublist ((effectiveLinks_sublist t v).map _)
  accepted _ _ l hl := h.accepted l (List.mem_of_mem_filter hl)
  bounded v _ linkTypeId linkType htype maxCard hmax :=
    ((effectiveLinks_sublist t v).filter _).length_le.trans
      (h.bounded v.nodeId linkTypeId linkType htype maxCard hmax)

/-! ## Requests that leave the links as they are -/

/-- The versions with their nodes. -/
def Tables.owners (t : Tables) : List (Uuid × Uuid) := t.versions.map fun v => (v.id, v.nodeId)

theorem isLinkOf_iff_owners {t : Tables} {nodeId : Uuid} {l : LinkRow} :
    t.isLinkOf nodeId l = true ↔ (l.sourceNodeVersionId, nodeId) ∈ t.owners := by
  simp [Tables.isLinkOf, Tables.owners]

theorem isLinkOf_congr {t t' : Tables} (h : t'.owners = t.owners) : t'.isLinkOf = t.isLinkOf := by
  funext nodeId l
  rw [Bool.eq_iff_iff, isLinkOf_iff_owners, isLinkOf_iff_owners, h]

/-- The links of the second store are links of the first, of the same nodes. -/
structure LinksStay (t t' : Tables) : Prop where
  links : t'.links.Sublist t.links
  owner : ∀ l ∈ t'.links, ∀ nodeId, t'.isLinkOf nodeId l = true → t.isLinkOf nodeId l = true

namespace LinksStay

variable {t t₁ t' : Tables}

theorem refl (t : Tables) : LinksStay t t := ⟨.refl _, fun _ _ _ h => h⟩

theorem trans (h : LinksStay t t₁) (h' : LinksStay t₁ t') : LinksStay t t' where
  links := h'.links.trans h.links
  owner l hl nodeId hlink := h.owner l (h'.links.subset hl) nodeId (h'.owner l hl nodeId hlink)

/-- Versions may go, but none comes. -/
theorem of_subset (hlinks : t'.links.Sublist t.links) (howners : t'.owners ⊆ t.owners) :
    LinksStay t t' where
  links := hlinks
  owner _ _ _ h := isLinkOf_iff_owners.mpr (howners (isLinkOf_iff_owners.mp h))

theorem withEvents (h : LinksStay t t') (es : List PlmEvent) : LinksStay t (t'.withEvents es) :=
  { h with }

/-- Versions come, and the links have theirs already. -/
theorem of_new {s s' : Db} (hlinks : s'.links = s.links) (howners : s.owners ⊆ s'.owners) :
    LinksStay s.toTables s'.toTables where
  links := hlinks ▸ .refl _
  owner l hl nodeId h := by
    rw [hlinks] at hl
    obtain ⟨v, hv, hid⟩ := List.mem_map.mp (s.valid.fk_link_version l hl)
    have howner : (l.sourceNodeVersionId, v.nodeId) ∈ s.owners := List.mem_map.mpr ⟨v, hv, by rw [hid]⟩
    obtain ⟨w, hw, hwkey⟩ := List.mem_map.mp (isLinkOf_iff_owners.mp h)
    obtain ⟨w', hw', hwkey'⟩ := List.mem_map.mp (howners howner)
    -- an id names one version, so it is the version the link had
    obtain ⟨hwid, rfl⟩ := Prod.mk.inj hwkey
    obtain ⟨hwid', hwnode'⟩ := Prod.mk.inj hwkey'
    have hsame := List.inj_on_of_nodup_map s'.valid.pk_version hw hw' (hwid.trans hwid'.symm)
    rw [isLinkOf_iff_owners, hsame, hwnode']
    exact howner

theorem sublist (h : LinksStay t t') (nodeId : Uuid) :
    (t'.linksOfNode nodeId).Sublist (t.linksOfNode nodeId) := by
  have hfilter : t'.linksOfNode nodeId =
      (t'.links.filter (t.isLinkOf nodeId)).filter (t'.isLinkOf nodeId) := by
    rw [List.filter_filter]
    refine List.filter_congr fun l hl => ?_
    by_cases hlink : t'.isLinkOf nodeId l = true
    · rw [hlink, h.owner l hl nodeId hlink]
      rfl
    · rw [Bool.not_eq_true] at hlink
      rw [hlink]
      rfl
  rw [hfilter]
  exact List.filter_sublist.trans (h.links.filter _)

/-- **Such a step keeps the rules.** -/
theorem rules {env : Env} (h : LinksStay t t') (hr : NodeLinkRules env t) : NodeLinkRules env t' where
  distinct nodeId := (hr.distinct nodeId).sublist ((h.sublist nodeId).map _)
  accepted l hl := hr.accepted l (h.links.subset hl)
  bounded nodeId linkTypeId linkType htype maxCard hmax :=
    ((h.sublist nodeId).filter _).length_le.trans
      (hr.bounded nodeId linkTypeId linkType htype maxCard hmax)

end LinksStay

section Requests

variable {env : Env} {ctx : Caller} {x nodeId : Uuid} {s s' : Db}

theorem owners_eq_map (t : Tables) : t.owners = t.versionKeys.map fun k => (k.id, k.nodeId) := by
  rw [Tables.versionKeys, List.map_map]
  rfl

theorem owners_of_keys {t t' : Tables} (h : t'.versionKeys = t.versionKeys) : t'.owners = t.owners := by
  rw [owners_eq_map, h, owners_eq_map]

/-- Storing a digest and publishing events moves no version. -/
theorem owners_told (t : Tables) (nodeId : Uuid) (v : VersionRow) (es : List PlmEvent) :
    ((t.refresh env nodeId v).withEvents es).owners = t.owners :=
  owners_of_keys (versionKeys_refresh env nodeId v t)

theorem linksStay_of_same {t t' : Tables} (hlinks : t'.links = t.links)
    (hkeys : t'.versionKeys = t.versionKeys) : LinksStay t t' :=
  .of_subset (hlinks ▸ .refl _) (owners_of_keys hkeys ▸ List.Subset.refl _)

theorem linksStay_tryLock (h : Returns (tryLock ctx nodeId) s () s') :
    LinksStay s.toTables s'.toTables := by
  rw [tryLock_frame h]
  exact linksStay_of_same rfl rfl

theorem linksStay_of_extended (hlinks : s'.links = s.links) (hkeys : s.versionKeys <+: s'.versionKeys) :
    LinksStay s.toTables s'.toTables := by
  refine .of_new hlinks ?_
  rw [owners_eq_map, owners_eq_map]
  exact List.map_subset _ hkeys.subset

theorem linksStay_openTransaction (h : Returns (openTransaction ctx) s x s') :
    LinksStay s.toTables s'.toTables := by
  rw [(openTransaction_ok h).2]
  exact linksStay_of_same rfl rfl

/-- The methods on nodes and the transitions write no link, and no version takes one over. -/
theorem linksStay_rule (env : Env) : MethodRule env LinksStay where
  refl := .refl
  trans := .trans
  events t es := (LinksStay.refl t).withEvents es
  rows h := by
    refine linksStay_of_same ?_ h.versionKeys
    rw [h.tables]
  described vid description t := by
    refine linksStay_of_same ?_ (versionKeys_describe vid description t)
    unfold Tables.describe
    split <;> rfl
  refreshed nodeId v t := linksStay_of_same rfl (versionKeys_refresh env nodeId v t)
  locked := linksStay_tryLock
  opened := linksStay_openTransaction
  versioned h := by
    obtain ⟨hkeys, -, -, hlinks, -⟩ := createVersion_keys h
    exact linksStay_of_extended hlinks (hkeys ▸ List.prefix_append _ _)
  collapsed h := by
    obtain rfl | hcollapsed := collapseHistory_cases h
    · exact .refl _
    · refine .of_subset (hcollapsed.links ▸ List.filter_sublist) ?_
      rw [Tables.owners, hcollapsed.versions, List.map_map]
      exact List.map_subset _ List.filter_sublist.subset

theorem linksStay_createNode {projectSpaceId : Option String} {nodeTypeId : String}
    {logicalId externalId : Option String}
    (h : Returns (createNode env ctx projectSpaceId nodeTypeId logicalId externalId) s nodeId s') :
    LinksStay s.toTables s'.toTables := by
  obtain ⟨y, s₁, s₂, s₃, row, es, -, -, hins, hlock, htx, -, hs'⟩ := createNode_ok h
  have hinserted : LinksStay s.toTables s₁.toTables := by
    rw [hins]
    exact linksStay_of_same rfl rfl
  have hadded : LinksStay s₃.toTables s'.toTables := by
    refine linksStay_of_extended (by rw [hs']; rfl) ?_
    rw [hs']
    change _ <+: (s₃.addVersion env row [] []).versionKeys
    rw [versionKeys_addVersion]
    exact List.prefix_append _ _
  exact hinserted.trans ((linksStay_tryLock hlock).trans (((linksStay_rule env).findOrOpenTransaction htx).trans
    hadded))

theorem linksStay_commit {comment : Option String} {selected : List Uuid} {o : Option Uuid}
    (h : Returns (commitTransaction env ctx x comment selected) s o s') :
    LinksStay s.toTables s'.toTables := by
  obtain ⟨⟨y, hcommits⟩, -, -⟩ := commitTransaction_commits h
  refine .of_subset (hcommits.links ▸ .refl _) ?_
  rw [Tables.owners, hcommits.versions, List.map_map, Tables.owners]
  have hsame : s.versions.map ((fun v => (v.id, v.nodeId)) ∘ fun v => v.deferTo x y
      (deferredNodeIds (s.affectedNodes x) selected)) = s.versions.map fun v => (v.id, v.nodeId) := by
    refine List.map_congr_left fun v _ => ?_
    simp only [Function.comp_apply, VersionRow.deferTo]
    split <;> rfl
  exact hsame ▸ List.Subset.refl _

theorem Discards.linksStay {p : VersionSelection} {gone : List Uuid} {t t' : Tables}
    (h : Discards p gone t t') : LinksStay t t' := by
  refine .of_subset (h.links ▸ List.filter_sublist) ?_
  rw [Tables.owners, h.versions]
  exact List.map_subset _ List.filter_sublist.subset

end Requests

/-! ## Requests that write a link -/

section Links

variable {env : Env} {ctx : Caller} {linkId : Uuid} {s s' : Db}

/-- The version the transaction holds of the node is the one that gets the link. -/
theorem ensureOpenVersion_found {nodeId x sv : Uuid} {v : VersionRow}
    (h : Returns (ensureOpenVersion env ctx nodeId x) s sv s')
    (hfound : s.findOpenVersionInTx nodeId x = some v) : v.id = sv := by
  simp only [ensureOpenVersion, returns_bind, returns_query, hfound, and_assoc, exists_and_left,
    exists_eq_left] at h
  exact (returns_pure.mp h).1.symm

/-- The links of a node after one was added to a version of `nodeId`. -/
theorem linksOfNode_insert {t t' : Tables} {l : LinkRow} {nodeId : Uuid}
    (hlinks : t'.links = t.links ++ [l]) (howners : t'.owners = t.owners)
    (hl : ∀ n, t.isLinkOf n l = true ↔ n = nodeId) (n : Uuid) :
    t'.linksOfNode n = t.linksOfNode n ++ if n = nodeId then [l] else [] := by
  rw [Tables.linksOfNode, hlinks, isLinkOf_congr howners, List.filter_append]
  by_cases hn : n = nodeId
  · simp [Tables.linksOfNode, hn, (hl nodeId).mpr rfl]
  · have hnot : t.isLinkOf n l = false := by
      rw [← Bool.not_eq_true]
      exact fun h => hn ((hl n).mp h)
    simp [Tables.linksOfNode, hn, hnot]

theorem rules_createLink {linkTypeId : String} {nodeId txId : Uuid}
    {sourceCode type key linkLogicalId : Option String} (hr : NodeLinkRules env s.toTables)
    (h : Returns (createLink env ctx linkTypeId nodeId sourceCode type key txId linkLogicalId)
      s linkId s')
    (hfree : ¬ s.isTakenElsewhere nodeId ((s.findOpenVersionInTx nodeId txId).map (·.id))
      linkLogicalId) : NodeLinkRules env s'.toTables := by
  obtain ⟨linkType, target, sv, s₁, s₂, v, hlinkType, haccepts, hroom, -, hensure, hlock, -, hfresh, -,
    hv, hvid, hs'⟩ := createLink_checked h
  obtain ⟨-, w, hw, hwid, hwnode, -⟩ := ensureOpenVersion_ok hensure
  have hstay : LinksStay s.toTables s₂.toTables :=
    ((linksStay_rule env).ensureOpenVersion hensure).trans (linksStay_tryLock hlock)
  have hr₂ : NodeLinkRules env s₂.toTables := hstay.rules hr
  have hvnode : v.nodeId = nodeId := by
    have hw₂ : w ∈ s₂.versions := by
      rw [tryLock_frame hlock]
      exact hw
    rw [List.inj_on_of_nodup_map s₂.valid.pk_version hv hw₂ (hvid.trans hwid.symm), hwnode]
  set l := newLink ctx linkId linkTypeId sv target linkLogicalId with hl
  have hlinks : s'.links = s₂.links ++ [l] := by
    rw [hs']
    rfl
  have howners : s'.owners = s₂.owners := by
    rw [hs', owners_told]
    rfl
  have howner : ∀ n, s₂.isLinkOf n l = true ↔ n = nodeId := by
    intro n
    rw [isLinkOf_iff_owners]
    constructor
    · intro hmem
      obtain ⟨u, hu, hkey⟩ := List.mem_map.mp hmem
      obtain ⟨huid, rfl⟩ := Prod.mk.inj hkey
      rw [List.inj_on_of_nodup_map s₂.valid.pk_version hu hv (huid.trans hvid.symm), hvnode]
    · rintro rfl
      exact List.mem_map.mpr ⟨v, hv, by rw [hvid, hvnode]; rfl⟩
  have hof := linksOfNode_insert hlinks howners howner
  -- a link of the version fails the check, a link of another version the condition
  have hnew : ∀ m ∈ s₂.linksOfNode nodeId, m.linkLogicalId ≠ linkLogicalId := by
    intro m hm hsame
    by_cases hown : m.sourceNodeVersionId = sv
    · exact hfresh m (List.mem_filter.mpr ⟨List.mem_of_mem_filter hm, by simpa using hown⟩) hsame
    · refine hfree ⟨m, (hstay.sublist nodeId).subset hm, fun hfound => hown ?_, hsame⟩
      obtain ⟨u, hu, huid⟩ := Option.map_eq_some_iff.mp hfound.symm
      rw [← huid, ensureOpenVersion_found hensure hu]
  constructor
  · intro n
    rw [hof]
    by_cases hn : n = nodeId
    · rw [if_pos hn, hn, List.map_append, List.nodup_append]
      refine ⟨hr₂.distinct nodeId, List.nodup_singleton _, fun a ha b hb => ?_⟩
      obtain ⟨m, hm, rfl⟩ := List.mem_map.mp ha
      rw [List.mem_singleton.mp hb]
      exact hnew m hm
    · rw [if_neg hn, List.append_nil]
      exact hr₂.distinct n
  · intro m hm linkType' htype
    rw [hlinks, List.mem_append, List.mem_singleton] at hm
    obtain hm | rfl := hm
    · exact hr₂.accepted m hm linkType' htype
    · rw [Option.mem_def] at htype
      rw [← Option.some.inj (hlinkType.symm.trans htype)]
      exact haccepts
  · intro n typeId linkType' htype maxCard hmax
    rw [hof, List.filter_append, List.length_append]
    have hbound := hr₂.bounded n typeId linkType' htype maxCard hmax
    by_cases hn : n = nodeId
    · by_cases htypeId : linkTypeId = typeId
      · -- the check counted the links of all versions of the node
        rw [Option.mem_def, ← htypeId] at htype
        rw [← Option.some.inj (hlinkType.symm.trans htype)] at hmax
        have hcount := hroom maxCard hmax
        have hle := ((hstay.sublist nodeId).filter (·.linkTypeId = linkTypeId)).length_le
        have hsame : (s.linksOfNode nodeId).filter (·.linkTypeId = linkTypeId) =
            s.links.filter fun l => l.linkTypeId = linkTypeId ∧ s.isLinkOf nodeId l := by
          rw [Tables.linksOfNode, List.filter_filter]
          refine List.filter_congr fun m _ => ?_
          simp
        rw [hsame] at hle
        rw [if_pos hn, hn, ← htypeId]
        have hone : ([l].filter (·.linkTypeId = linkTypeId)).length ≤ 1 := List.length_filter_le _ _
        omega
      · have hnone : [l].filter (·.linkTypeId = typeId) = [] := by
          simp [hl, newLink, htypeId]
        rw [if_pos hn, hnone]
        exact hbound
    · rw [if_neg hn]
      exact hbound

theorem rules_deleteLink (hr : NodeLinkRules env s.toTables)
    (h : Returns (deleteLink env ctx linkId) s () s') : NodeLinkRules env s'.toTables := by
  obtain ⟨link, source, s₁, es, -, -, -, -, hlock, hs'⟩ := deleteLink_ok h
  refine ((linksStay_tryLock hlock).trans (.of_subset ?_ ?_)).rules hr
  · rw [hs']
    exact List.filter_sublist
  · have howners : s'.owners = s₁.owners := by
      rw [hs', owners_told]
      rfl
    exact howners ▸ List.Subset.refl _

/-- The links of a node after a link was rewritten: it stays the link of its version. -/
theorem linksOfNode_rewrite {t t' : Tables} {target : LinkTarget} {logicalId : Option String}
    (hlinks : t'.links = t.links.map fun l =>
      if l.id = linkId then l.pointingAt target logicalId else l)
    (howners : t'.owners = t.owners) (n : Uuid) :
    t'.linksOfNode n = (t.linksOfNode n).map fun l =>
      if l.id = linkId then l.pointingAt target logicalId else l := by
  rw [Tables.linksOfNode, hlinks, isLinkOf_congr howners, List.filter_map, Tables.linksOfNode]
  congr 1
  refine List.filter_congr fun l _ => ?_
  simp only [Function.comp_apply]
  split <;> rfl

theorem rules_updateLink {u : LinkUpdate} (hr : NodeLinkRules env s.toTables)
    (h : Returns (updateLink env ctx linkId u) s () s')
    (hfree : nullOrBlank u.logicalId = false → ∀ link ∈ s.links, link.id = linkId →
      (∀ nodeId, s.isLinkOf nodeId link = true →
        ¬ s.isTakenElsewhere nodeId (some link.sourceNodeVersionId) u.logicalId) ∧
      ∀ linkType ∈ env.getLinkType link.linkTypeId, linkType.accepts env u.logicalId) :
    NodeLinkRules env s'.toTables := by
  obtain ⟨link, source, s₁, target, logicalId, rows, v, es, hlink, rfl, hsource, hsid, hlock, hrenames,
    -, -, -, -, hs'⟩ := updateLink_checked h
  have howners : s'.owners = s.owners := by
    rw [hs', owners_told, tryLock_frame hlock]
    rfl
  have hlinks : s'.links = s.links.map fun l =>
      if l.id = link.id then l.pointingAt target logicalId else l := by
    rw [hs']
    change s₁.links.map _ = _
    rw [tryLock_frame hlock]
  have hof := linksOfNode_rewrite hlinks howners
  have honly : ∀ l ∈ s.links, l.id = link.id → l = link :=
    fun l hl hid => List.inj_on_of_nodup_map s.valid.pk_link hl hlink hid
  -- no other link of the node has the logical id the link gets
  have hother : ∀ n, s.isLinkOf n link = true → ∀ l ∈ s.linksOfNode n, l.id ≠ link.id →
      l.linkLogicalId ≠ logicalId := by
    intro n hn l hl hid hsame
    obtain ⟨-, rfl⟩ | ⟨hblank, rfl, hdup⟩ := hrenames
    · have hmem : link ∈ s.linksOfNode n := List.mem_filter.mpr ⟨hlink, hn⟩
      exact hid (congrArg _ (List.inj_on_of_nodup_map (hr.distinct n) hl hmem hsame))
    · by_cases hown : l.sourceNodeVersionId = link.sourceNodeVersionId
      · refine hdup l (List.mem_filter.mpr ⟨List.mem_of_mem_filter hl, ?_⟩) hid hsame
        simpa using hown
      · refine (hfree hblank link hlink rfl).1 n hn ⟨l, hl, fun hsome => ?_, hsame⟩
        exact hown (Option.some.inj hsome)
  constructor
  · intro n
    rw [hof, List.map_map]
    have hnodup : (s.linksOfNode n).Nodup :=
      (List.Nodup.of_map _ s.valid.pk_link).sublist List.filter_sublist
    refine hnodup.map_on fun a ha b hb hab => ?_
    obtain ⟨hal, han⟩ := List.mem_filter.mp ha
    obtain ⟨hbl, hbn⟩ := List.mem_filter.mp hb
    simp only [Function.comp_apply] at hab
    by_cases haid : a.id = link.id <;> by_cases hbid : b.id = link.id
    · rw [honly a hal haid, honly b hbl hbid]
    · rw [if_pos haid, if_neg hbid] at hab
      rw [honly a hal haid] at han
      exact absurd hab.symm (hother n han b hb hbid)
    · rw [if_neg haid, if_pos hbid] at hab
      rw [honly b hbl hbid] at hbn
      exact absurd hab (hother n hbn a ha haid)
    · rw [if_neg haid, if_neg hbid] at hab
      exact List.inj_on_of_nodup_map (hr.distinct n) ha hb hab
  · intro l' hl' linkType htype
    rw [hlinks] at hl'
    obtain ⟨l, hl, rfl⟩ := List.mem_map.mp hl'
    by_cases hid : l.id = link.id
    · rw [if_pos hid] at htype ⊢
      rw [honly l hl hid] at htype
      obtain ⟨-, rfl⟩ | ⟨hblank, rfl, -⟩ := hrenames
      · exact hr.accepted link hlink linkType htype
      · exact (hfree hblank link hlink rfl).2 linkType htype
    · rw [if_neg hid] at htype ⊢
      exact hr.accepted l hl linkType htype
  · intro n typeId linkType htype maxCard hmax
    rw [hof, List.filter_map, List.length_map]
    have hsame : (s.linksOfNode n).filter ((fun l : LinkRow => decide (l.linkTypeId = typeId)) ∘
        fun l => if l.id = link.id then l.pointingAt target logicalId else l) =
        (s.linksOfNode n).filter (·.linkTypeId = typeId) := by
      refine List.filter_congr fun l _ => ?_
      simp only [Function.comp_apply]
      split <;> rfl
    rw [hsame]
    exact hr.bounded n typeId linkType htype maxCard hmax

end Links

/-! ## Runs -/

/-- **A request of a user** that takes a free logical id, when it names a link, keeps the rules. -/
theorem rules_authoring {env : Env} {ctx : Caller} {depth : Nat} {x : Uuid} {op : AuthoringOp} {s s' : Db}
    (hr : NodeLinkRules env s.toTables) (h : Returns (op.run env ctx depth x) s () s')
    (hfree : (StoreRequest.authoring ctx depth x op).TakesFreeId env s.toTables) :
    NodeLinkRules env s'.toTables := by
  cases op with
  | createNode projectSpaceId nodeTypeId logicalId externalId =>
    obtain ⟨nodeId, h⟩ := returns_void.mp h
    -- a call that adds and retargets no link keeps the rules
    exact (linksStay_createNode h).rules hr
  | checkout nodeId namesTransaction =>
    obtain ⟨vid, h⟩ := returns_void.mp h
    exact ((linksStay_rule env).checkout h).rules hr
  | modifyNode nodeId attributes description strategy =>
    obtain ⟨vid, h⟩ := returns_void.mp h
    exact ((linksStay_rule env).modifyNode h).rules hr
  | createLink linkTypeId nodeId sourceCode type key linkLogicalId =>
    obtain ⟨linkId, h⟩ := returns_void.mp h
    -- the two calls that choose a logical id
    exact rules_createLink hr h hfree
  | updateLink linkId update => exact rules_updateLink hr h hfree
  | deleteLink linkId => exact rules_deleteLink hr h
  | assignDomain nodeId domainId =>
    exact ((linksStay_rule env).domainAction (fun _ _ _ _ _ => assignDomain_ok) h).rules hr
  | unassignDomain nodeId domainId =>
    exact ((linksStay_rule env).domainAction (fun _ _ _ _ _ => unassignDomain_ok) h).rules hr
  | transition nodeId transitionId =>
    obtain ⟨vid, h⟩ := returns_void.mp h
    exact ((linksStay_rule env).transition h).rules hr
  | commit comment selectedNodeIds =>
    obtain ⟨o, h⟩ := returns_void.mp h
    exact (linksStay_commit h).rules hr
  | addComment nodeId nodeVersionId text parentCommentId attributeName =>
    obtain ⟨id, h⟩ := returns_void.mp h
    obtain ⟨v, c, es, -, -, -, -, -, hs'⟩ := addComment_ok h
    have hstay : LinksStay s.toTables s'.toTables := by
      rw [hs']
      exact linksStay_of_same rfl rfl
    exact hstay.rules hr
  | sign nodeId meaning comment =>
    obtain ⟨id, h⟩ := returns_void.mp h
    obtain ⟨v, g, es, -, -, -, hs'⟩ := sign_ok h
    have hstay : LinksStay s.toTables s'.toTables := by
      rw [hs']
      exact linksStay_of_same rfl rfl
    exact hstay.rules hr

/-- **Every request** that takes a free logical id, when it names a link, keeps the rules. -/
theorem rules_method {env : Env} {r : StoreRequest} {s s' : Db} (hr : NodeLinkRules env s.toTables)
    (h : Returns (r.method env) s () s') (hfree : r.TakesFreeId env s.toTables) :
    NodeLinkRules env s'.toTables := by
  cases r with
  | openTransaction ctx =>
    obtain ⟨x, h⟩ := returns_void.mp h
    exact (linksStay_openTransaction h).rules hr
  | authoring ctx depth txId op => exact rules_authoring hr h hfree
  | rollback ctx txId => exact (rollbackTransaction_discards h).1.linksStay.rules hr
  | release ctx txId nodeIds => exact (releaseNodes_discards h).1.linksStay.rules hr
  | cleanStale now => exact (cleanStaleTransactions_discards h).1.linksStay.rules hr
  | lock ctx nodeId => exact (linksStay_tryLock h).rules hr
  | unlock nodeId =>
    obtain ⟨es, hs'⟩ := unlock_ok h
    have hstay : LinksStay s.toTables s'.toTables := by
      rw [hs']
      exact linksStay_of_same rfl rfl
    exact hstay.rules hr
  | createBaseline ctx depth rootNodeId name description =>
    obtain ⟨id, h⟩ := returns_void.mp h
    obtain ⟨-, entries, hs'⟩ := createBaseline_ok h
    have hstay : LinksStay s.toTables s'.toTables := by
      rw [hs']
      exact linksStay_of_same rfl rfl
    exact hstay.rules hr

/-- The request is refused, or takes a free logical id. -/
def StoreRequest.NamesFreely (env : Env) (s : Db) (r : StoreRequest) : Prop :=
  r.Succeeds env s → r.TakesFreeId env s.toTables

/-- **The rules on links hold** in every state of a run from a store without links whose requests
are each refused or take a free logical id. -/
theorem link_rules_hold {env : Env} {start : Db} {rs : List StoreRequest} (hstart : start.links = [])
    (h : Along (Db.step env) (fun s r => r.NamesFreely env s) start rs)
    (past : List StoreRequest) (hpast : past <+: rs) :
    LinkRules env (run (Db.step env) start past).toTables := by
  have hfirst : NodeLinkRules env start.toTables := by
    constructor
    · simp [Tables.linksOfNode, hstart]
    · simp [hstart]
    · simp [Tables.linksOfNode, hstart]
  have hstep : ∀ (s : Db) (r : StoreRequest), NodeLinkRules env s.toTables → r.NamesFreely env s →
      NodeLinkRules env (s.step env r).toTables := fun s r hr hfree =>
    Db.step_invariant (fun s => NodeLinkRules env s.toTables) hr
      fun s' hrun => rules_method hr hrun (hfree ⟨s', hrun⟩)
  obtain ⟨rest, rfl⟩ := hpast
  exact (Along.invariant hstep hfirst (Along.append.mp h).1).linkRules

/-! ## Two parts -/

instance (t : Tables) (nodeId : Uuid) (versionId : Option Uuid) (linkLogicalId : Option String) :
    Decidable (t.isTakenElsewhere nodeId versionId linkLogicalId) :=
  inferInstanceAs (Decidable (∃ l ∈ t.linksOfNode nodeId, _))

/-- Creates a part in the transaction `1`. -/
def createsPart (logicalId : String) : StoreRequest :=
  .authoring engineer 1 1 (.createNode none "nt-part" (some logicalId) none)

/-- Links the first part to the second one. -/
def linksParts (txId : Uuid) (linkLogicalId : String) : StoreRequest :=
  .authoring engineer 1 txId
    (.createLink "lt-composed-of" 0 none none (some "P-2") (some linkLogicalId))

/-- Two parts that are linked and committed. -/
def linkedParts : List StoreRequest :=
  [createsPart "P-1", createsPart "P-2", linksParts 1 "a", .authoring engineer 1 1 (.commit (some "first") [])]

/-- A second link of a later version with an id of its own. -/
theorem link_rules_hold_two_links :
    LinkRules partsEnv (run (Db.step partsEnv) Db.empty
      (linkedParts ++ [.openTransaction engineer, linksParts 6 "b"])).toTables := by
  have hfree : ∀ (s : Db) (r : StoreRequest), r.TakesFreeId partsEnv s.toTables → r.NamesFreely partsEnv s :=
    fun _ _ h _ => h
  refine link_rules_hold rfl ?_ _ (List.prefix_refl _)
  refine ⟨hfree _ _ trivial, hfree _ _ trivial, hfree _ _ ?_, hfree _ _ trivial, hfree _ _ trivial,
    hfree _ _ ?_, trivial⟩
  · change ¬ _
    decide +kernel
  · change ¬ _
    decide +kernel

/-- **A logical id is used twice**: the links of the committed version are not looked at when the
next version gets a link. -/
theorem second_link_repeats_id : Db.empty.links = [] ∧
    ¬ LinkRules partsEnv (run (Db.step partsEnv) Db.empty
      (linkedParts ++ [.openTransaction engineer, linksParts 6 "a"])).toTables := by
  refine ⟨rfl, fun h => ?_⟩
  have htwice : ∃ v ∈ (run (Db.step partsEnv) Db.empty
      (linkedParts ++ [.openTransaction engineer, linksParts 6 "a"])).versions,
      ¬ (((run (Db.step partsEnv) Db.empty (linkedParts ++
        [.openTransaction engineer, linksParts 6 "a"])).effectiveLinks v.nodeId v).map
          (·.linkLogicalId)).Nodup := by
    decide +kernel
  obtain ⟨v, hv, hrepeated⟩ := htwice
  exact hrepeated (h.distinct v hv)

end PlmCore.Psm
