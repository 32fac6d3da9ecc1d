/-
The part of the store outside a PLM transaction.

`outside x` drops what hangs on the versions of the transaction `x`: the versions with their
attributes, domains, links, annotations and recorded links, and the nodes that have no
other version. It also forgets the lock columns, the outbox and the id supply, which are
not part of the versioned content. An operation that works inside `x` leaves `outside x`
as it is, row by row and in the same order; rolling `x` back leaves just `outside x`.

The lemmas below say which statements keep it. They are stated for the tables a statement
computes, and the operations are read off from their specifications.
-/
import PlmCore.Psm.Link
import PlmCore.Psm.TransactionEffect

set_option autoImplicit false

namespace PlmCore.Psm

open PlmCore.Lib

/-! ## Definition -/

namespace Tables

variable (x : Uuid) (t : Tables)

/-- Some version of the node is not in the transaction. -/
def hasVersionOutside (nodeId : Uuid) : Bool := t.versions.any fun v => v.nodeId = nodeId ∧ v.txId ≠ x

/-- What is left of the store without the transaction `x`. -/
def outside : Tables where
  txs := t.txs.filter (·.id ≠ x)
  nodes := (t.nodes.filter fun n => t.hasVersionOutside x n.id).map NodeRow.unlocked
  versions := t.versions.filter (·.txId ≠ x)
  attributes := t.attributes.filter (·.nodeVersionId ∉ t.selectVersionIds (ofTx x))
  links := t.links.filter (·.sourceNodeVersionId ∉ t.selectVersionIds (ofTx x))
  linkAttributes := t.linkAttributes.filter (·.nodeLinkId ∉ t.selectLinkIds (ofTx x))
  domains := t.domains.filter (·.nodeVersionId ∉ t.selectVersionIds (ofTx x))
  signatures := t.signatures.filter (·.nodeVersionId ∉ t.selectVersionIds (ofTx x))
  baselines := t.baselines
  baselineEntries := t.baselineEntries.filter (·.nodeLinkId ∉ t.selectLinkIds (ofTx x))
  comments := t.comments.filter (·.nodeVersionId ∉ t.selectVersionIds (ofTx x))
  outbox := []
  nextId := 0

end Tables

variable {x : Uuid} {t t' : Tables}

/-! ## Statements that do not touch the content -/

@[simp] theorem outside_withEvents (es : List PlmEvent) :
    (t.withEvents es).outside x = t.outside x := rfl

@[simp] theorem outside_takeId : t.takeId.outside x = t.outside x := rfl

/-- Locks are not part of the content. -/
@[simp] theorem outside_setLock (nodeId : Uuid) (b : Option String) (a : Option Nat) :
    (t.setLock nodeId b a).outside x = t.outside x := by
  refine Tables.ext rfl ?_ rfl rfl rfl rfl rfl rfl rfl rfl rfl rfl rfl
  change (((t.nodes.map fun n => if n.id = nodeId then { n with lockedBy := b, lockedAt := a } else
    n).filter fun n => t.hasVersionOutside x n.id).map NodeRow.unlocked) = _
  rw [List.filter_map, List.map_map]
  have hfilter : (t.nodes.filter ((fun n : NodeRow => t.hasVersionOutside x n.id) ∘ fun n : NodeRow =>
      if n.id = nodeId then { n with lockedBy := b, lockedAt := a } else n))
      = t.nodes.filter fun n => t.hasVersionOutside x n.id := by
    refine List.filter_congr fun n _ => ?_
    simp only [Function.comp_apply]
    split <;> rfl
  rw [hfilter]
  refine List.map_congr_left fun n _ => ?_
  simp only [Function.comp_apply]
  split <;> rfl

/-- `tryLock` leaves the content as it is. -/
theorem outside_tryLock {ctx : Caller} {nodeId : Uuid} {s s' : Db}
    (h : Returns (tryLock ctx nodeId) s () s') : s'.outside x = s.outside x := by
  obtain ⟨n, -, ⟨-, rfl⟩ | ⟨-, h⟩⟩ := tryLock_ok h
  · rfl
  · rw [h, outside_withEvents, outside_setLock]

/-! ## Statements on rows of the transaction's versions -/

/-- Rewriting a version of the transaction, its keys apart. -/
theorem outside_updateVersion {vid : Uuid} {f : VersionRow → VersionRow}
    (hown : ∀ v ∈ t.versions, v.id = vid → v.txId = x) (hid : ∀ v, (f v).id = v.id)
    (hnode : ∀ v, (f v).nodeId = v.nodeId) (htx : ∀ v, (f v).txId = v.txId) :
    (t.updateVersion vid f).outside x = t.outside x := by
  have hg : ∀ v, (if v.id = vid then f v else v).id = v.id
      ∧ (if v.id = vid then f v else v).nodeId = v.nodeId
      ∧ (if v.id = vid then f v else v).txId = v.txId := by
    intro v
    split
    · exact ⟨hid v, hnode v, htx v⟩
    · exact ⟨rfl, rfl, rfl⟩
  have hversions : (t.updateVersion vid f).versions.filter (·.txId ≠ x) = t.versions.filter (·.txId ≠ x) := by
    refine filter_map_of_not (fun v _ => by simp [(hg v).2.2]) fun v hv hne => ?_
    rw [if_neg fun h => (of_decide_eq_true hne) (hown v hv h)]
  have hsel : (t.updateVersion vid f).selectVersionIds (ofTx x) = t.selectVersionIds (ofTx x) := by
    simp only [Tables.selectVersionIds, Tables.updateVersion, List.filter_map, List.map_map]
    have hfilter : t.versions.filter (ofTx x ∘ fun v => if v.id = vid then f v else v)
        = t.versions.filter (ofTx x) :=
      List.filter_congr fun v _ => by simp [ofTx, (hg v).2.2]
    rw [hfilter]
    exact List.map_congr_left fun v _ => (hg v).1
  have hlinks : (t.updateVersion vid f).selectLinkIds (ofTx x) = t.selectLinkIds (ofTx x) := by
    simp only [Tables.selectLinkIds, hsel]
    rfl
  have hhas : ∀ nodeId, (t.updateVersion vid f).hasVersionOutside x nodeId
      = t.hasVersionOutside x nodeId := by
    intro nodeId
    simp only [Tables.hasVersionOutside, Tables.updateVersion, List.any_map]
    congr 1
    funext v
    simp only [Function.comp_apply, (hg v).2.1, (hg v).2.2]
  simp only [Tables.outside, hversions, hsel, hlinks, hhas]
  rfl

/-- Storing the digest of a version of the transaction. -/
theorem outside_refresh {env : Env} {nodeId : Uuid} {v : VersionRow}
    (hown : ∀ w ∈ t.versions, w.id = v.id → w.txId = x) :
    (t.refresh env nodeId v).outside x = t.outside x := by
  unfold Tables.refresh Tables.setFingerprint
  exact outside_updateVersion hown (fun _ => rfl) (fun _ => rfl) fun _ => rfl

/-- A stored version of the transaction is the only one of its id. -/
theorem txId_of_id_eq (ht : t.Valid) {v : VersionRow} (hv : v ∈ t.versions) (hx : v.txId = x) :
    ∀ w ∈ t.versions, w.id = v.id → w.txId = x := fun w hw hid => by
  rw [List.inj_on_of_nodup_map ht.pk_version hw hv hid, hx]

/-! ## Statements on the links of the transaction's versions -/

/-- A new link of a version of the transaction. -/
theorem outside_insertLink {l : LinkRow} (ht : t.Valid) (hfresh : l.id ∉ t.linkIds)
    (hown : l.sourceNodeVersionId ∈ t.selectVersionIds (ofTx x)) :
    (t.insertLink l).outside x = t.outside x := by
  have hsel : (t.insertLink l).selectLinkIds (ofTx x) = t.selectLinkIds (ofTx x) ++ [l.id] := by
    change ((t.links ++ [l]).filter fun m => m.sourceNodeVersionId ∈ t.selectVersionIds (ofTx x)).map
      (·.id) = _
    rw [List.filter_append, List.map_append]
    simp [Tables.selectLinkIds, hown]
  -- rows that reference a link reference an old one
  have hold : ∀ y ∈ t.linkIds, y ∈ (t.insertLink l).selectLinkIds (ofTx x) ↔
      y ∈ t.selectLinkIds (ofTx x) := by
    intro y hy
    have hne : y ≠ l.id := fun h => hfresh (h ▸ hy)
    simp [hsel, hne]
  refine Tables.ext rfl rfl rfl rfl ?_ ?_ rfl rfl rfl ?_ rfl rfl rfl
  · change (t.links ++ [l]).filter (fun m => decide (m.sourceNodeVersionId
      ∉ t.selectVersionIds (ofTx x))) = _
    exact filter_append_of_not (fun m _ => rfl) fun m hm => by
      rw [List.mem_singleton.mp hm]
      simp [hown]
  · exact List.filter_congr fun a ha =>
      decide_eq_decide.mpr (not_congr (hold _ (ht.fk_link_attribute a ha)))
  · exact List.filter_congr fun e he =>
      decide_eq_decide.mpr (not_congr (hold _ (ht.fk_entry_link e he)))

/-- A link of a version of the transaction goes. -/
theorem outside_deleteLink {linkId : Uuid} (ht : t.Valid)
    (hentries : ∀ e ∈ t.baselineEntries, e.nodeLinkId ∈ (t.deleteLink linkId).linkIds)
    (hown : ∀ l ∈ t.links, l.id = linkId → l.sourceNodeVersionId ∈ t.selectVersionIds (ofTx x)) :
    (t.deleteLink linkId).outside x = t.outside x := by
  -- the link was the transaction's, so the links it selects are one fewer
  have hsel : ∀ y, y ∈ (t.deleteLink linkId).selectLinkIds (ofTx x) ↔
      y ∈ t.selectLinkIds (ofTx x) ∧ y ≠ linkId := by
    intro y
    simp only [mem_selectLinkIds, Tables.deleteLink, List.mem_filter, decide_eq_true_eq]
    constructor
    · rintro ⟨l, ⟨hl, hne⟩, hs, rfl⟩
      exact ⟨⟨l, hl, hs, rfl⟩, hne⟩
    · rintro ⟨⟨l, hl, hs, rfl⟩, hne⟩
      exact ⟨l, ⟨hl, hne⟩, hs, rfl⟩
  have hdeleted : ∀ y ∈ t.linkIds, y = linkId → y ∈ t.selectLinkIds (ofTx x) := by
    rintro y hy rfl
    obtain ⟨l, hl, rfl⟩ := List.mem_map.mp hy
    exact (id_mem_selectLinkIds ht hl).mpr (hown l hl rfl)
  refine Tables.ext rfl rfl rfl rfl ?_ ?_ rfl rfl rfl ?_ rfl rfl rfl
  · change (t.links.filter (·.id ≠ linkId)).filter (fun m => decide (m.sourceNodeVersionId
      ∉ t.selectVersionIds (ofTx x))) = _
    rw [List.filter_filter]
    refine List.filter_congr fun l hl => ?_
    rw [Bool.eq_iff_iff]
    simp only [Bool.and_eq_true, decide_eq_true_eq, and_iff_left_iff_imp]
    exact fun hno hid => hno (hown l hl hid)
  · change (t.linkAttributes.filter (·.nodeLinkId ≠ linkId)).filter (fun a => decide (a.nodeLinkId
      ∉ (t.deleteLink linkId).selectLinkIds (ofTx x))) = _
    rw [List.filter_filter]
    refine List.filter_congr fun a ha => ?_
    -- attributes of the link go with it, and were inside before
    have hd := hdeleted _ (ht.fk_link_attribute a ha)
    rw [Bool.eq_iff_iff]
    simp only [Bool.and_eq_true, decide_eq_true_eq, hsel]
    tauto
  · refine List.filter_congr fun e he => decide_eq_decide.mpr (not_congr ?_)
    -- an entry that is still there is of another link
    have hne : e.nodeLinkId ≠ linkId := by
      obtain ⟨l, hl, hid⟩ := List.mem_map.mp (hentries e he)
      rw [← hid]
      exact of_decide_eq_true (List.mem_filter.mp hl).2
    rw [hsel]
    exact and_iff_left hne

/-- A link of a version of the transaction is rewritten, with its attribute rows. -/
theorem outside_writeLink {linkId : Uuid} {target : LinkTarget} {logicalId : Option String}
    {rows : List LinkAttributeRow} (ht : t.Valid)
    (hrows : SameOtherAttributes linkId t.linkAttributes rows)
    (hown : ∀ l ∈ t.links, l.id = linkId → l.sourceNodeVersionId ∈ t.selectVersionIds (ofTx x))
    (hstored : linkId ∈ t.linkIds) :
    (t.writeLink linkId target logicalId rows).outside x = t.outside x := by
  have hlinkSel : linkId ∈ t.selectLinkIds (ofTx x) := by
    obtain ⟨l, hl, rfl⟩ := List.mem_map.mp hstored
    exact (id_mem_selectLinkIds ht hl).mpr (hown l hl rfl)
  have hg : ∀ l : LinkRow, (if l.id = linkId then l.pointingAt target logicalId else l).id = l.id
      ∧ (if l.id = linkId then l.pointingAt target logicalId else l).sourceNodeVersionId
        = l.sourceNodeVersionId := by
    intro l
    split
    · exact ⟨rfl, rfl⟩
    · exact ⟨rfl, rfl⟩
  have hsel : (t.writeLink linkId target logicalId rows).selectLinkIds (ofTx x)
      = t.selectLinkIds (ofTx x) := by
    change ((t.links.map fun l => if l.id = linkId then l.pointingAt target logicalId else l).filter
      fun m => m.sourceNodeVersionId ∈ t.selectVersionIds (ofTx x)).map (·.id) = _
    rw [List.filter_map, List.map_map]
    have hfilter : t.links.filter ((fun m : LinkRow => decide (m.sourceNodeVersionId
        ∈ t.selectVersionIds (ofTx x))) ∘ fun l => if l.id = linkId then l.pointingAt target logicalId
          else l) = t.links.filter fun m => m.sourceNodeVersionId ∈ t.selectVersionIds (ofTx x) :=
      List.filter_congr fun l _ => by simp [(hg l).2]
    rw [hfilter]
    exact List.map_congr_left fun l _ => (hg l).1
  refine Tables.ext rfl rfl rfl rfl ?_ ?_ rfl rfl rfl ?_ rfl rfl rfl
  · refine filter_map_of_not (fun l _ => ?_) fun l hl hne => ?_
    · simp only [(hg l).2]
      rfl
    · rw [if_neg fun h => (of_decide_eq_true hne) (hown l hl h)]
  · change rows.filter (fun a => decide (a.nodeLinkId ∉ (t.writeLink linkId target logicalId
      rows).selectLinkIds (ofTx x))) = t.linkAttributes.filter _
    rw [hsel]
    -- both sides only look at rows of other links
    exact filter_eq_of_filter_eq hrows fun a ha =>
      decide_eq_true fun hid => of_decide_eq_true ha (hid ▸ hlinkSel)
  · change t.baselineEntries.filter (fun e => decide (e.nodeLinkId ∉ (t.writeLink linkId target
      logicalId rows).selectLinkIds (ofTx x))) = _
    rw [hsel]
    rfl

/-! ## New versions and nodes of the transaction -/

/-- Selecting by a transaction after a version of it was inserted. -/
theorem selectVersionIds_insertVersion {row : VersionRow} (hx : row.txId = x) :
    (t.insertVersion row).selectVersionIds (ofTx x) = t.selectVersionIds (ofTx x) ++ [row.id] := by
  simp [Tables.selectVersionIds, Tables.insertVersion, List.filter_append, ofTx, hx]

/-- A new version of the transaction, with its attribute and domain rows. -/
theorem outside_insertVersionRows {row : VersionRow} {as : List (String × Option String)}
    {ds : List DomainRow} (ht : t.Valid) (hx : row.txId = x) (hfresh : row.id ∉ t.versionIds) :
    (t.insertVersionRows row as ds).outside x = t.outside x := by
  have hsel : (t.insertVersionRows row as ds).selectVersionIds (ofTx x)
      = t.selectVersionIds (ofTx x) ++ [row.id] := selectVersionIds_insertVersion hx
  have hold : ∀ y ∈ t.versionIds, y ∈ (t.insertVersionRows row as ds).selectVersionIds (ofTx x) ↔
      y ∈ t.selectVersionIds (ofTx x) := by
    intro y hy
    have hne : y ≠ row.id := fun h => hfresh (h ▸ hy)
    simp [hsel, hne]
  have hnew : row.id ∈ (t.insertVersionRows row as ds).selectVersionIds (ofTx x) := by simp [hsel]
  -- links are selected by their owners, which are old
  have hlinks : (t.insertVersionRows row as ds).selectLinkIds (ofTx x) = t.selectLinkIds (ofTx x) := by
    change (t.links.filter fun l => l.sourceNodeVersionId
      ∈ (t.insertVersionRows row as ds).selectVersionIds (ofTx x)).map (·.id) = _
    rw [List.filter_congr fun l hl => decide_eq_decide.mpr (hold _ (ht.fk_link_version l hl))]
    rfl
  refine Tables.ext rfl ?_ ?_ ?_ ?_ ?_ ?_ ?_ rfl ?_ ?_ rfl rfl
  · change (t.nodes.filter fun n => (t.versions ++ [row]).any fun v =>
      decide (v.nodeId = n.id ∧ v.txId ≠ x)).map NodeRow.unlocked = _
    congr 1
    refine List.filter_congr fun n _ => ?_
    simp [Tables.hasVersionOutside, hx]
  · exact filter_append_of_not (fun v _ => rfl) fun v hv => by
      rw [List.mem_singleton.mp hv]
      simp [hx]
  · refine filter_append_of_not (fun a ha =>
      decide_eq_decide.mpr (not_congr (hold _ (ht.fk_attribute_version a ha)))) fun a ha => ?_
    obtain ⟨e, -, rfl⟩ := List.mem_map.mp ha
    simp [hnew]
  · exact List.filter_congr fun l hl =>
      decide_eq_decide.mpr (not_congr (hold _ (ht.fk_link_version l hl)))
  · change t.linkAttributes.filter (fun a => decide (a.nodeLinkId
      ∉ (t.insertVersionRows row as ds).selectLinkIds (ofTx x))) = _
    rw [hlinks]
    rfl
  · refine filter_append_of_not (fun d hd =>
      decide_eq_decide.mpr (not_congr (hold _ (ht.fk_domain_version d hd)))) fun d hd => ?_
    obtain ⟨e, -, rfl⟩ := List.mem_map.mp hd
    simp [hnew]
  · exact List.filter_congr fun g hg =>
      decide_eq_decide.mpr (not_congr (hold _ (ht.fk_signature_version g hg)))
  · change t.baselineEntries.filter (fun e => decide (e.nodeLinkId
      ∉ (t.insertVersionRows row as ds).selectLinkIds (ofTx x))) = _
    rw [hlinks]
    rfl
  · exact List.filter_congr fun c hc =>
      decide_eq_decide.mpr (not_congr (hold _ (ht.fk_comment_version c hc)))

/-- A version the schema admits has a new id. -/
theorem fresh_of_addVersion {env : Env} {row : VersionRow} {as : List (String × Option String)}
    {ds : List DomainRow} (h : (t.addVersion env row as ds).Valid) : row.id ∉ t.versionIds := by
  have hids : (t.addVersion env row as ds).versionIds = t.versionIds ++ [row.id] := by
    simp only [Tables.addVersion, Tables.refresh, Tables.setFingerprint, Tables.updateVersion,
      Tables.versionIds, List.map_map]
    have hmap : ∀ rows : List VersionRow, rows.map ((·.id) ∘ fun v : VersionRow =>
        if v.id = row.id then { v with fingerprint := some (env.sha256 (fingerprintText
          ((t.insertVersionRows row as ds).contentOf row.nodeId row))) } else v) = rows.map (·.id) := by
      intro rows
      refine List.map_congr_left fun v _ => ?_
      simp only [Function.comp_apply]
      split <;> rfl
    rw [hmap]
    simp [Tables.insertVersionRows, Tables.insertVersion, Tables.insertAttributes,
      Tables.insertDomains, Tables.takeId]
  intro hmem
  have hnodup := h.pk_version
  rw [hids] at hnodup
  exact (List.nodup_append.mp hnodup).2.2 _ hmem _ (List.mem_singleton_self _) rfl

/-- The new version is stored under its keys. -/
theorem mem_addVersion (env : Env) (row : VersionRow) (as : List (String × Option String))
    (ds : List DomainRow) (t : Tables) :
    ∃ v ∈ (t.addVersion env row as ds).versions,
      v.id = row.id ∧ v.nodeId = row.nodeId ∧ v.txId = row.txId := by
  refine ⟨_, List.mem_map.mpr ⟨row, List.mem_append_right _ (List.mem_singleton_self _), rfl⟩, ?_⟩
  rw [if_pos rfl]
  exact ⟨rfl, rfl, rfl⟩

/-- A new version of the transaction, with its digest. -/
theorem outside_addVersion {env : Env} {row : VersionRow} {as : List (String × Option String)}
    {ds : List DomainRow} (ht : t.Valid) (h : (t.addVersion env row as ds).Valid) (hx : row.txId = x) :
    (t.addVersion env row as ds).outside x = t.outside x := by
  have hfresh := fresh_of_addVersion h
  have hown : ∀ v ∈ (t.insertVersionRows row as ds).versions, v.id = row.id → v.txId = x := by
    intro v hv hid
    rcases List.mem_append.mp hv with hv | hv
    · exact absurd (List.mem_map_of_mem hv) (hid ▸ hfresh)
    · rw [List.mem_singleton.mp hv, hx]
  rw [Tables.addVersion, outside_refresh hown, outside_insertVersionRows ht hx hfresh]

/-- `createVersion` works inside its transaction. -/
theorem outside_createVersion {env : Env} {ctx : Caller} {nodeId vid : Uuid} {ct : ChangeType}
    {strategy : Option VersionStrategy} {st : Option String}
    {attrs : List (String × Option String)} {desc : Option String} {s s' : Db}
    (h : Returns (createVersion env ctx nodeId x ct strategy st attrs desc) s vid s') :
    s'.outside x = s.outside x := by
  obtain ⟨-, numbering, row, hrow, -, hs'⟩ := createVersion_ok h
  rw [hs']
  exact outside_addVersion s.valid (hs' ▸ s'.valid) (by rw [hrow]; rfl)

/-- A new node has no version yet, so it is not part of the outside. -/
theorem outside_insertNode {n : NodeRow} (ht : t.Valid) (hfresh : n.id ∉ t.nodeIds) :
    (t.insertNode n).outside x = t.outside x := by
  refine Tables.ext rfl ?_ rfl rfl rfl rfl rfl rfl rfl rfl rfl rfl rfl
  change ((t.nodes ++ [n]).filter fun m => t.hasVersionOutside x m.id).map NodeRow.unlocked = _
  congr 1
  refine filter_append_of_not (fun m _ => rfl) fun m hm => ?_
  rw [List.mem_singleton.mp hm, Bool.eq_false_iff]
  intro hhas
  obtain ⟨v, hv, hp⟩ := List.any_eq_true.mp hhas
  exact hfresh ((of_decide_eq_true hp).1 ▸ ht.fk_version_node v hv)

/-- The row of the transaction itself is not part of the outside. -/
theorem outside_insertTransaction {ctx : Caller} :
    (t.insertTransaction x ctx).outside x = t.outside x := by
  refine Tables.ext ?_ rfl rfl rfl rfl rfl rfl rfl rfl rfl rfl rfl rfl
  exact filter_append_of_not (fun y _ => rfl) fun y hy => by
    rw [List.mem_singleton.mp hy]
    simp

/-! ## Operations inside a transaction -/

/-- Attribute and domain rows of a version of the transaction are rewritten. -/
theorem outside_rowsWritten {vid : Uuid} (h : RowsWritten vid t t')
    (hsel : vid ∈ t.selectVersionIds (ofTx x)) : t'.outside x = t.outside x := by
  have hsame : t'.selectVersionIds (ofTx x) = t.selectVersionIds (ofTx x) := by
    rw [h.tables]
    rfl
  have hattributes : t'.attributes.filter (·.nodeVersionId ∉ t.selectVersionIds (ofTx x))
      = t.attributes.filter (·.nodeVersionId ∉ t.selectVersionIds (ofTx x)) :=
    filter_eq_of_filter_eq h.attributes fun a ha =>
      decide_eq_true fun hid => of_decide_eq_true ha (hid ▸ hsel)
  have hdomains : t'.domains.filter (·.nodeVersionId ∉ t.selectVersionIds (ofTx x))
      = t.domains.filter (·.nodeVersionId ∉ t.selectVersionIds (ofTx x)) :=
    filter_eq_of_filter_eq h.domains fun d hd =>
      decide_eq_true fun hid => of_decide_eq_true hd (hid ▸ hsel)
  rw [h.tables]
  exact Tables.ext rfl rfl rfl hattributes rfl rfl hdomains rfl rfl rfl rfl rfl rfl

/-- The version of a transaction has a selected id. -/
theorem id_mem_of_txId (ht : t.Valid) {v : VersionRow} (hv : v ∈ t.versions) (hx : v.txId = x) :
    v.id ∈ t.selectVersionIds (ofTx x) := (id_mem_ofTx ht hv).mpr hx

theorem outside_describe {vid : Uuid} {description : Option String}
    (hown : ∀ v ∈ t.versions, v.id = vid → v.txId = x) :
    (t.describe vid description).outside x = t.outside x := by
  unfold Tables.describe
  split
  · rfl
  · exact outside_updateVersion hown (fun _ => rfl) (fun _ => rfl) fun _ => rfl

theorem outside_openTransaction {ctx : Caller} {s s' : Db} (h : Returns (openTransaction ctx) s x s') :
    s'.outside x = s.outside x := by
  rw [(openTransaction_ok h).2, outside_insertTransaction, outside_takeId]

theorem outside_findOrOpenTransaction {ctx : Caller} {s s' : Db}
    (h : Returns (findOrOpenTransaction ctx) s x s') : s'.outside x = s.outside x := by
  obtain ⟨rfl, -⟩ | ⟨-, h⟩ := findOrOpenTransaction_ok h
  · rfl
  · exact outside_openTransaction h

/-- `createNode` works inside the transaction it finds or opens. -/
theorem outside_createNode {env : Env} {ctx : Caller} {projectSpaceId : Option String}
    {nodeTypeId : String} {logicalId externalId : Option String} {nodeId : Uuid} {s s' : Db}
    (h : Returns (createNode env ctx projectSpaceId nodeTypeId logicalId externalId) s nodeId s') :
    ∃ x s₁ s₂, s₁.txs = s.txs ∧ Returns (findOrOpenTransaction ctx) s₁ x s₂
      ∧ s'.outside x = s.outside x := by
  obtain ⟨x, s₁, s₂, s₃, row, es, -, -, hins, hlock, htx, ⟨state, rfl⟩, hs'⟩ := createNode_ok h
  have hfresh : ∀ n : NodeRow, s₁.toTables = s.takeId.insertNode n → n.id ∉ s.takeId.nodeIds := by
    intro n hn hmem
    have hnodup := s₁.valid.pk_node
    rw [hn, Tables.nodeIds, Tables.insertNode, List.map_append] at hnodup
    exact (List.nodup_append.mp hnodup).2.2 _ hmem _ (List.mem_singleton_self _) rfl
  refine ⟨x, s₂, s₃, ?_, htx, ?_⟩
  · rw [tryLock_frame hlock, hins]
    rfl
  · have hvalid : (s₃.addVersion env (initialVersion ctx s₃.nextId nodeId x state) [] []).Valid :=
      { hs' ▸ s'.valid with }
    rw [hs', outside_withEvents, outside_addVersion (x := x) s₃.valid hvalid rfl,
      outside_findOrOpenTransaction htx, outside_tryLock hlock, hins,
      outside_insertNode s.valid.takeId (hfresh _ hins), outside_takeId]

/-- `checkout` works inside the transaction of the request. -/
theorem outside_checkout {env : Env} {ctx : Caller} {nodeId vid : Uuid} {txId : Option Uuid}
    {s s' : Db} (h : Returns (checkout env ctx nodeId txId) s vid s') :
    ∃ x s₁ s₂, s₁.txs = s.txs ∧ Returns (resolveTransaction ctx txId) s₁ x s₂
      ∧ s'.outside x = s.outside x := by
  obtain ⟨x, s₁, s₂, hlock, htx, h⟩ := checkout_ok h
  have htxs : s₁.txs = s.txs := by rw [tryLock_frame hlock]
  have hs₂ : s₂.outside x = s.outside x := by
    rw [← outside_tryLock hlock]
    cases txId with
    | some y =>
      obtain ⟨rfl, rfl⟩ := returns_pure.mp htx
      rfl
    | none => exact outside_findOrOpenTransaction htx
  refine ⟨x, s₁, s₂, htxs, htx, ?_⟩
  obtain ⟨v, -, -, rfl⟩ | ⟨-, strategy, s₃, es, hcreate, hs'⟩ := h
  · exact hs₂
  · rw [hs', outside_withEvents, outside_createVersion hcreate, hs₂]

/-- `modifyNode` works inside the given transaction. -/
theorem outside_modifyNode {env : Env} {ctx : Caller} {nodeId vid : Uuid}
    {attributes : List (String × Option String)} {description : Option String}
    {strategy : Option VersionStrategy} {s s' : Db}
    (h : Returns (modifyNode env ctx nodeId x attributes description strategy) s vid s') :
    s'.outside x = s.outside x := by
  obtain ⟨s₁, s₂, es, hlock, hs', h⟩ := modifyNode_ok h
  rw [hs', outside_withEvents, ← outside_tryLock hlock]
  obtain ⟨v, values, hv, rfl, hs₂⟩ | ⟨-, strategy, hcreate⟩ := h
  · obtain ⟨hmem, -, hx⟩ := Tables.findOpenVersionInTx_ok hv
    have hown := txId_of_id_eq s₁.valid hmem hx
    have hdescribed : ∀ w ∈ ((s₁.replaceAttributes v.id values).describe v.id description).versions,
        w.id = v.id → w.txId = x := by
      intro w hw hid
      unfold Tables.describe at hw
      split at hw
      · exact hown w hw hid
      · obtain ⟨u, hu, rfl⟩ := List.mem_map.mp hw
        split at hid
        · rename_i huid
          rw [if_pos huid]
          exact hown u hu huid
        · exact absurd hid ‹_›
    rw [hs₂, outside_refresh hdescribed, outside_describe (t := s₁.replaceAttributes v.id values) hown,
      outside_rowsWritten (.replaceAttributes v.id values _) (id_mem_of_txId s₁.valid hmem hx)]
  · exact outside_createVersion hcreate

/-- The domain handlers work inside the given transaction. -/
theorem outside_domainAction {env : Env} {ctx : Caller} {nodeId : Uuid} {domainId : Option String}
    {change : String → Uuid → Plm Nat} {s s' : Db} {u : Unit}
    (hchange : ∀ d vid s k s', Returns (change d vid) s k s' → RowsWritten vid s.toTables s'.toTables)
    (h : Returns (domainAction env ctx nodeId x domainId change) s u s') :
    s'.outside x = s.outside x := by
  obtain ⟨v, t, es, hv, hrows, hs'⟩ := domainAction_ok hchange h
  obtain ⟨hmem, -, hx⟩ := Tables.findOpenVersionInTx_ok hv
  have hown : ∀ w ∈ t.versions, w.id = v.id → w.txId = x := by
    rw [hrows.tables]
    exact txId_of_id_eq s.valid hmem hx
  rw [hs', outside_withEvents, outside_refresh hown,
    outside_rowsWritten hrows (id_mem_of_txId s.valid hmem hx)]

/-- The version `ensureOpenVersion` returns belongs to the transaction. -/
theorem ensureOpenVersion_ok {env : Env} {ctx : Caller} {nodeId sv : Uuid} {s s' : Db}
    (h : Returns (ensureOpenVersion env ctx nodeId x) s sv s') :
    s'.outside x = s.outside x ∧ ∃ v ∈ s'.versions, v.id = sv ∧ v.nodeId = nodeId ∧ v.txId = x := by
  simp only [ensureOpenVersion, returns_bind, returns_query, and_assoc, exists_and_left,
    exists_eq_left] at h
  split at h
  · rename_i v hv
    obtain ⟨rfl, rfl⟩ := returns_pure.mp h
    obtain ⟨hmem, hnode, hx⟩ := Tables.findOpenVersionInTx_ok hv
    exact ⟨rfl, v, hmem, rfl, hnode, hx⟩
  · refine ⟨outside_createVersion h, ?_⟩
    obtain ⟨-, numbering, row, hrow, -, hs'⟩ := createVersion_ok h
    obtain ⟨v, hv, hid, hnode, htx⟩ := mem_addVersion env row
      (putAll (s.currentAttributes nodeId x) []) (s.currentDomains nodeId x) s.toTables
    refine ⟨v, by rw [hs']; exact hv, ?_, ?_, ?_⟩
    · rw [hid, hrow]
      rfl
    · rw [hnode, hrow]
      rfl
    · rw [htx, hrow]
      rfl

/-- `createLink` works inside the given transaction. -/
theorem outside_createLink {env : Env} {ctx : Caller} {linkTypeId : String} {nodeId linkId : Uuid}
    {sourceCode type key linkLogicalId : Option String} {s s' : Db}
    (h : Returns (createLink env ctx linkTypeId nodeId sourceCode type key x linkLogicalId) s linkId
      s') : s'.outside x = s.outside x := by
  obtain ⟨target, sv, s₁, s₂, v, es, hensure, hlock, -, hid, hv, hvid, hs'⟩ := createLink_ok h
  obtain ⟨hs₁, w, hw, hwid, -, hwx⟩ := ensureOpenVersion_ok hensure
  have hw₂ : w ∈ s₂.versions := by
    rw [tryLock_frame hlock]
    exact hw
  have hvx : v.txId = x := by
    rw [List.inj_on_of_nodup_map s₂.valid.pk_version hv hw₂ (hvid.trans hwid.symm), hwx]
  have hown : ∀ u ∈ (s₂.takeId.insertLink (newLink ctx linkId linkTypeId sv target
      linkLogicalId)).versions, u.id = v.id → u.txId = x := txId_of_id_eq s₂.valid hv hvx
  -- the schema admitted the new link, so its id is new
  have hfresh : linkId ∉ s₂.linkIds := by
    have hnodup := s'.valid.pk_link
    rw [hs'] at hnodup
    change ((s₂.links ++ [newLink ctx linkId linkTypeId sv target linkLogicalId]).map (·.id)).Nodup
      at hnodup
    rw [List.map_append] at hnodup
    exact fun hmem => (List.nodup_append.mp hnodup).2.2 _ hmem _ (List.mem_singleton_self _) rfl
  have hsel : sv ∈ s₂.selectVersionIds (ofTx x) := hvid ▸ id_mem_of_txId s₂.valid hv hvx
  rw [hs', outside_withEvents, outside_refresh hown, outside_insertLink s₂.valid.takeId hfresh hsel,
    outside_takeId, outside_tryLock hlock, hs₁]

/-- The link is owned by a version of the transaction. -/
def Tables.ownsLink (t : Tables) (x linkId : Uuid) : Prop :=
  ∀ l ∈ t.links, l.id = linkId → l.sourceNodeVersionId ∈ t.selectVersionIds (ofTx x)

/-- `deleteLink` works inside the transaction that owns the link. -/
theorem outside_deleteLinkOp {env : Env} {ctx : Caller} {linkId : Uuid} {s s' : Db}
    (hown : s.ownsLink x linkId) (h : Returns (deleteLink env ctx linkId) s () s') :
    s'.outside x = s.outside x := by
  obtain ⟨link, source, s₁, es, hlink, hlid, hsource, hsid, hlock, hs'⟩ := deleteLink_ok h
  have hsel := hsid ▸ hown link hlink hlid
  have hx : source.txId = x := (id_mem_ofTx s.valid hsource).mp hsel
  have hframe := tryLock_frame hlock
  have hown₁ : ∀ l ∈ s₁.links, l.id = linkId →
      l.sourceNodeVersionId ∈ s₁.selectVersionIds (ofTx x) := by
    rw [hframe]
    exact hown
  have hsource₁ : source ∈ s₁.versions := by
    rw [hframe]
    exact hsource
  have hentries : ∀ e ∈ s₁.baselineEntries, e.nodeLinkId ∈ (s₁.deleteLink linkId).linkIds := by
    have hfk := s'.valid.fk_entry_link
    rw [hs'] at hfk
    exact hfk
  rw [hs', outside_withEvents, outside_refresh (t := s₁.deleteLink linkId)
    (txId_of_id_eq s₁.valid hsource₁ hx), outside_deleteLink s₁.valid hentries hown₁, outside_tryLock hlock]

/-- `updateLink` works inside the transaction that owns the link, when no other transaction is
open: the digest it stores is of the newest open version. -/
theorem outside_updateLink {env : Env} {ctx : Caller} {linkId : Uuid} {u : LinkUpdate} {s s' : Db}
    (hown : s.ownsLink x linkId) (honly : ∀ v ∈ s.versions, s.isOpen v.txId = true → v.txId = x)
    (h : Returns (updateLink env ctx linkId u) s () s') : s'.outside x = s.outside x := by
  obtain ⟨link, source, s₁, target, logicalId, rows, v, es, hlink, hlid, hsource, hsid, hlock, -,
    hrows, hv, hvid, hs'⟩ := updateLink_ok h
  have hframe := tryLock_frame hlock
  have hx : source.txId = x := (id_mem_ofTx s.valid hsource).mp (hsid ▸ hown link hlink hlid)
  have hown₁ : ∀ l ∈ s₁.links, l.id = linkId →
      l.sourceNodeVersionId ∈ s₁.selectVersionIds (ofTx x) := by
    rw [hframe]
    exact hown
  have hstored : linkId ∈ s₁.linkIds := by
    rw [hframe, ← hlid]
    exact List.mem_map_of_mem hlink
  -- the refreshed version is in the transaction in either case
  have hvx : v.txId = x := by
    cases ho : s₁.newestOpenVersion source.nodeId with
    | none =>
      rw [ho] at hvid
      rw [List.inj_on_of_nodup_map s.valid.pk_version hv hsource hvid, hx]
    | some w =>
      rw [ho] at hvid
      obtain ⟨hw, hp⟩ := List.mem_filter.mp (List.argmax_mem ho)
      have hw' : w ∈ s.versions ∧ s.isOpen w.txId = true := by
        rw [hframe] at hw hp
        exact ⟨hw, (of_decide_eq_true hp).2⟩
      rw [List.inj_on_of_nodup_map s.valid.pk_version hv hw'.1 hvid, honly w hw'.1 hw'.2]
  have hv₁ : v ∈ s₁.versions := by
    rw [hframe]
    exact hv
  rw [hs', outside_withEvents, outside_refresh (t := s₁.writeLink linkId target logicalId rows)
    (txId_of_id_eq s₁.valid hv₁ hvx), outside_writeLink s₁.valid hrows hown₁ hstored,
    outside_tryLock hlock]

end PlmCore.Psm
