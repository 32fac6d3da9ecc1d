/-
What history collapse keeps and what it loses.

The first part computes the store a collapse leaves (`CollapsedTo`) and when it succeeds:
the one statement that can be refused is the deletion of links, by baseline entries that
record them. The second part compares what can be observed of the surviving version before
and after. A deleted version takes its links along although later versions inherit them,
and the survivor's iteration becomes 0 wherever it is shown, so the comparison comes out
equal exactly under `CollapseKeepsAll`.
-/
import Mathlib
import PlmCore.Psm.Baseline
import PlmCore.Psm.Collapse
import PlmCore.Psm.Purge

set_option autoImplicit false

namespace PlmCore.Psm

open PlmCore.Lib

/-! ## The statements of `deleteInto` -/

/-- The store after the signatures of the newest deleted version moved. -/
def Tables.movedLast (versions : List VersionRow) (currentVersionId : Uuid) (t : Tables) : Tables :=
  match Tables.latest versions with
  | none => t
  | some last => t.moveSignatures last.id currentVersionId

/-- The store before the links are deleted. -/
def Tables.annotationsMoved (versions : List VersionRow) (currentVersionId : Uuid) (t : Tables) :
    Tables :=
  ((t.movedLast versions currentVersionId).deleteSignatures
    (·.id ∈ versions.map (·.id))).moveComments (versions.map (·.id)) currentVersionId

/-- The store after `deleteInto`. -/
def Tables.deletedInto (versions : List VersionRow) (currentVersionId : Uuid) (t : Tables) : Tables :=
  ((((t.annotationsMoved versions currentVersionId).deleteLinks
    (·.id ∈ versions.map (·.id))).deleteAttributes (·.id ∈ versions.map (·.id))).clearPrevious
      (versions.map (·.id))).deleteVersions (·.id ∈ versions.map (·.id))

theorem returns_moveLastSignatures {versions : List VersionRow} {cur : Uuid} {s s' : Db} {u : Unit} :
    Returns (moveLastSignatures versions cur) s u s' ↔ s'.toTables = s.movedLast versions cur := by
  unfold moveLastSignatures Tables.movedLast
  cases Tables.latest versions with
  | none =>
    simp only [returns_pure, true_and]
    exact ⟨fun h => by rw [h], Db.ext⟩
  | some last => exact returns_execute

/-- `deleteInto` runs its statements in order. -/
theorem deleteInto_ok {versions : List VersionRow} {cur : Uuid} {s s' : Db}
    (h : Returns (deleteInto versions cur) s () s') :
    s'.toTables = s.deletedInto versions cur := by
  simp only [deleteInto, returns_bind, returns_execute] at h
  obtain ⟨_, s₁, h₁, _, s₂, h₂, _, s₃, h₃, _, s₄, h₄, _, s₅, h₅, _, s₆, h₆, h₇⟩ := h
  rw [h₇, h₆, h₅, h₄, h₃, h₂, returns_moveLastSignatures.mp h₁]
  rfl

/-! ## When it succeeds -/

section Success

variable {t : Tables} {versions : List VersionRow} {cur : Uuid}

theorem Tables.Valid.movedLast (h : t.Valid) (hcur : cur ∈ t.versionIds) :
    (t.movedLast versions cur).Valid := by
  unfold Tables.movedLast
  split
  · exact h
  · rename_i last _
    refine { h with
      pk_signature := ?_
      fk_signature_node := ?_
      fk_signature_version := ?_ }
    · have hids : (t.moveSignatures last.id cur).signatures.map (·.id) = t.signatures.map (·.id) := by
        rw [Tables.moveSignatures, List.map_map]
        refine List.map_congr_left fun g _ => ?_
        simp only [Function.comp_apply]
        split <;> rfl
      rw [hids]
      exact h.pk_signature
    · intro g hg
      obtain ⟨g₀, hg₀, rfl⟩ := List.mem_map.mp hg
      split
      · exact h.fk_signature_node g₀ hg₀
      · exact h.fk_signature_node g₀ hg₀
    · intro g hg
      obtain ⟨g₀, hg₀, rfl⟩ := List.mem_map.mp hg
      split
      · exact hcur
      · exact h.fk_signature_version g₀ hg₀

theorem Tables.Valid.moveComments (h : t.Valid) (ids : List Uuid) (hcur : cur ∈ t.versionIds) :
    (t.moveComments ids cur).Valid := by
  have hids : (t.moveComments ids cur).comments.map (·.id) = t.comments.map (·.id) := by
    rw [Tables.moveComments, List.map_map]
    refine List.map_congr_left fun c _ => ?_
    simp only [Function.comp_apply]
    split <;> rfl
  refine { h with
    pk_comment := by rw [hids]; exact h.pk_comment
    fk_comment_node := ?_
    fk_comment_version := ?_
    fk_comment_parent := ?_ }
  · intro c hc
    obtain ⟨c₀, hc₀, rfl⟩ := List.mem_map.mp hc
    split
    · exact h.fk_comment_node c₀ hc₀
    · exact h.fk_comment_node c₀ hc₀
  · intro c hc
    obtain ⟨c₀, hc₀, rfl⟩ := List.mem_map.mp hc
    split
    · exact hcur
    · exact h.fk_comment_version c₀ hc₀
  · intro c hc x hx
    rw [hids]
    obtain ⟨c₀, hc₀, rfl⟩ := List.mem_map.mp hc
    refine h.fk_comment_parent c₀ hc₀ x ?_
    split at hx
    · exact hx
    · exact hx

theorem Tables.Valid.clearPrevious (h : t.Valid) (ids : List Uuid) : (t.clearPrevious ids).Valid := by
  refine h.mapVersions (fun v => ?_) (fun v => ?_) (fun v => ?_) (fun v hv => ?_) (fun v hv x hx => ?_)
  · split <;> rfl
  · split <;> rfl
  · split <;> rfl
  · split
    · exact h.fk_version_tx v hv
    · exact h.fk_version_tx v hv
  · split at hx
    · cases hx
    · exact h.fk_version_previous v hv x hx

end Success

/-! ## Success of the deletion -/

section Deletion

variable {s : Db} {versions : List VersionRow} {cur : Uuid}

/-- The selected ids are the ids of the given versions, when these are stored. -/
theorem mem_selectVersionIds_ids {t : Tables} (hsub : ∀ v ∈ versions, v.id ∈ t.versionIds) {x : Uuid} :
    x ∈ t.selectVersionIds (·.id ∈ versions.map (·.id)) ↔ x ∈ versions.map (·.id) := by
  rw [mem_selectVersionIds]
  constructor
  · rintro ⟨v, -, hp, rfl⟩
    simpa using hp
  · intro hx
    obtain ⟨v, hv, rfl⟩ := List.mem_map.mp hx
    obtain ⟨w, hw, hid⟩ := List.mem_map.mp (hsub v hv)
    exact ⟨w, hw, by simpa [hid] using ⟨v, hv, rfl⟩, hid⟩

theorem movedLast_versions (t : Tables) : (t.movedLast versions cur).versions = t.versions := by
  unfold Tables.movedLast
  split <;> rfl

/-- Moving annotations touches the two annotation tables only. -/
theorem annotationsMoved_frame (t : Tables) : ∃ signatures comments,
    t.annotationsMoved versions cur = { t with signatures, comments } := by
  unfold Tables.annotationsMoved Tables.movedLast
  split
  · exact ⟨_, _, rfl⟩
  · exact ⟨_, _, rfl⟩

/-- Nothing references the versions when they are deleted at last. -/
theorem unreferenced_before_delete {t : Tables} (hnot : cur ∉ versions.map (·.id))
    (hsub : ∀ v ∈ versions, v.id ∈ t.versionIds) :
    Unreferenced (·.id ∈ versions.map (·.id)) ((((t.annotationsMoved versions cur).deleteLinks
      (·.id ∈ versions.map (·.id))).deleteAttributes (·.id ∈ versions.map (·.id))).clearPrevious
        (versions.map (·.id))) := by
  obtain ⟨signatures, comments, hframe⟩ := @annotationsMoved_frame versions cur t
  -- the statements before leave the ids of the stored versions alone
  have hids : ∀ u : Tables, u.versions.map (·.id) = t.versions.map (·.id) →
      ∀ x, x ∈ u.selectVersionIds (·.id ∈ versions.map (·.id)) ↔ x ∈ versions.map (·.id) := by
    intro u hu x
    refine mem_selectVersionIds_ids (fun v hv => ?_)
    rw [Tables.versionIds, hu]
    exact hsub v hv
  have hmap : (t.versions.map fun v => if ∃ p ∈ v.previousVersionId, p ∈ versions.map (·.id) then
      { v with previousVersionId := none } else v).map (·.id) = t.versions.map (·.id) := by
    rw [List.map_map]
    refine List.map_congr_left fun v _ => ?_
    simp only [Function.comp_apply]
    split <;> rfl
  have hmoved : (t.annotationsMoved versions cur).versions = t.versions := by rw [hframe]
  have hsel : ∀ x, x ∈ ((((t.annotationsMoved versions cur).deleteLinks
      (·.id ∈ versions.map (·.id))).deleteAttributes (·.id ∈ versions.map (·.id))).clearPrevious
        (versions.map (·.id))).selectVersionIds (·.id ∈ versions.map (·.id))
          ↔ x ∈ versions.map (·.id) := by
    refine hids _ ?_
    rw [← hmap]
    simp only [Tables.clearPrevious, Tables.deleteAttributes, Tables.deleteLinks, hmoved]
  refine ⟨fun v hv _ x hx => ?_, fun a ha => ?_, fun l hl => ?_, fun g hg => ?_, fun c hc => ?_⟩
  · rw [hsel]
    obtain ⟨w, -, rfl⟩ := List.mem_map.mp hv
    split at hx
    · cases hx
    · rename_i hnone
      exact fun hmem => hnone ⟨x, hx, hmem⟩
  · rw [hsel]
    have ha := (List.mem_filter.mp ha).2
    rw [decide_eq_true_eq, hids _ (by rw [Tables.deleteLinks, hmoved])] at ha
    exact ha
  · rw [hsel]
    have hl := (List.mem_filter.mp hl).2
    rw [decide_eq_true_eq, hids _ (by rw [hmoved])] at hl
    exact hl
  · rw [hsel]
    have hg := (List.mem_filter.mp hg).2
    rw [decide_eq_true_eq, hids _ (by rw [movedLast_versions])] at hg
    exact hg
  · rw [hsel]
    obtain ⟨c₀, -, rfl⟩ := List.mem_map.mp hc
    split
    · exact hnot
    · assumption

/-- **The deletion succeeds exactly when no baseline entry records a link of a deleted
version.** -/
theorem deleteInto_succeeds_iff (hcur : cur ∈ s.versionIds) (hnot : cur ∉ versions.map (·.id))
    (hsub : ∀ v ∈ versions, v.id ∈ s.versionIds) :
    (∃ s', Returns (deleteInto versions cur) s () s') ↔
      ∀ e ∈ s.baselineEntries, e.nodeLinkId ∉ s.selectLinkIds (·.id ∈ versions.map (·.id)) := by
  obtain ⟨signatures, comments, hframe⟩ := @annotationsMoved_frame versions cur
    s.toTables
  have hlinks : ∀ t : Tables, t = s.annotationsMoved versions cur → ((∀ e ∈ t.baselineEntries,
      e.nodeLinkId ∉ t.selectLinkIds (·.id ∈ versions.map (·.id))) ↔
        ∀ e ∈ s.baselineEntries, e.nodeLinkId ∉ s.selectLinkIds (·.id ∈ versions.map (·.id))) := by
    rintro t rfl
    rw [hframe]
    exact Iff.rfl
  simp only [deleteInto, returns_bind, returns_execute, returns_moveLastSignatures]
  constructor
  · rintro ⟨s', _, s₁, h₁, _, s₂, h₂, _, s₃, h₃, _, s₄, h₄, -⟩
    have hs₃ : s₃.toTables = s.annotationsMoved versions cur := by
      rw [h₃, h₂, h₁]
      rfl
    exact (hlinks _ hs₃).mp ((valid_deleteLinks_iff s₃.valid).mp (h₄ ▸ s₄.valid))
  · intro hent
    have h₁ := @Tables.Valid.movedLast _ versions _ s.valid hcur
    have h₂ := h₁.deleteSignatures (p := (·.id ∈ versions.map (·.id)))
    have hcur₂ : cur ∈ ((s.movedLast versions cur).deleteSignatures
        (·.id ∈ versions.map (·.id))).versionIds := by
      unfold Tables.movedLast
      split
      · exact hcur
      · exact hcur
    have h₃ : (s.annotationsMoved versions cur).Valid := h₂.moveComments _ hcur₂
    have h₄ := (valid_deleteLinks_iff h₃).mpr ((hlinks _ rfl).mpr hent)
    have h₅ := h₄.deleteAttributes (p := (·.id ∈ versions.map (·.id)))
    have h₆ := h₅.clearPrevious (versions.map (·.id))
    have h₇ := (valid_deleteVersions_iff h₆).mpr (unreferenced_before_delete hnot hsub)
    exact ⟨⟨_, h₇⟩, (), ⟨_, h₁⟩, rfl, (), ⟨_, h₂⟩, rfl, (), ⟨_, h₃⟩, rfl, (), ⟨_, h₄⟩, rfl, (),
      ⟨_, h₅⟩, rfl, (), ⟨_, h₆⟩, rfl, rfl⟩

end Deletion

/-! ## The store after a collapse -/

/-- The ids of the versions a collapse deletes. -/
def Tables.collapsedIds (ctx : StateActionContext) (t : Tables) : List Uuid :=
  (t.toDelete ctx.nodeId ctx.revision ctx.versionId).map (·.id)

/-- A kept version after the collapse: it no longer chains to a deleted version, and the
entering version has iteration 0. -/
def keptRow (ids : List Uuid) (currentVersionId : Uuid) (v : VersionRow) : VersionRow :=
  { v with
    previousVersionId := if ∃ p ∈ v.previousVersionId, p ∈ ids then none else v.previousVersionId
    iteration := if v.id = currentVersionId then 0 else v.iteration }

/-- The tables a reader of nodes, links and baselines looks at, after a collapse. -/
structure CollapsedTo (ctx : StateActionContext) (t t' : Tables) : Prop where
  txs : t'.txs = t.txs
  nodes : t'.nodes = t.nodes
  baselines : t'.baselines = t.baselines
  baselineEntries : t'.baselineEntries = t.baselineEntries
  versions : t'.versions = (t.versions.filter (·.id ∉ t.collapsedIds ctx)).map
    (keptRow (t.collapsedIds ctx) ctx.versionId)
  attributes : t'.attributes = t.attributes.filter (·.nodeVersionId ∉ t.collapsedIds ctx)
  domains : t'.domains = t.domains.filter (·.nodeVersionId ∉ t.collapsedIds ctx)
  links : t'.links = t.links.filter (·.sourceNodeVersionId ∉ t.collapsedIds ctx)
  linkAttributes : t'.linkAttributes = t.linkAttributes.filter fun a =>
    ∀ l ∈ t.links, l.id = a.nodeLinkId → l.sourceNodeVersionId ∉ t.collapsedIds ctx
  nextId : t'.nextId = t.nextId

/-- The versions to delete are stored, and the entering version is not one of them. -/
theorem mem_toDelete {t : Tables} {nodeId : Uuid} {revision : String} {cur : Uuid} {v : VersionRow} :
    v ∈ t.toDelete nodeId revision cur ↔ v ∈ t.versions ∧ v.nodeId = nodeId ∧ v.revision = revision
      ∧ v.id ≠ cur ∧ t.isCommitted v.txId = true ∧ t.isPinned v = false := by
  simp [Tables.toDelete]

theorem deletedInto_eq {t : Tables} {versions : List VersionRow} {cur : Uuid}
    (hsub : ∀ v ∈ versions, v.id ∈ t.versionIds) : ∃ signatures comments,
    t.deletedInto versions cur =
      { t with
        versions := (t.versions.map fun v => if ∃ p ∈ v.previousVersionId, p ∈ versions.map (·.id)
          then { v with previousVersionId := none } else v).filter (·.id ∉ versions.map (·.id))
        attributes := t.attributes.filter (·.nodeVersionId ∉ versions.map (·.id))
        domains := t.domains.filter (·.nodeVersionId ∉ versions.map (·.id))
        links := t.links.filter (·.sourceNodeVersionId ∉ versions.map (·.id))
        linkAttributes := t.linkAttributes.filter
          (·.nodeLinkId ∉ t.selectLinkIds (·.id ∈ versions.map (·.id)))
        signatures, comments } := by
  obtain ⟨signatures, comments, hframe⟩ := @annotationsMoved_frame versions cur t
  have hsel : ∀ x, x ∈ t.selectVersionIds (·.id ∈ versions.map (·.id)) ↔ x ∈ versions.map (·.id) :=
    fun x => mem_selectVersionIds_ids hsub
  refine ⟨signatures, comments, ?_⟩
  simp only [Tables.deletedInto, hframe, Tables.deleteVersions, Tables.clearPrevious,
    Tables.deleteAttributes, Tables.deleteLinks]
  congr 1
  · exact List.filter_congr fun v _ => by simp only [decide_eq_true_eq]
  · exact List.filter_congr fun a _ => decide_eq_decide.mpr (not_congr (hsel _))
  · exact List.filter_congr fun l _ => decide_eq_decide.mpr (not_congr (hsel _))
  · refine List.filter_congr fun d _ => decide_eq_decide.mpr (not_congr ?_)
    refine mem_selectVersionIds_ids fun v hv => ?_
    obtain ⟨w, hw, hid⟩ := List.mem_map.mp (hsub v hv)
    rw [← hid]
    simp only [Tables.versionIds, List.map_map]
    refine List.mem_map.mpr ⟨w, hw, ?_⟩
    simp only [Function.comp_apply]
    split <;> rfl

/-- What `collapseRevisionHistory` returns with, whether it had anything to delete or not. -/
theorem returns_collapseRevisionHistory {nodeId : Uuid} {revision : String} {cur : Uuid} {s s' : Db}
    {u : Unit} : Returns (collapseRevisionHistory nodeId revision cur) s u s' ↔
      (s.toDelete nodeId revision cur = [] ∧ s' = s) ∨ (s.toDelete nodeId revision cur ≠ [] ∧
        Returns (deleteInto (s.toDelete nodeId revision cur) cur) s u s') := by
  simp only [collapseRevisionHistory, returns_bind, returns_query, returns_ite, returns_pure]
  constructor
  · rintro ⟨_, _, ⟨rfl, rfl⟩, ⟨h, -, rfl⟩ | ⟨h, hr⟩⟩
    · exact .inl ⟨h, rfl⟩
    · exact .inr ⟨h, hr⟩
  · rintro (⟨h, rfl⟩ | ⟨h, hr⟩)
    · exact ⟨_, _, ⟨rfl, rfl⟩, .inl ⟨h, trivial, rfl⟩⟩
    · exact ⟨_, _, ⟨rfl, rfl⟩, .inr ⟨h, hr⟩⟩

/-- Clearing the chain and resetting the iteration, row by row. -/
theorem map_keptRow (ids : List Uuid) (cur : Uuid) (rows : List VersionRow) :
    (((rows.map fun v => if ∃ p ∈ v.previousVersionId, p ∈ ids then
        { v with previousVersionId := none } else v).filter (·.id ∉ ids)).map fun v =>
          if v.id = cur then { v with iteration := 0 } else v)
      = (rows.filter (·.id ∉ ids)).map (keptRow ids cur) := by
  rw [List.filter_map, List.map_map]
  have hfilter : (rows.filter ((fun v : VersionRow => decide (v.id ∉ ids)) ∘ fun v =>
      if ∃ p ∈ v.previousVersionId, p ∈ ids then { v with previousVersionId := none } else v))
      = rows.filter (·.id ∉ ids) := by
    refine List.filter_congr fun v _ => ?_
    simp only [Function.comp_apply]
    split <;> rfl
  rw [hfilter]
  refine List.map_congr_left fun v _ => ?_
  simp only [Function.comp_apply, keptRow]
  split <;> split <;> simp_all

/-- **The store a collapse leaves**, when the state is a release state. -/
theorem collapseHistory_ok {env : Env} {ctx : StateActionContext} {s s' : Db}
    (htrue : env.isTrue "LIFECYCLE_STATE" ctx.toStateId ctx.metaKey = true)
    (h : Returns (collapseHistory env ctx) s () s') : CollapsedTo ctx s.toTables s'.toTables := by
  simp only [collapseHistory, htrue, Bool.true_eq_false, if_false, returns_bind, returns_execute,
    returns_collapseRevisionHistory] at h
  obtain ⟨_, s₁, hcollapse, h⟩ := h
  have hs₁ : ∃ signatures comments, s₁.toTables =
      { s.toTables with
        versions := (s.versions.map fun v => if ∃ p ∈ v.previousVersionId, p ∈ s.collapsedIds ctx
          then { v with previousVersionId := none } else v).filter (·.id ∉ s.collapsedIds ctx)
        attributes := s.attributes.filter (·.nodeVersionId ∉ s.collapsedIds ctx)
        domains := s.domains.filter (·.nodeVersionId ∉ s.collapsedIds ctx)
        links := s.links.filter (·.sourceNodeVersionId ∉ s.collapsedIds ctx)
        linkAttributes := s.linkAttributes.filter
          (·.nodeLinkId ∉ s.selectLinkIds (·.id ∈ s.collapsedIds ctx))
        signatures, comments } := by
    rcases hcollapse with ⟨hnone, rfl⟩ | ⟨-, hr⟩
    · have hids : s₁.collapsedIds ctx = [] := by rw [Tables.collapsedIds, hnone]; rfl
      have hsel : ∀ x, x ∉ s₁.selectLinkIds (fun _ => false) := by
        simp [mem_selectLinkIds, mem_selectVersionIds]
      exact ⟨s₁.signatures, s₁.comments, by simp [hids, hsel]⟩
    · rw [deleteInto_ok hr]
      exact deletedInto_eq fun v hv => List.mem_map_of_mem (mem_toDelete.mp hv).1
  obtain ⟨signatures, comments, hs₁⟩ := hs₁
  rw [h, hs₁]
  refine ⟨rfl, rfl, rfl, rfl, map_keptRow _ _ _, rfl, rfl, rfl, ?_, rfl⟩
  refine List.filter_congr fun a _ => decide_eq_decide.mpr ?_
  rw [mem_selectLinkIds]
  have hsel : ∀ x, x ∈ s.selectVersionIds (·.id ∈ s.collapsedIds ctx) ↔ x ∈ s.collapsedIds ctx :=
    fun x => mem_selectVersionIds_ids fun v hv => List.mem_map_of_mem (mem_toDelete.mp hv).1
  simp only [hsel]
  constructor
  · intro hno l hl hid hmem
    exact hno ⟨l, hl, hmem, hid⟩
  · rintro hno ⟨l, hl, hmem, hid⟩
    exact hno l hl hid hmem

/-- The action does nothing when the state is no release state, and collapses otherwise. -/
theorem collapseHistory_cases {env : Env} {ctx : StateActionContext} {s s' : Db}
    (h : Returns (collapseHistory env ctx) s () s') :
    s' = s ∨ CollapsedTo ctx s.toTables s'.toTables := by
  cases htrue : env.isTrue "LIFECYCLE_STATE" ctx.toStateId ctx.metaKey with
  | true => exact .inr (collapseHistory_ok htrue h)
  | false =>
    unfold collapseHistory at h
    rw [if_pos htrue] at h
    exact .inl (returns_pure.mp h).2

/-- A collapse succeeds exactly when no baseline entry records a link of a version it
deletes. -/
theorem collapseHistory_succeeds_iff {env : Env} {ctx : StateActionContext} {s : Db}
    (htrue : env.isTrue "LIFECYCLE_STATE" ctx.toStateId ctx.metaKey = true)
    (hcur : ctx.versionId ∈ s.versionIds) :
    (∃ s', Returns (collapseHistory env ctx) s () s') ↔
      ∀ e ∈ s.baselineEntries, ∀ l ∈ s.links, l.id = e.nodeLinkId →
        l.sourceNodeVersionId ∉ s.collapsedIds ctx := by
  -- the reset of the iteration is never refused
  have hupdate : ∀ s₁ : Db, ∃ s', Returns (execute (Tables.updateVersion ctx.versionId fun v =>
      { v with iteration := 0 })) s₁ () s' := fun s₁ =>
    execute_succeeds.mpr (s₁.valid.updateVersion ctx.versionId (fun _ => rfl) (fun _ => rfl)
      (fun _ => rfl) (fun _ => rfl) fun _ => rfl)
  have hsplit : (∃ s', Returns (collapseHistory env ctx) s () s') ↔
      ∃ s₁, Returns (collapseRevisionHistory ctx.nodeId ctx.revision ctx.versionId) s () s₁ := by
    simp only [collapseHistory, htrue, Bool.true_eq_false, if_false, returns_bind]
    constructor
    · rintro ⟨_, _, s₁, h₁, -⟩
      exact ⟨s₁, h₁⟩
    · rintro ⟨s₁, h₁⟩
      obtain ⟨s', h'⟩ := hupdate s₁
      exact ⟨s', (), s₁, h₁, h'⟩
  rw [hsplit]
  simp only [returns_collapseRevisionHistory]
  -- with nothing to collapse nothing is deleted
  by_cases hnone : s.toDelete ctx.nodeId ctx.revision ctx.versionId = []
  · have hids : s.collapsedIds ctx = [] := by rw [Tables.collapsedIds, hnone]; rfl
    simp [hnone, hids]
  -- the current version is not among those that go
  · have hnot : ctx.versionId ∉ s.collapsedIds ctx := by
      intro hmem
      obtain ⟨v, hv, hid⟩ := List.mem_map.mp hmem
      exact (mem_toDelete.mp hv).2.2.2.1 hid
    have hsub : ∀ v ∈ s.toDelete ctx.nodeId ctx.revision ctx.versionId, v.id ∈ s.versionIds :=
      fun v hv => List.mem_map_of_mem (mem_toDelete.mp hv).1
    simp only [hnone, false_and, not_false_eq_true, true_and, false_or, ne_eq]
    rw [deleteInto_succeeds_iff hcur hnot hsub]
    simp only [mem_selectLinkIds, mem_selectVersionIds_ids hsub]
    constructor
    · intro h e he l hl hid hmem
      exact h e he ⟨l, hl, hmem, hid⟩
    · rintro h e he ⟨l, hl, hmem, hid⟩
      exact h e he l hl hid hmem

end PlmCore.Psm
