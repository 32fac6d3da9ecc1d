/-
When the schema lets versions go.

Rollback, release, cleanup and history collapse delete versions with what they own, by one
statement per table. Which of these statements succeed is decided by the foreign keys that
do not cascade: `baseline_entry.node_link_id` for the links, and for the versions the four
tables that reference a version together with `previous_version_id`. Attributes and domains
of a deleted version go with it or before it.
-/
import PlmCore.Lib.Rows
import PlmCore.Psm.Transaction

set_option autoImplicit false

namespace PlmCore.Psm

open PlmCore.Lib

variable {t : Tables} {p : VersionSelection} {x : Uuid}

/-! ## What is selected -/

/-- The versions of a transaction, as a selection. -/
def ofTx (x : Uuid) : VersionSelection := fun v => v.txId = x

theorem mem_selectVersionIds : x ∈ t.selectVersionIds p ↔ ∃ v ∈ t.versions, p v = true ∧ v.id = x := by
  simp [Tables.selectVersionIds, and_assoc]

theorem mem_selectLinkIds :
    x ∈ t.selectLinkIds p ↔ ∃ l ∈ t.links, l.sourceNodeVersionId ∈ t.selectVersionIds p ∧ l.id = x := by
  simp [Tables.selectLinkIds, and_assoc]

/-- A version is selected by its id exactly when it is selected. -/
theorem id_mem_selectVersionIds (h : t.Valid) {v : VersionRow} (hv : v ∈ t.versions) :
    v.id ∈ t.selectVersionIds p ↔ p v = true := by
  rw [mem_selectVersionIds]
  constructor
  · rintro ⟨w, hw, hp, hid⟩
    rwa [List.inj_on_of_nodup_map h.pk_version hw hv hid] at hp
  · intro hp
    exact ⟨v, hv, hp, rfl⟩

/-- A version is selected by its id exactly when it belongs to the transaction. -/
theorem id_mem_ofTx (h : t.Valid) {v : VersionRow} (hv : v ∈ t.versions) :
    v.id ∈ t.selectVersionIds (ofTx x) ↔ v.txId = x := by
  rw [id_mem_selectVersionIds h hv]
  simp [ofTx]

theorem id_mem_selectLinkIds (h : t.Valid) {l : LinkRow} (hl : l ∈ t.links) :
    l.id ∈ t.selectLinkIds p ↔ l.sourceNodeVersionId ∈ t.selectVersionIds p := by
  rw [mem_selectLinkIds]
  constructor
  · rintro ⟨m, hm, hsel, hid⟩
    rwa [List.inj_on_of_nodup_map h.pk_link hm hl hid] at hsel
  · intro hsel
    exact ⟨l, hl, hsel, rfl⟩

theorem mem_versionIds_deleteVersions (h : t.Valid) :
    x ∈ (t.deleteVersions p).versionIds ↔ x ∈ t.versionIds ∧ x ∉ t.selectVersionIds p := by
  constructor
  · intro hx
    obtain ⟨v, hv, rfl⟩ := List.mem_map.mp hx
    obtain ⟨hv, hp⟩ := List.mem_filter.mp hv
    exact ⟨List.mem_map_of_mem hv, fun hsel => by simp [(id_mem_selectVersionIds h hv).mp hsel] at hp⟩
  · rintro ⟨hx, hsel⟩
    obtain ⟨v, hv, rfl⟩ := List.mem_map.mp hx
    refine List.mem_map_of_mem (List.mem_filter.mpr ⟨hv, ?_⟩)
    simpa [id_mem_selectVersionIds h hv] using hsel

theorem mem_linkIds_deleteLinks (h : t.Valid) :
    x ∈ (t.deleteLinks p).linkIds ↔ x ∈ t.linkIds ∧ x ∉ t.selectLinkIds p := by
  constructor
  · intro hx
    obtain ⟨l, hl, rfl⟩ := List.mem_map.mp hx
    obtain ⟨hl, hp⟩ := List.mem_filter.mp hl
    exact ⟨List.mem_map_of_mem hl, fun hsel => by
      simp [(id_mem_selectLinkIds h hl).mp hsel] at hp⟩
  · rintro ⟨hx, hsel⟩
    obtain ⟨l, hl, rfl⟩ := List.mem_map.mp hx
    refine List.mem_map_of_mem (List.mem_filter.mpr ⟨hl, ?_⟩)
    simpa [id_mem_selectLinkIds h hl] using hsel

/-! ## Statements that always succeed -/

theorem Tables.Valid.deleteBaselineEntries (h : t.Valid) : (t.deleteBaselineEntries p).Valid :=
  { h with
    fk_entry_baseline := fun e he => h.fk_entry_baseline e (List.mem_of_mem_filter he)
    fk_entry_link := fun e he => h.fk_entry_link e (List.mem_of_mem_filter he) }

theorem Tables.Valid.deleteAttributes (h : t.Valid) : (t.deleteAttributes p).Valid :=
  { h with
    uq_node_version_attr := nodup_map_filter h.uq_node_version_attr
    fk_attribute_version := fun a ha => h.fk_attribute_version a (List.mem_of_mem_filter ha) }

theorem Tables.Valid.deleteSignatures (h : t.Valid) : (t.deleteSignatures p).Valid :=
  { h with
    pk_signature := nodup_map_filter h.pk_signature
    fk_signature_node := fun g hg => h.fk_signature_node g (List.mem_of_mem_filter hg)
    fk_signature_version := fun g hg => h.fk_signature_version g (List.mem_of_mem_filter hg) }

/-! ## Statements a foreign key can refuse -/

/-- **Links go exactly when no baseline entry records one of them.** -/
theorem valid_deleteLinks_iff (h : t.Valid) :
    (t.deleteLinks p).Valid ↔ ∀ e ∈ t.baselineEntries, e.nodeLinkId ∉ t.selectLinkIds p := by
  constructor
  · intro h' e he
    exact ((mem_linkIds_deleteLinks h).mp (h'.fk_entry_link e he)).2
  · intro hent
    exact
      { h with
        pk_link := nodup_map_filter h.pk_link
        uq_nvla := nodup_map_filter h.uq_nvla
        fk_link_version := fun l hl => h.fk_link_version l (List.mem_of_mem_filter hl)
        fk_link_attribute := fun a ha => by
          obtain ⟨ha, hp⟩ := List.mem_filter.mp ha
          exact (mem_linkIds_deleteLinks h).mpr ⟨h.fk_link_attribute a ha, by simpa using hp⟩
        fk_entry_link := fun e he =>
          (mem_linkIds_deleteLinks h).mpr ⟨h.fk_entry_link e he, hent e he⟩ }

/-- No row outside the selection references a selected version, the domains apart. -/
structure Unreferenced (p : VersionSelection) (t : Tables) : Prop where
  previous : ∀ v ∈ t.versions, p v = false → ∀ x ∈ v.previousVersionId, x ∉ t.selectVersionIds p
  attributes : ∀ a ∈ t.attributes, a.nodeVersionId ∉ t.selectVersionIds p
  links : ∀ l ∈ t.links, l.sourceNodeVersionId ∉ t.selectVersionIds p
  signatures : ∀ g ∈ t.signatures, g.nodeVersionId ∉ t.selectVersionIds p
  comments : ∀ c ∈ t.comments, c.nodeVersionId ∉ t.selectVersionIds p

/-- **Versions go exactly when nothing references them.** -/
theorem valid_deleteVersions_iff (h : t.Valid) :
    (t.deleteVersions p).Valid ↔ Unreferenced p t := by
  constructor
  · intro h'
    have hgone : ∀ {x}, x ∈ (t.deleteVersions p).versionIds → x ∉ t.selectVersionIds p :=
      fun hx => ((mem_versionIds_deleteVersions h).mp hx).2
    refine ⟨fun v hv hp x hx => ?_, fun a ha => hgone (h'.fk_attribute_version a ha),
      fun l hl => hgone (h'.fk_link_version l hl), fun g hg => hgone (h'.fk_signature_version g hg),
      fun c hc => hgone (h'.fk_comment_version c hc)⟩
    exact hgone (h'.fk_version_previous v (List.mem_filter.mpr ⟨hv, by simp [hp]⟩) x hx)
  · intro hun
    have hstays : ∀ {x}, x ∈ t.versionIds → x ∉ t.selectVersionIds p →
        x ∈ (t.deleteVersions p).versionIds :=
      fun hx hsel => (mem_versionIds_deleteVersions h).mpr ⟨hx, hsel⟩
    exact
      { h with
        pk_version := nodup_map_filter h.pk_version
        uq_node_version := nodup_map_filter h.uq_node_version
        uq_nvd := nodup_map_filter h.uq_nvd
        fk_version_node := fun v hv => h.fk_version_node v (List.mem_of_mem_filter hv)
        fk_version_tx := fun v hv => h.fk_version_tx v (List.mem_of_mem_filter hv)
        fk_version_previous := fun v hv x hx => by
          obtain ⟨hv, hp⟩ := List.mem_filter.mp hv
          exact hstays (h.fk_version_previous v hv x hx)
            (hun.previous v hv (by simpa using hp) x hx)
        fk_attribute_version := fun a ha =>
          hstays (h.fk_attribute_version a ha) (hun.attributes a ha)
        fk_link_version := fun l hl => hstays (h.fk_link_version l hl) (hun.links l hl)
        fk_domain_version := fun d hd => by
          obtain ⟨hd, hp⟩ := List.mem_filter.mp hd
          exact hstays (h.fk_domain_version d hd) (by simpa using hp)
        fk_signature_version := fun g hg =>
          hstays (h.fk_signature_version g hg) (hun.signatures g hg)
        fk_comment_version := fun c hc => hstays (h.fk_comment_version c hc) (hun.comments c hc)
        generated := fun v hv => h.generated v (List.mem_of_mem_filter hv) }

end PlmCore.Psm
