/-
Releasing the nodes of a transaction beside rolling it back.

Both delete the versions of the transaction with their rows, delete the nodes left without a
version and unlock the others; a release goes node by node, in its own order of statements.
`foldl_released` says what a release of several nodes leaves as one function of the store, and from
it follows that releasing some nodes and then the rest is rolling back. What can differ is which
of the two the schema refuses: a rollback asks of all nodes at once what a release asks of each.
-/
import PlmCore.Psm.Discard
import PlmCore.Psm.Wrapper

set_option autoImplicit false

namespace PlmCore.Psm

open PlmCore.Lib

/-! ## Deletions in a row -/

section Deletions

variable {p q : VersionSelection} {t : Tables} {x : Uuid}

theorem selectVersionIds_congr (h : ∀ v ∈ t.versions, p v = q v) :
    t.selectVersionIds p = t.selectVersionIds q := by
  rw [Tables.selectVersionIds, List.filter_congr h, Tables.selectVersionIds]

theorem withoutVersions_congr (h : ∀ v ∈ t.versions, p v = q v) :
    t.withoutVersions p = t.withoutVersions q := by
  have hversions : (t.versions.filter fun v => ¬ p v) = t.versions.filter fun v => ¬ q v :=
    List.filter_congr fun v hv => by rw [h v hv]
  simp only [Tables.withoutVersions, Tables.selectLinkIds, selectVersionIds_congr h, hversions]
  rfl

/-- The links of the versions two deletions select. -/
theorem mem_selectLinkIds_or {a : Uuid} : a ∈ t.selectLinkIds (fun v => p v || q v) ↔
    a ∈ t.selectLinkIds p ∨ a ∈ (t.withoutVersions p).selectLinkIds q := by
  simp only [mem_selectLinkIds, @mem_selectVersionIds_or p q t (t.withoutVersions p) rfl]
  constructor
  · rintro ⟨l, hl, hsel, rfl⟩
    by_cases hp : l.sourceNodeVersionId ∈ t.selectVersionIds p
    · exact .inl ⟨l, hl, hp, rfl⟩
    · refine .inr ⟨l, List.mem_filter.mpr ⟨hl, by simpa using hp⟩, hsel.resolve_left hp, rfl⟩
  · rintro (⟨l, hl, hp, rfl⟩ | ⟨l, hl, hq, rfl⟩)
    · exact ⟨l, hl, .inl hp, rfl⟩
    · exact ⟨l, (List.mem_filter.mp hl).1, .inr hq, rfl⟩

/-- **Two deletions, one after the other, are one.** -/
theorem withoutVersions_withoutVersions :
    (t.withoutVersions p).withoutVersions q = t.withoutVersions fun v => p v || q v := by
  have hversions : ((t.versions.filter fun v => ¬ p v).filter fun v => ¬ q v) =
      t.versions.filter fun v => ¬ (p v || q v) := by
    rw [List.filter_filter]
    refine List.filter_congr fun v _ => ?_
    cases p v <;> cases q v <;> rfl
  apply Tables.ext
  · rfl
  · rfl
  · exact hversions
  · exact filter_selected_or fun _ => mem_selectVersionIds_or rfl
  · exact filter_selected_or fun _ => mem_selectVersionIds_or rfl
  · exact filter_selected_or fun _ => mem_selectLinkIds_or
  · exact filter_selected_or fun _ => mem_selectVersionIds_or rfl
  · exact filter_selected_or fun _ => mem_selectVersionIds_or rfl
  · rfl
  · exact filter_selected_or fun _ => mem_selectLinkIds_or
  · rfl
  · rfl
  · rfl

end Deletions

/-! ## A release of several nodes -/

/-- The store after some nodes of a transaction were released, but for the transaction. -/
def Tables.releasedAll (x : Uuid) (nodeIds : List Uuid) (t : Tables) : Tables :=
  ((t.withoutVersions (ofTxAndNodes x nodeIds)).deleteOrphans nodeIds).unlockNodes nodeIds

section Releasing

variable {x nodeId : Uuid} {nodeIds : List Uuid} {t : Tables}

/-- A node is left without a version by a release of several nodes as by its own. -/
theorem isOrphan_released {n : Uuid} (hn : n ∈ nodeIds) :
    (t.withoutVersions (ofTxAndNodes x nodeIds)).isOrphan n =
      (t.withoutVersions (ofTxAndNode x n)).isOrphan n := by
  rw [Bool.eq_iff_iff, isOrphan_iff, isOrphan_iff]
  simp only [Tables.withoutVersions, List.mem_filter, ofTxAndNode, ofTxAndNodes]
  grind

/-- Nodes that go and nodes that are unlocked, in two rounds and in one. -/
theorem filter_map_unlocked (nodes : List NodeRow) (first rest all : Uuid → Bool)
    (hfirst : first nodeId = all nodeId) (hrest : ∀ m, rest m = all m) :
    (((nodes.filter fun n => ¬ (n.id ∈ [nodeId] ∧ first n.id)).map fun n =>
        if n.id = nodeId then n.unlocked else n).filter fun n => ¬ (n.id ∈ nodeIds ∧ rest n.id)).map
          (fun n => if n.id ∈ nodeIds then n.unlocked else n) =
      (nodes.filter fun n => ¬ (n.id ∈ nodeId :: nodeIds ∧ all n.id)).map fun n =>
        if n.id ∈ nodeId :: nodeIds then n.unlocked else n := by
  rw [List.filter_map, List.map_map, List.filter_filter]
  have hid : ∀ n : NodeRow, (if n.id = nodeId then n.unlocked else n).id = n.id := by
    intro n
    split
    · rfl
    · rfl
  have hfilter : (nodes.filter fun n => ((fun n : NodeRow => decide ¬ (n.id ∈ nodeIds ∧ rest n.id = true)) ∘
      fun n => if n.id = nodeId then n.unlocked else n) n && decide ¬ (n.id ∈ [nodeId] ∧ first n.id = true))
      = nodes.filter fun n => ¬ (n.id ∈ nodeId :: nodeIds ∧ all n.id) := by
    refine List.filter_congr fun n _ => ?_
    rw [Function.comp_apply, hid, hrest]
    by_cases hn : n.id = nodeId
    · rw [hn, hfirst]
      cases all nodeId <;> simp
    · simp [hn]
  rw [hfilter]
  refine List.map_congr_left fun n _ => ?_
  rw [Function.comp_apply, hid]
  by_cases hn : n.id = nodeId
  · rw [if_pos hn, if_pos (List.mem_cons.mpr (.inl hn))]
    split
    · rfl
    · rfl
  · rw [if_neg hn]
    simp [hn]

/-- **Releasing one node and then the rest is releasing them all.** -/
theorem releasedAll_cons : (t.released x nodeId).releasedAll x nodeIds =
    t.releasedAll x (nodeId :: nodeIds) := by
  have hselect : ∀ v ∈ t.versions, (ofTxAndNode x nodeId v || ofTxAndNodes x nodeIds v) =
      ofTxAndNodes x (nodeId :: nodeIds) v := fun v _ => ofTxAndNodes_cons x nodeId nodeIds v
  have hrows : (t.withoutVersions (ofTxAndNode x nodeId)).withoutVersions (ofTxAndNodes x nodeIds) =
      t.withoutVersions (ofTxAndNodes x (nodeId :: nodeIds)) :=
    withoutVersions_withoutVersions.trans (withoutVersions_congr hselect)
  have hnodes : ((t.released x nodeId).releasedAll x nodeIds).nodes =
      (t.releasedAll x (nodeId :: nodeIds)).nodes := by
    refine filter_map_unlocked t.nodes
      (fun m => (t.withoutVersions (ofTxAndNode x nodeId)).isOrphan m)
      (fun m => ((t.released x nodeId).withoutVersions (ofTxAndNodes x nodeIds)).isOrphan m)
      (fun m => (t.withoutVersions (ofTxAndNodes x (nodeId :: nodeIds))).isOrphan m)
      (isOrphan_released List.mem_cons_self).symm fun m => ?_
    rw [← hrows]
    rfl
  obtain ⟨-, -, hversions, hattributes, hlinks, hlinkAttributes, hdomains, hsignatures, -, hentries, -⟩ :=
    Tables.ext_iff.mp hrows
  apply Tables.ext
  · rfl
  · exact hnodes
  · exact hversions
  · exact hattributes
  · exact hlinks
  · exact hlinkAttributes
  · exact hdomains
  · exact hsignatures
  · rfl
  · exact hentries
  · rfl
  · rfl
  · rfl

/-- Releasing no node is nothing. -/
theorem releasedAll_nil : t.releasedAll x [] = t := by
  have hselect : t.selectVersionIds (ofTxAndNodes x []) = [] := by
    simp [Tables.selectVersionIds, ofTxAndNodes]
  have hlinks : t.selectLinkIds (ofTxAndNodes x []) = [] := by
    rw [Tables.selectLinkIds, hselect]
    simp
  have hversions : (t.versions.filter fun v => ¬ ofTxAndNodes x [] v) = t.versions := by
    simp [ofTxAndNodes]
  have hnone : t.withoutVersions (ofTxAndNodes x []) = t := by
    rw [Tables.withoutVersions, hselect, hlinks, hversions]
    simp
  rw [Tables.releasedAll, hnone, Tables.deleteOrphans, Tables.unlockNodes]
  simp

/-- The loop of a release, as one function of the store. -/
theorem foldl_released : nodeIds.foldl (fun t n => t.released x n) t = t.releasedAll x nodeIds := by
  induction nodeIds generalizing t with
  | nil => exact releasedAll_nil.symm
  | cons n ns ih => rw [List.foldl_cons, ih, releasedAll_cons]

end Releasing

/-! ## The rows the two leave -/

/-- The same nodes, with their locks, versions, attributes, links, domains, signatures and
comments. -/
structure SameRows (t t' : Tables) : Prop where
  nodes : t.nodes = t'.nodes
  versions : t.versions = t'.versions
  attributes : t.attributes = t'.attributes
  links : t.links = t'.links
  linkAttributes : t.linkAttributes = t'.linkAttributes
  domains : t.domains = t'.domains
  signatures : t.signatures = t'.signatures
  comments : t.comments = t'.comments

namespace SameRows

variable {t₁ t₂ t₃ : Tables}

theorem refl (t : Tables) : SameRows t t := ⟨rfl, rfl, rfl, rfl, rfl, rfl, rfl, rfl⟩

theorem symm (h : SameRows t₁ t₂) : SameRows t₂ t₁ where
  nodes := h.nodes.symm
  versions := h.versions.symm
  attributes := h.attributes.symm
  links := h.links.symm
  linkAttributes := h.linkAttributes.symm
  domains := h.domains.symm
  signatures := h.signatures.symm
  comments := h.comments.symm

theorem trans (h : SameRows t₁ t₂) (h' : SameRows t₂ t₃) : SameRows t₁ t₃ where
  nodes := h.nodes.trans h'.nodes
  versions := h.versions.trans h'.versions
  attributes := h.attributes.trans h'.attributes
  links := h.links.trans h'.links
  linkAttributes := h.linkAttributes.trans h'.linkAttributes
  domains := h.domains.trans h'.domains
  signatures := h.signatures.trans h'.signatures
  comments := h.comments.trans h'.comments

end SameRows

section Rows

variable {x : Uuid} {nodeIds first rest : List Uuid} {t : Tables}

/-- The list holds the nodes of the transaction, each maybe more than once. -/
def Tables.ListsNodes (t : Tables) (x : Uuid) (nodeIds : List Uuid) : Prop :=
  ∀ n, n ∈ nodeIds ↔ n ∈ t.affectedNodes x

/-- **Releasing every node of a transaction leaves the rows a rollback leaves.** -/
theorem sameRows_rolledBack (h : t.ListsNodes x nodeIds) :
    SameRows (t.releasedAll x nodeIds) (t.rolledBack x) := by
  have hselect : ∀ v ∈ t.versions, ofTxAndNodes x nodeIds v = ofTx x v := by
    intro v hv
    rw [Bool.eq_iff_iff]
    simp only [ofTxAndNodes, ofTx, decide_eq_true_eq, and_iff_left_iff_imp]
    exact fun hx => (h v.nodeId).mpr (mem_affectedNodes.mpr ⟨v, hv, hx, rfl⟩)
  have hrows := withoutVersions_congr hselect
  have hunlocked : (t.unlockNodes (t.affectedNodes x)).withoutVersions (ofTx x) =
      (t.withoutVersions (ofTx x)).unlockNodes (t.affectedNodes x) := rfl
  have hnodes : (t.releasedAll x nodeIds).nodes = (t.rolledBack x).nodes := by
    have hunlock : ∀ n : NodeRow, (if n.id ∈ nodeIds then n.unlocked else n) =
        if n.id ∈ t.affectedNodes x then n.unlocked else n := fun n => if_congr (h n.id) rfl rfl
    have hid : ∀ n : NodeRow, (if n.id ∈ t.affectedNodes x then n.unlocked else n).id = n.id := by
      intro n
      split
      · rfl
      · rfl
    rw [Tables.releasedAll, hrows, Tables.rolledBack, hunlocked]
    change (List.filter _ t.nodes).map _ = List.filter _ (t.nodes.map _)
    rw [List.filter_map, List.map_congr_left fun n _ => hunlock n]
    congr 1
    refine List.filter_congr fun n _ => ?_
    rw [Function.comp_apply, hid, Bool.eq_iff_iff, decide_eq_true_iff, decide_eq_true_iff, h n.id]
    rfl
  exact
    { nodes := hnodes
      versions := by rw [Tables.releasedAll, hrows]; rfl
      attributes := by rw [Tables.releasedAll, hrows]; rfl
      links := by rw [Tables.releasedAll, hrows]; rfl
      linkAttributes := by rw [Tables.releasedAll, hrows]; rfl
      domains := by rw [Tables.releasedAll, hrows]; rfl
      signatures := by rw [Tables.releasedAll, hrows]; rfl
      comments := by rw [Tables.releasedAll, hrows]; rfl }

end Rows

/-! ## When a node can be released -/

/-- What the schema asks of the release of one node: nothing that stays points at the versions the
transaction holds of it, and if it has no other version no annotation that stays is on it. -/
structure Tables.NodeReleasable (x nodeId : Uuid) (t : Tables) : Prop where
  detached : Detached (ofTxAndNode x nodeId) t
  unannotated : (t.withoutVersions (ofTxAndNode x nodeId)).isOrphan nodeId = true →
    (∀ g ∈ (t.withoutVersions (ofTxAndNode x nodeId)).signatures, g.nodeId ≠ nodeId) ∧
      ∀ c ∈ t.comments, c.nodeId ≠ nodeId

section SameRows

variable {x : Uuid}

theorem SameRows.withEvents (es : List PlmEvent) (t : Tables) : SameRows (t.withEvents es) t :=
  ⟨rfl, rfl, rfl, rfl, rfl, rfl, rfl, rfl⟩

theorem SameRows.dropEmptyTx (x : Uuid) (t : Tables) : SameRows (t.dropEmptyTx x) t := by
  unfold Tables.dropEmptyTx
  split
  · exact ⟨rfl, rfl, rfl, rfl, rfl, rfl, rfl, rfl⟩
  · exact .refl t

/-- Tables with the same rows differ in the others only. -/
theorem SameRows.eq_with {t t' : Tables} (h : SameRows t t') : t' = { t with
    txs := t'.txs
    baselines := t'.baselines
    baselineEntries := t'.baselineEntries
    outbox := t'.outbox
    nextId := t'.nextId } := by
  obtain ⟨hnodes, hversions, hattributes, hlinks, hlinkAttributes, hdomains, hsignatures, hcomments⟩ := h
  rw [hnodes, hversions, hattributes, hlinks, hlinkAttributes, hdomains, hsignatures, hcomments]

/-- Tables with the same rows are rolled back to the same rows. -/
theorem SameRows.rolledBack {t t' : Tables} (h : SameRows t t') :
    SameRows (t.rolledBack x) (t'.rolledBack x) := by
  -- a rollback reads none of the tables the two differ in
  rw [h.eq_with]
  exact ⟨rfl, rfl, rfl, rfl, rfl, rfl, rfl, rfl⟩

/-- What can be released goes by these rows. -/
theorem SameRows.releasable {t t' : Tables} {n : Uuid} (h : SameRows t t')
    (hn : t.NodeReleasable x n) : t'.NodeReleasable x n := by
  rw [h.eq_with]
  exact ⟨⟨hn.1.1, hn.1.2⟩, hn.2⟩

end SameRows

section Releasable

variable {x nodeId m : Uuid} {nodeIds : List Uuid} {s : Db} {t : Tables}

theorem releaseNode_succeeds_iff :
    (∃ b s', Returns (releaseNode x nodeId) s b s') ↔ s.NodeReleasable x nodeId := by
  constructor
  · rintro ⟨b, s', h⟩
    simp only [releaseNode, returns_bind, returns_query, returns_execute, and_assoc,
      exists_and_left, exists_eq_left] at h
    obtain ⟨_, s₁, hpurge, -, s₂, horphan, -⟩ := h
    have hs₁ := purgeVersions_ok hpurge
    refine ⟨purgeVersions_succeeds_iff.mp ⟨s₁, hpurge⟩, fun ho => ?_⟩
    have hvalid := (valid_deleteOrphans_iff s₁.valid [nodeId]).mp
      ((horphan.trans (deleteOrphan_eq s₁.toTables nodeId)) ▸ s₂.valid) nodeId (List.mem_singleton_self _)
    rw [hs₁] at hvalid
    exact hvalid ho
  · intro h
    obtain ⟨s₁, hpurge⟩ := purgeVersions_succeeds_iff.mpr h.detached
    have hs₁ := purgeVersions_ok hpurge
    have hvalid : (s₁.deleteOrphans [nodeId]).Valid := by
      refine (valid_deleteOrphans_iff s₁.valid [nodeId]).mpr fun n hn ho => ?_
      rw [List.mem_singleton.mp hn] at ho ⊢
      rw [hs₁] at ho ⊢
      exact h.unannotated ho
    rw [← deleteOrphan_eq] at hvalid
    obtain ⟨s₂, horphan⟩ := (execute_succeeds (f := fun t : Tables =>
      if s₁.isOrphan nodeId then { t with nodes := t.nodes.filter (·.id ≠ nodeId) } else t)).mpr hvalid
    obtain ⟨s₃, hunlock⟩ := unlock_succeeds nodeId s₂
    refine ⟨s₁.isOrphan nodeId, s₃, ?_⟩
    simp only [releaseNode, returns_bind, returns_query, returns_pure, and_assoc, exists_and_left,
      exists_eq_left]
    exact ⟨_, s₁, hpurge, _, s₂, horphan, _, s₃, hunlock, rfl, rfl⟩

/-- A node that can be released can be released after another one. -/
theorem Tables.NodeReleasable.released (h : t.NodeReleasable x nodeId) :
    (t.released x m).NodeReleasable x nodeId := by
  have hselected : ∀ {p}, p ∈ (t.released x m).selectVersionIds (ofTxAndNode x nodeId) →
      p ∈ t.selectVersionIds (ofTxAndNode x nodeId) := by
    intro p hp
    obtain ⟨v, hv, hsel, hid⟩ := mem_selectVersionIds.mp hp
    exact mem_selectVersionIds.mpr ⟨v, List.mem_of_mem_filter hv, hsel, hid⟩
  refine ⟨⟨fun c hc hp => h.detached.comments c hc (hselected hp), fun v hv hsel p hprev hp =>
    h.detached.previous v (List.mem_of_mem_filter hv) hsel p hprev (hselected hp)⟩, fun ho => ?_⟩
  have ho' : (t.withoutVersions (ofTxAndNode x nodeId)).isOrphan nodeId = true := by
    rw [isOrphan_iff] at ho ⊢
    intro v hv hnode
    obtain ⟨hv, hsel⟩ := List.mem_filter.mp hv
    -- a version of the node that is not of the transaction is not released with another node
    have hx : v.txId ≠ x := by simpa [ofTxAndNode, hnode] using hsel
    refine ho v (List.mem_filter.mpr ⟨List.mem_filter.mpr ⟨hv, ?_⟩, hsel⟩) hnode
    simp [ofTxAndNode, hx]
  obtain ⟨hsignatures, hcomments⟩ := h.unannotated ho'
  refine ⟨fun g hg hnode => ?_, hcomments⟩
  obtain ⟨hg, hsel⟩ := List.mem_filter.mp hg
  obtain ⟨hg, hfirst⟩ := List.mem_filter.mp hg
  refine hsignatures g (List.mem_filter.mpr ⟨hg, ?_⟩) hnode
  simp only [decide_eq_true_eq] at hfirst hsel ⊢
  intro hin
  obtain ⟨v, hv, hp, hid⟩ := mem_selectVersionIds.mp hin
  by_cases hm : ofTxAndNode x m v = true
  · exact hfirst (mem_selectVersionIds.mpr ⟨v, hv, hm, hid⟩)
  · exact hsel (mem_selectVersionIds.mpr ⟨v, List.mem_filter.mpr ⟨hv, by simpa using hm⟩, hp, hid⟩)

/-- Nodes that can be released one by one can be released in a row. -/
theorem releaseEach_succeeds (h : ∀ n ∈ nodeIds, s.NodeReleasable x n) :
    ∃ deleted s', Returns (releaseEach x nodeIds) s deleted s' := by
  induction nodeIds generalizing s with
  | nil => exact ⟨[], s, returns_pure.mpr ⟨rfl, rfl⟩⟩
  | cons n ns ih =>
    obtain ⟨b, s₁, h₁⟩ := releaseNode_succeeds_iff.mpr (h n List.mem_cons_self)
    obtain ⟨es, hs₁⟩ := releaseNode_ok h₁
    have hrest : ∀ m ∈ ns, s₁.NodeReleasable x m := by
      intro m hm
      rw [hs₁]
      exact (SameRows.withEvents es _).symm.releasable (h m (List.mem_cons_of_mem n hm)).released
    obtain ⟨deleted, s', h₂⟩ := ih hrest
    refine ⟨if b then n :: deleted else deleted, s', ?_⟩
    simp only [releaseEach, returns_bind, returns_pure]
    exact ⟨b, s₁, h₁, deleted, s', h₂, rfl, rfl⟩

/-- A release in a row starts with a node that can be released. -/
theorem releasable_of_releaseEach {deleted : List Uuid} {s' : Db}
    (h : Returns (releaseEach x (nodeId :: nodeIds)) s deleted s') : s.NodeReleasable x nodeId := by
  simp only [releaseEach, returns_bind] at h
  obtain ⟨b, s₁, h₁, -⟩ := h
  exact releaseNode_succeeds_iff.mp ⟨b, s₁, h₁⟩

variable {ctx : Caller}

/-- A release of nodes that each can be released returns. -/
theorem releaseNodes_succeeds (hclose : s.mayClose ctx x) (h : ∀ n ∈ nodeIds, s.NodeReleasable x n) :
    ∃ s', Returns (releaseNodes ctx x nodeIds) s () s' := by
  by_cases hnil : nodeIds = []
  · refine ⟨s, ?_⟩
    simp only [releaseNodes, returns_bind, returns_loadAndVerifyOwnership, returns_ite, returns_pure]
    exact ⟨(), s, ⟨rfl, hclose⟩, .inl ⟨hnil, trivial, rfl⟩⟩
  · obtain ⟨deleted, s₁, heach⟩ := releaseEach_succeeds h
    have hdrop : (s₁.dropEmptyTx x).Valid := by
      unfold Tables.dropEmptyTx
      split
      · rename_i hnone
        exact s₁.valid.deleteTx fun v hv hx => List.filter_eq_nil_iff.mp hnone v hv (by simpa using hx)
      · exact s₁.valid
    obtain ⟨s₂, hdrop⟩ := execute_succeeds.mpr hdrop
    obtain ⟨s₃, hpublish⟩ : ∃ s₃,
        Returns (publishItemsReleased ctx (nodeIds.filter (· ∉ deleted))) s₂ () s₃ := by
      unfold publishItemsReleased
      split
      · exact ⟨s₂, returns_pure.mpr ⟨rfl, rfl⟩⟩
      · exact enqueue_succeeds _ s₂
    obtain ⟨s', hevents⟩ := enqueueAll_succeeds (fun n => .itemDeleted n ctx.userId) deleted s₃
    refine ⟨s', ?_⟩
    simp only [releaseNodes, returns_bind, returns_loadAndVerifyOwnership, returns_ite]
    exact ⟨(), s, ⟨rfl, hclose⟩, .inr ⟨hnil, deleted, s₁, heach, _, s₂, hdrop, _, s₃, hpublish, hevents⟩⟩

/-- A release of some nodes that returns found its first node releasable. -/
theorem releasable_of_releaseNodes {s' : Db} {u : Unit}
    (h : Returns (releaseNodes ctx x (nodeId :: nodeIds)) s u s') : s.NodeReleasable x nodeId := by
  simp only [releaseNodes, returns_bind, returns_ite, returns_loadAndVerifyOwnership, and_assoc,
    exists_and_left, exists_eq_left, exists_const] at h
  obtain ⟨-, ⟨hnil, -⟩ | ⟨-, deleted, s₁, heach, -⟩⟩ := h
  · cases hnil
  · exact releasable_of_releaseEach heach

/-- **When each node of a transaction can be released, it can be rolled back.** -/
theorem rollback_succeeds_of_releasable (hclose : s.mayClose ctx x)
    (h : ∀ n ∈ s.affectedNodes x, s.NodeReleasable x n) :
    ∃ s', Returns (rollbackTransaction ctx x) s () s' := by
  have hnode : ∀ {p}, p ∈ s.selectVersionIds (ofTx x) →
      ∃ n, s.NodeReleasable x n ∧ p ∈ s.selectVersionIds (ofTxAndNode x n) := by
    intro p hp
    obtain ⟨v, hv, hx, hid⟩ := mem_selectVersionIds.mp hp
    have hx : v.txId = x := by simpa [ofTx] using hx
    exact ⟨v.nodeId, h _ (mem_affectedNodes.mpr ⟨v, hv, hx, rfl⟩),
      mem_selectVersionIds.mpr ⟨v, hv, by simp [ofTxAndNode, hx], hid⟩⟩
  refine rollbackTransaction_succeeds_iff.mpr ⟨hclose, ⟨fun c hc hp => ?_, fun v hv hsel p hprev hp => ?_⟩,
    fun n hn ho => ?_⟩
  · obtain ⟨n, hn, hp⟩ := hnode hp
    exact hn.detached.comments c hc hp
  · obtain ⟨n, hn, hp⟩ := hnode hp
    refine hn.detached.previous v hv ?_ p hprev hp
    have hx : v.txId ≠ x := by simpa [ofTx] using hsel
    simp [ofTxAndNode, hx]
  · have hselect : ∀ v : VersionRow, v.nodeId = n → ofTx x v = ofTxAndNode x n v := by
      intro v hv
      simp [ofTx, ofTxAndNode, hv]
    have ho' : (s.withoutVersions (ofTxAndNode x n)).isOrphan n = true := by
      rw [isOrphan_iff] at ho ⊢
      intro v hv hnode
      obtain ⟨hv, hsel⟩ := List.mem_filter.mp hv
      rw [← hselect v hnode] at hsel
      exact ho v (List.mem_filter.mpr ⟨hv, hsel⟩) hnode
    obtain ⟨hsignatures, hcomments⟩ := (h n hn).unannotated ho'
    refine ⟨fun g hg => hsignatures g ?_, hcomments⟩
    obtain ⟨hg, hsel⟩ := List.mem_filter.mp hg
    refine List.mem_filter.mpr ⟨hg, ?_⟩
    simp only [decide_eq_true_eq] at hsel ⊢
    intro hin
    obtain ⟨v, hv, hp, hid⟩ := mem_selectVersionIds.mp hin
    have hp : v.txId = x ∧ v.nodeId = n := by simpa [ofTxAndNode] using hp
    exact hsel (mem_selectVersionIds.mpr ⟨v, hv, by simp [ofTx, hp.1], hid⟩)

end Releasable

/-! ## Releasing and rolling back -/

section Outcomes

variable {ctx : Caller} {x : Uuid} {nodeIds rest : List Uuid} {s s₁ s' : Db} {t : Tables} {u : Unit}

/-- The rows a release that returns leaves. -/
theorem sameRows_releaseNodes (h : Returns (releaseNodes ctx x nodeIds) s u s') :
    SameRows s'.toTables (s.releasedAll x nodeIds) := by
  obtain ⟨-, ⟨rfl, rfl⟩ | ⟨es, hs'⟩⟩ := releaseNodes_ok h
  · rw [releasedAll_nil]
    exact .refl _
  · rw [hs', foldl_released]
    exact (SameRows.withEvents es _).trans (SameRows.dropEmptyTx x _)

/-- The rows a rollback that returns leaves. -/
theorem sameRows_rollbackTransaction (h : Returns (rollbackTransaction ctx x) s u s') :
    SameRows s'.toTables (s.rolledBack x) := by
  obtain ⟨-, es, hs'⟩ := rollbackTransaction_ok h
  rw [hs']
  exact .withEvents es _

/-- The store after the caller released some nodes; a failed call leaves it as it was. -/
def afterRelease (ctx : Caller) (x : Uuid) (nodeIds : List Uuid) (s : Db) : Db :=
  (atomically (releaseNodes ctx x nodeIds) s).2

/-- The store after the caller rolled the transaction back, if he can. -/
def afterRollback (ctx : Caller) (x : Uuid) (s : Db) : Db :=
  (atomically (rollbackTransaction ctx x) s).2

theorem afterRollback_sameRows (hclose : s.mayClose ctx x)
    (h : ∀ n ∈ s.affectedNodes x, s.NodeReleasable x n) :
    SameRows (afterRollback ctx x s).toTables (s.rolledBack x) := by
  obtain ⟨s', hs'⟩ := rollback_succeeds_of_releasable hclose h
  rw [afterRollback, atomically_ok hs']
  exact sameRows_rollbackTransaction hs'

/-- Releasing leaves the other nodes of the transaction in it. -/
theorem mem_affectedNodes_releasedAll {n : Uuid} :
    n ∈ (t.releasedAll x nodeIds).affectedNodes x ↔ n ∈ t.affectedNodes x ∧ n ∉ nodeIds := by
  rw [mem_affectedNodes, mem_affectedNodes]
  constructor
  · rintro ⟨v, hv, hx, rfl⟩
    obtain ⟨hv, hsel⟩ := List.mem_filter.mp hv
    exact ⟨⟨v, hv, hx, rfl⟩, by simpa [ofTxAndNodes, hx] using hsel⟩
  · rintro ⟨⟨v, hv, hx, rfl⟩, hn⟩
    exact ⟨v, List.mem_filter.mpr ⟨hv, by simp [ofTxAndNodes, hn]⟩, hx, rfl⟩

/-- **Releasing some nodes and rolling the rest back is rolling all of them back.** -/
theorem rolledBack_releasedAll (h : ∀ n ∈ nodeIds, n ∈ t.affectedNodes x) :
    SameRows ((t.releasedAll x nodeIds).rolledBack x) (t.rolledBack x) := by
  have hrest : SameRows ((t.releasedAll x nodeIds).releasedAll x ((t.releasedAll x nodeIds).affectedNodes x))
      ((t.releasedAll x nodeIds).rolledBack x) := sameRows_rolledBack fun _ => Iff.rfl
  have hall : (t.releasedAll x nodeIds).releasedAll x ((t.releasedAll x nodeIds).affectedNodes x) =
      t.releasedAll x (nodeIds ++ (t.releasedAll x nodeIds).affectedNodes x) := by
    rw [← foldl_released, ← foldl_released, ← foldl_released, ← List.foldl_append]
  have hlists : t.ListsNodes x (nodeIds ++ (t.releasedAll x nodeIds).affectedNodes x) := by
    intro n
    rw [List.mem_append, mem_affectedNodes_releasedAll]
    constructor
    · rintro (hn | ⟨hn, -⟩)
      · exact h n hn
      · exact hn
    · intro hn
      by_cases hin : n ∈ nodeIds
      · exact .inl hin
      · exact .inr ⟨hn, hin⟩
  rw [hall] at hrest
  exact hrest.symm.trans (sameRows_rolledBack hlists)

/-- What a node asks of its release, the other nodes that are released do not ask more. -/
theorem Tables.NodeReleasable.releasedAll {n : Uuid} (h : t.NodeReleasable x n) :
    (t.releasedAll x nodeIds).NodeReleasable x n := by
  rw [← foldl_released]
  induction nodeIds generalizing t with
  | nil => exact h
  | cons m ms ih => exact ih h.released

theorem mayClose_dropEmptyTx (hclose : t.mayClose ctx x) (h : t.affectedNodes x ≠ []) :
    (t.dropEmptyTx x).mayClose ctx x := by
  have hkept : t.versionsInTx x ≠ [] := by
    intro hnone
    rw [Tables.affectedNodes, hnone] at h
    exact h rfl
  rw [Tables.dropEmptyTx, if_neg hkept]
  exact hclose

/-- **A release of some nodes, then the rollback of the rest.** -/
theorem release_then_rollback (hclose : s.mayClose ctx x)
    (h : ∀ n ∈ s.affectedNodes x, s.NodeReleasable x n) (hin : ∀ n ∈ nodeIds, n ∈ s.affectedNodes x) :
    SameRows (afterRollback ctx x (afterRelease ctx x nodeIds s)).toTables (s.rolledBack x) := by
  obtain ⟨s₁, h₁⟩ := releaseNodes_succeeds hclose fun n hn => h n (hin n hn)
  have hs₁ := sameRows_releaseNodes h₁
  have hrows : SameRows (s₁.rolledBack x) (s.rolledBack x) :=
    hs₁.rolledBack.trans (rolledBack_releasedAll hin)
  rw [afterRelease, atomically_ok h₁]
  by_cases hnone : s₁.affectedNodes x = []
  · -- nothing is left to roll back, and the release may have deleted the transaction
    have hsame : SameRows s₁.toTables (s₁.rolledBack x) := by
      have hlists : s₁.ListsNodes x [] := by
        intro n
        rw [hnone]
      simpa [releasedAll_nil] using sameRows_rolledBack hlists
    by_cases hreturns : ∃ s', Returns (rollbackTransaction ctx x) s₁ () s'
    · obtain ⟨s', h'⟩ := hreturns
      rw [afterRollback, atomically_ok h']
      exact (sameRows_rollbackTransaction h').trans hrows
    · rw [afterRollback, atomically_of_not_returns hreturns]
      exact hsame.trans hrows
  · have hclose₁ : s₁.mayClose ctx x := by
      obtain ⟨-, ⟨-, rfl⟩ | ⟨es, hs⟩⟩ := releaseNodes_ok h₁
      · exact hclose
      · rw [foldl_released, ← dropEmptyTx_withEvents] at hs
        rw [hs]
        refine mayClose_dropEmptyTx hclose fun hnil => hnone ?_
        rw [Tables.affectedNodes, Tables.versionsInTx, hs₁.versions]
        exact hnil
    have hreleasable : ∀ n ∈ s₁.affectedNodes x, s₁.NodeReleasable x n := by
      intro n hn
      have hn' : n ∈ (s.releasedAll x nodeIds).affectedNodes x := by
        rw [Tables.affectedNodes, Tables.versionsInTx, hs₁.versions] at hn
        exact hn
      exact hs₁.symm.releasable (h n (mem_affectedNodes_releasedAll.mp hn').1).releasedAll
    exact (afterRollback_sameRows hclose₁ hreleasable).trans hrows

/-- Releasing every node of the transaction, in any order, leaves what rolling it back leaves, and so
does releasing some of its nodes and then rolling the rest back. -/
structure ReleaseIsRollback (ctx : Caller) (x : Uuid) (s : Db) : Prop where
  everything : ∀ nodeIds : List Uuid, nodeIds.Perm (s.affectedNodes x) →
    SameRows (afterRelease ctx x nodeIds s).toTables (afterRollback ctx x s).toTables
  partition : ∀ first rest : List Uuid, (first ++ rest).Perm (s.affectedNodes x) →
    SameRows (afterRollback ctx x (afterRelease ctx x first s)).toTables (afterRollback ctx x s).toTables

/-- The schema lets the transaction be rolled back. -/
def Tables.Revocable (t : Tables) (x : Uuid) : Prop :=
  Detached (ofTx x) t ∧ t.orphansUnannotated x

/-- A release or a rollback that the schema or the ownership check refuses changes nothing. -/
theorem afterRollback_refused (h : ¬ (s.mayClose ctx x ∧ s.Revocable x)) : afterRollback ctx x s = s :=
  atomically_of_not_returns fun hreturns => h (rollbackTransaction_succeeds_iff.mp hreturns)

theorem afterRelease_refused (h : ∀ n ∈ nodeIds, ¬ (s.mayClose ctx x ∧ s.NodeReleasable x n)) :
    afterRelease ctx x nodeIds s = s := by
  unfold afterRelease
  by_cases hreturns : ∃ s', Returns (releaseNodes ctx x nodeIds) s () s'
  · obtain ⟨s', h'⟩ := hreturns
    rw [atomically_ok h']
    cases nodeIds with
    | nil =>
      simp only [releaseNodes, returns_bind, returns_ite, returns_pure] at h'
      obtain ⟨_, s₁, hown, ⟨-, -, rfl⟩ | ⟨hne, -⟩⟩ := h'
      · exact (returns_loadAndVerifyOwnership.mp hown).1
      · exact absurd trivial hne
    | cons n ns =>
      exact absurd ⟨(releaseNodes_ok h').1, releasable_of_releaseNodes h'⟩ (h n List.mem_cons_self)
  · exact atomically_of_not_returns hreturns

/-- A node of the transaction that was released has lost a version. -/
theorem not_sameRows_released {n : Uuid} (hn : n ∈ s.affectedNodes x) {t : Tables}
    (ht : ∀ v ∈ t.versions, ¬ (v.txId = x ∧ v.nodeId = n)) : ¬ SameRows t s.toTables := by
  intro h
  obtain ⟨v, hv, hx, rfl⟩ := mem_affectedNodes.mp hn
  rw [← h.versions] at hv
  exact ht v hv ⟨hx, rfl⟩

/-- A transaction of which one node can be released keeps the two alike only if each can. -/
theorem releasable_of_releaseIsRollback (hclose : s.mayClose ctx x) (h : ReleaseIsRollback ctx x s)
    {n : Uuid} (hn : n ∈ s.affectedNodes x) (hone : s.NodeReleasable x n) :
    ∀ m ∈ s.affectedNodes x, s.NodeReleasable x m := by
  -- the rollback returns: else the release of the one node could not be undone
  have hperm : ([n] ++ (s.affectedNodes x).erase n).Perm (s.affectedNodes x) :=
    (List.perm_cons_erase hn).symm
  have hsingle : ∀ m ∈ [n], s.NodeReleasable x m := by simpa using hone
  obtain ⟨s₁, h₁⟩ := releaseNodes_succeeds hclose hsingle
  have hgone : ∀ v ∈ s₁.versions, ¬ (v.txId = x ∧ v.nodeId = n) := by
    rw [(sameRows_releaseNodes h₁).versions]
    intro v hv
    simpa [ofTxAndNodes, imp_iff_not_or] using (List.mem_filter.mp hv).2
  have hrevocable : s.mayClose ctx x ∧ s.Revocable x := by
    by_contra hrefused
    have hsame := h.partition [n] _ hperm
    rw [afterRollback_refused hrefused, afterRelease, atomically_ok h₁] at hsame
    refine not_sameRows_released hn (fun v hv => ?_) hsame
    unfold afterRollback at hv
    by_cases hreturns : ∃ s', Returns (rollbackTransaction ctx x) s₁ () s'
    · obtain ⟨s', h'⟩ := hreturns
      rw [atomically_ok h', (sameRows_rollbackTransaction h').versions] at hv
      exact hgone v (List.mem_of_mem_filter hv)
    · rw [atomically_of_not_returns hreturns] at hv
      exact hgone v hv
  intro m hm
  by_contra hstuck
  -- a release that starts with a stuck node is refused, the rollback is not
  have hperm : ([m] ++ (s.affectedNodes x).erase m).Perm (s.affectedNodes x) :=
    (List.perm_cons_erase hm).symm
  have hsame := h.everything _ hperm
  obtain ⟨s', h'⟩ := rollbackTransaction_succeeds_iff.mpr hrevocable
  have hrelease : afterRelease ctx x ([m] ++ (s.affectedNodes x).erase m) s = s :=
    atomically_of_not_returns fun hreturns => hreturns.elim fun s₂ h₂ =>
      hstuck (releasable_of_releaseNodes h₂)
  rw [hrelease, afterRollback, atomically_ok h'] at hsame
  refine not_sameRows_released hm (fun v hv hsel => ?_) hsame.symm
  rw [(sameRows_rollbackTransaction h').versions] at hv
  simpa [ofTx, hsel.1] using (List.mem_filter.mp hv).2

/-- **Releasing and rolling back agree exactly when the caller may not close the transaction, or each
of its nodes can be released, or none can and the transaction cannot be rolled back.** -/
theorem release_is_rollback_iff : ReleaseIsRollback ctx x s ↔
    (s.mayClose ctx x → (∀ n ∈ s.affectedNodes x, s.NodeReleasable x n) ∨
      (¬ s.Revocable x ∧ ∀ n ∈ s.affectedNodes x, ¬ s.NodeReleasable x n)) := by
  constructor
  · intro h hclose
    by_cases hone : ∃ n ∈ s.affectedNodes x, s.NodeReleasable x n
    · obtain ⟨n, hn, hone⟩ := hone
      exact .inl (releasable_of_releaseIsRollback hclose h hn hone)
    · push Not at hone
      by_cases hrevocable : s.Revocable x
      · -- only a transaction without nodes is rolled back while none can be released
        refine .inl fun m hm => ?_
        obtain ⟨s', h'⟩ := rollbackTransaction_succeeds_iff.mpr ⟨hclose, hrevocable⟩
        have hsame := h.everything _ (List.Perm.refl _)
        rw [afterRelease_refused fun n hn hok => hone n hn hok.2, afterRollback, atomically_ok h'] at hsame
        refine absurd hsame.symm (not_sameRows_released hm fun v hv hsel => ?_)
        rw [(sameRows_rollbackTransaction h').versions] at hv
        simpa [ofTx, hsel.1] using (List.mem_filter.mp hv).2
      · exact .inr ⟨hrevocable, hone⟩
  · intro h
    by_cases hall : s.mayClose ctx x ∧ ∀ n ∈ s.affectedNodes x, s.NodeReleasable x n
    · obtain ⟨hclose, hall⟩ := hall
      have hrollback := (afterRollback_sameRows hclose hall).symm
      refine ⟨fun nodeIds hperm => ?_, fun first rest hperm => ?_⟩
      · obtain ⟨s₁, h₁⟩ := releaseNodes_succeeds hclose fun n hn => hall n (hperm.mem_iff.mp hn)
        rw [afterRelease, atomically_ok h₁]
        have hlists : s.ListsNodes x nodeIds := fun n => hperm.mem_iff
        exact ((sameRows_releaseNodes h₁).trans (sameRows_rolledBack hlists)).trans hrollback
      · refine (release_then_rollback hclose hall fun n hn => ?_).trans hrollback
        exact hperm.mem_iff.mp (List.mem_append_left rest hn)
    · -- everything is refused
      have hnodes : ∀ n ∈ s.affectedNodes x, ¬ (s.mayClose ctx x ∧ s.NodeReleasable x n) := by
        rintro n hn ⟨hclose, hok⟩
        obtain hok' | ⟨-, hnone⟩ := h hclose
        · exact hall ⟨hclose, hok'⟩
        · exact hnone n hn hok
      have hrefused : ¬ (s.mayClose ctx x ∧ s.Revocable x) := by
        rintro ⟨hclose, hrevocable⟩
        obtain hok | ⟨hnot, -⟩ := h hclose
        · exact hall ⟨hclose, hok⟩
        · exact hnot hrevocable
      refine ⟨fun nodeIds hperm => ?_, fun first rest hperm => ?_⟩
      · rw [afterRollback_refused hrefused, afterRelease_refused fun n hn => hnodes n (hperm.mem_iff.mp hn)]
        exact .refl _
      · rw [afterRelease_refused fun n hn => hnodes n (hperm.mem_iff.mp (List.mem_append_left rest hn))]
        exact .refl _

end Outcomes

section Runs

/-- A transaction with two new parts; someone has commented the second. -/
def commentedPartDb : Db where
  toTables :=
    { Tables.empty with
      txs := [⟨1, "engineer", .OPEN, none, 0, none⟩]
      nodes :=
        [⟨0, "nt-part", none, some "P-1", none, some "engineer", some 0, 0, "engineer"⟩,
          ⟨3, "nt-part", none, some "P-2", none, some "engineer", some 0, 0, "engineer"⟩]
      versions :=
        [⟨2, 0, 1, "A", 1, some "draft", .LIFECYCLE, none, 1, none, none, none, "main", 0, "engineer"⟩,
          ⟨4, 3, 1, "A", 1, some "draft", .LIFECYCLE, none, 1, none, none, none, "main", 0, "engineer"⟩]
      comments := [⟨5, 3, 4, "engineer", 0, "check the hole", none, none, none⟩]
      nextId := 6 }
  valid := by decide

/-- The comment stands in the way of the rollback but not of the release of the first part: after it
the rollback fails, and the first part is gone. -/
theorem comment_parts_release_from_rollback : ¬ ReleaseIsRollback engineer 1 commentedPartDb := by
  intro h
  have hnodes := (h.partition [0] [3] (by decide)).nodes
  revert hnodes
  decide +kernel

end Runs

end PlmCore.Psm
