/-
What the ends of a transaction do to its versions, as the search service sees it.

Rollback, release and cleanup delete versions of open transactions with their rows and their
links, and may delete nodes that are left without a version. Of the events they write, the search
service subscribes only to those of the deleted nodes. A commit changes the transaction of
versions and its status, and writes no event the search service subscribes to.
-/
import PlmCore.Psm.TransactionEffect

set_option autoImplicit false

namespace PlmCore.Psm

open PlmCore.Lib

/-! ## The events the search service subscribes to -/

/-- The subjects of `NatsEventConsumer`: ITEM_CREATED, ITEM_UPDATED, ITEM_DELETED, LINK_CREATED and
LINK_DELETED. -/
def PlmEvent.isIndexed : PlmEvent → Bool
  | .itemCreated .. | .itemUpdated .. | .itemDeleted .. | .linkCreated .. | .linkDeleted .. => true
  | _ => false

/-- The events the search service gets, in order. -/
def Tables.indexEvents (t : Tables) : List PlmEvent := t.outbox.filter (·.isIndexed)

theorem indexEvents_withEvents (es : List PlmEvent) (t : Tables) :
    (t.withEvents es).indexEvents = t.indexEvents ++ es.filter (·.isIndexed) :=
  List.filter_append ..

theorem indexEvents_of_outbox {t t' : Tables} (h : t'.outbox = t.outbox) :
    t'.indexEvents = t.indexEvents := by
  rw [Tables.indexEvents, h, Tables.indexEvents]

theorem tryLock_indexEvents {ctx : Caller} {nodeId : Uuid} {s s' : Db}
    (h : Returns (tryLock ctx nodeId) s () s') : s'.indexEvents = s.indexEvents := by
  obtain ⟨n, -, ⟨-, rfl⟩ | ⟨-, hs'⟩⟩ := tryLock_ok h
  · rfl
  · rw [hs', indexEvents_withEvents, indexEvents_of_outbox rfl]
    exact List.append_nil _

theorem unlock_indexEvents {nodeId : Uuid} {s s' : Db} (h : Returns (unlock nodeId) s () s') :
    s'.indexEvents = s.indexEvents := by
  simp only [unlock, publishRelease, returns_bind, returns_query, returns_execute, and_assoc,
    exists_and_left, exists_eq_left, exists_const] at h
  obtain ⟨s₁, h₁, h⟩ := h
  have hsame : s₁.indexEvents = s.indexEvents := indexEvents_of_outbox (by rw [h₁]; rfl)
  split at h
  · rw [returns_enqueue.mp h, indexEvents_withEvents, hsame]
    exact List.append_nil _
  · obtain ⟨-, rfl⟩ := returns_pure.mp h
    exact hsame

theorem unlockAll_indexEvents {α : Type} {f : α → Uuid} {xs : List α} {s s' : Db} {u : PUnit}
    (h : Returns (xs.forM fun x => unlock (f x)) s u s') : s'.indexEvents = s.indexEvents := by
  refine Moves.forM (R := fun s s' : Db => s'.indexEvents = s.indexEvents) (fun _ => rfl)
    (fun h₁ h₂ => h₂.trans h₁) (fun x _ s _ s' hx => unlock_indexEvents hx) s u s' h

/-! ## Deletions in a row -/

section Deletions

variable {p q : VersionSelection} {t t₁ : Tables}

/-- The ids two deletions select, one after the other. -/
theorem mem_selectVersionIds_or (h : t₁.versions = t.versions.filter fun v => ¬ p v) {a : Uuid} :
    a ∈ t.selectVersionIds (fun v => p v || q v) ↔
      a ∈ t.selectVersionIds p ∨ a ∈ t₁.selectVersionIds q := by
  simp only [mem_selectVersionIds, h, List.mem_filter, Bool.or_eq_true]
  constructor
  · rintro ⟨v, hv, hpq, rfl⟩
    by_cases hp : p v = true
    · exact .inl ⟨v, hv, hp, rfl⟩
    · exact .inr ⟨v, ⟨hv, by simpa using hp⟩, hpq.resolve_left hp, rfl⟩
  · rintro (⟨v, hv, hp, rfl⟩ | ⟨v, ⟨hv, -⟩, hq, rfl⟩)
    · exact ⟨v, hv, .inl hp, rfl⟩
    · exact ⟨v, hv, .inr hq, rfl⟩

/-- Rows that two deletions leave. -/
theorem filter_selected_or {α : Type} {rows : List α} {f : α → Uuid} {a b c : List Uuid}
    (h : ∀ i, i ∈ c ↔ i ∈ a ∨ i ∈ b) :
    (rows.filter (f · ∉ a)).filter (f · ∉ b) = rows.filter (f · ∉ c) := by
  rw [List.filter_filter]
  refine List.filter_congr fun r _ => ?_
  by_cases ha : f r ∈ a
  · simp [ha, h]
  · by_cases hb : f r ∈ b
    · simp [hb, h]
    · simp [ha, hb, h]

end Deletions

/-! ## What is discarded -/

/-- `s'` is `s` without the selected versions, with their rows and links, and without the nodes
`gone`. The versions that go are of open transactions, and those of a node that goes all go. -/
structure Discards (p : VersionSelection) (gone : List Uuid) (s s' : Tables) : Prop where
  versions : s'.versions = s.versions.filter fun v => ¬ p v
  attributes : s'.attributes = s.attributes.filter (·.nodeVersionId ∉ s.selectVersionIds p)
  domains : s'.domains = s.domains.filter (·.nodeVersionId ∉ s.selectVersionIds p)
  links : s'.links = s.links.filter (·.sourceNodeVersionId ∉ s.selectVersionIds p)
  nodes : s'.nodes.map NodeRow.unlocked = (s.nodes.filter (·.id ∉ gone)).map NodeRow.unlocked
  committed : ∀ v ∈ s'.versions, s'.isCommitted v.txId = s.isCommitted v.txId
  wereOpen : ∀ v ∈ s.versions, p v = true → s.isCommitted v.txId = false
  whole : ∀ nodeId ∈ gone, ∀ v ∈ s.versions, v.nodeId = nodeId → p v = true

namespace Discards

variable {p q : VersionSelection} {gone gone' : List Uuid} {s s₁ s' : Tables}

/-- Nothing is discarded by a step that leaves these tables as they are, locks apart. -/
theorem of_same (hversions : s'.versions = s.versions) (hattributes : s'.attributes = s.attributes)
    (hdomains : s'.domains = s.domains) (hlinks : s'.links = s.links)
    (hnodes : s'.nodes.map NodeRow.unlocked = s.nodes.map NodeRow.unlocked)
    (hcommitted : ∀ v ∈ s.versions, s'.isCommitted v.txId = s.isCommitted v.txId) : Discards (fun _ => false) [] s s' where
  versions := by rw [hversions]; simp
  attributes := by rw [hattributes]; simp [Tables.selectVersionIds]
  domains := by rw [hdomains]; simp [Tables.selectVersionIds]
  links := by rw [hlinks]; simp [Tables.selectVersionIds]
  nodes := by rw [hnodes]; simp
  committed := by rw [hversions]; exact hcommitted
  wereOpen := by simp
  whole := by simp

theorem filter_selected {α : Type} (h : Discards p gone s s₁) {f : α → Uuid} {rows rows₁ rows' : List α}
    (h₁ : rows₁ = rows.filter fun a => f a ∉ s.selectVersionIds p)
    (h' : rows' = rows₁.filter fun a => f a ∉ s₁.selectVersionIds q) :
    rows' = rows.filter fun a => f a ∉ s.selectVersionIds fun v => p v || q v := by
  rw [h', h₁]
  exact filter_selected_or fun _ => mem_selectVersionIds_or h.versions

/-- The nodes that stay, locks apart. -/
theorem map_unlocked_filter (nodes : List NodeRow) (gone : List Uuid) :
    (nodes.filter (·.id ∉ gone)).map NodeRow.unlocked =
      (nodes.map NodeRow.unlocked).filter (·.id ∉ gone) := by
  rw [List.filter_map]
  rfl

/-- Two deletions, one after the other. -/
theorem trans (h : Discards p gone s s₁) (h' : Discards q gone' s₁ s') :
    Discards (fun v => p v || q v) (gone ++ gone') s s' where
  versions := by
    rw [h'.versions, h.versions, List.filter_filter]
    refine List.filter_congr fun v _ => ?_
    cases p v <;> cases q v <;> rfl
  attributes := h.filter_selected h.attributes h'.attributes
  domains := h.filter_selected h.domains h'.domains
  links := h.filter_selected h.links h'.links
  nodes := by
    rw [h'.nodes, map_unlocked_filter, h.nodes, map_unlocked_filter, List.filter_filter,
      map_unlocked_filter]
    refine List.filter_congr fun n _ => ?_
    by_cases h₁ : n.id ∈ gone <;> by_cases h₂ : n.id ∈ gone' <;> simp [h₁, h₂]
  committed v hv := by
    have hv₁ : v ∈ s₁.versions := by
      rw [h'.versions] at hv
      exact List.mem_of_mem_filter hv
    rw [h'.committed v hv, h.committed v hv₁]
  wereOpen v hv hpq := by
    cases hp : p v with
    | true => exact h.wereOpen v hv hp
    | false =>
      have hv₁ : v ∈ s₁.versions := by
        rw [h.versions]
        exact List.mem_filter.mpr ⟨hv, by simp [hp]⟩
      rw [← h.committed v hv₁]
      exact h'.wereOpen v hv₁ (by simpa [hp] using hpq)
  whole nodeId hgone v hv hnode := by
    cases hp : p v with
    | true => rfl
    | false =>
      have hv₁ : v ∈ s₁.versions := by
        rw [h.versions]
        exact List.mem_filter.mpr ⟨hv, by simp [hp]⟩
      obtain hgone | hgone := List.mem_append.mp hgone
      · rw [h.whole nodeId hgone v hv hnode] at hp
        exact absurd hp (by simp)
      · simpa using h'.whole nodeId hgone v hv₁ hnode

end Discards

/-! ## What the deletions discard -/

/-- The nodes of a list whose versions are all selected. -/
def Tables.emptied (t : Tables) (p : VersionSelection) (nodeIds : List Uuid) : List Uuid :=
  nodeIds.filter fun nodeId => (t.withoutVersions p).isOrphan nodeId

theorem unlocked_setLock (t : Tables) (nodeId : Uuid) (b : Option String) (a : Option Nat) :
    (t.setLock nodeId b a).nodes.map NodeRow.unlocked = t.nodes.map NodeRow.unlocked := by
  simp only [Tables.setLock, List.map_map]
  refine List.map_congr_left fun n _ => ?_
  simp only [Function.comp_apply]
  split <;> rfl

theorem unlocked_unlockNodes (t : Tables) (ids : List Uuid) :
    (t.unlockNodes ids).nodes.map NodeRow.unlocked = t.nodes.map NodeRow.unlocked := by
  simp only [Tables.unlockNodes, List.map_map]
  refine List.map_congr_left fun n _ => ?_
  simp only [Function.comp_apply]
  split <;> rfl

theorem isCommitted_deleteTx {t : Tables} {x y : Uuid} (h : y ≠ x) :
    (t.deleteTx x).isCommitted y = t.isCommitted y := by
  have hfind : (t.deleteTx x).tx? y = t.tx? y := by
    simp only [Tables.tx?, Tables.deleteTx, List.find?_filter]
    congr 1
    funext z
    by_cases hz : z.id = y
    · simp [hz, h]
    · simp [hz]
  rw [Tables.isCommitted, Tables.txStatus?, hfind, Tables.isCommitted, Tables.txStatus?]

section Deletions

variable {s : Tables} {x nodeId : Uuid}

theorem withoutVersions_discards {p : VersionSelection} (hp : ∀ v, p v = true → s.isCommitted v.txId = false) :
    Discards p [] s (s.withoutVersions p) where
  versions := rfl
  attributes := rfl
  domains := rfl
  links := rfl
  nodes := by simp [Tables.withoutVersions]
  committed _ _ := rfl
  wereOpen v _ hv := hp v hv
  whole := by simp

/-- The nodes of a list that have no version left go. -/
theorem deleteOrphans_discards (nodeIds : List Uuid) :
    Discards (fun _ => false) (nodeIds.filter (s.isOrphan ·)) s (s.deleteOrphans nodeIds) where
  versions := by simp [Tables.deleteOrphans]
  attributes := by simp [Tables.deleteOrphans, Tables.selectVersionIds]
  domains := by simp [Tables.deleteOrphans, Tables.selectVersionIds]
  links := by simp [Tables.deleteOrphans, Tables.selectVersionIds]
  nodes := by simp [Tables.deleteOrphans]
  committed _ _ := rfl
  wereOpen := by simp
  whole m hm v hv hnode := absurd hnode (isOrphan_iff.mp (List.mem_filter.mp hm).2 v hv)

theorem deleteTx_discards (h : ∀ v ∈ s.versions, v.txId ≠ x) :
    Discards (fun _ => false) [] s (s.deleteTx x) :=
  .of_same rfl rfl rfl rfl rfl fun v hv => isCommitted_deleteTx (h v hv)

theorem Discards.of_eq {p q : VersionSelection} {gone gone' : List Uuid} {t t' : Tables}
    (h : Discards p gone t t') (hpq : ∀ v, p v = q v) (hgone : gone = gone') :
    Discards q gone' t t' := by
  rw [← funext hpq, ← hgone]
  exact h

/-- **A rollback** discards the versions of the transaction, and its nodes that have no other. -/
theorem rolledBack_discards (h : s.isOpen x = true) :
    Discards (ofTx x) (s.emptied (ofTx x) (s.affectedNodes x)) s (s.rolledBack x) := by
  have hunlock : Discards (fun _ => false) [] s (s.unlockNodes (s.affectedNodes x)) :=
    .of_same rfl rfl rfl rfl (unlocked_unlockNodes ..) fun _ _ => rfl
  have hopen : ∀ v, ofTx x v = true → (s.unlockNodes (s.affectedNodes x)).isCommitted v.txId = false := by
    intro v hv
    rw [show v.txId = x by simpa [ofTx] using hv]
    exact Tables.not_isCommitted_of_isOpen h
  have hall := ((hunlock.trans (withoutVersions_discards hopen)).trans
    (deleteOrphans_discards (s.affectedNodes x))).trans (deleteTx_discards (x := x) (by
      intro v hv
      simpa [ofTx] using (List.mem_filter.mp hv).2))
  exact hall.of_eq (by simp) (by simp; rfl)

/-- Releasing one node discards the versions the transaction holds of it, and the node if it has
no other. -/
theorem released_discards (h : s.isCommitted x = false) :
    Discards (ofTxAndNode x nodeId) (s.emptied (ofTxAndNode x nodeId) [nodeId]) s
      (s.released x nodeId) := by
  have hopen : ∀ v, ofTxAndNode x nodeId v = true → s.isCommitted v.txId = false := by
    intro v hv
    have hv : v.txId = x ∧ v.nodeId = nodeId := by simpa [ofTxAndNode] using hv
    rw [hv.1]
    exact h
  have hlock : Discards (fun _ => false) []
      ((s.withoutVersions (ofTxAndNode x nodeId)).deleteOrphans [nodeId]) (s.released x nodeId) :=
    .of_same rfl rfl rfl rfl (unlocked_setLock ..) fun _ _ => rfl
  have hall := ((withoutVersions_discards hopen).trans (deleteOrphans_discards [nodeId])).trans hlock
  exact hall.of_eq (by simp) (by simp; rfl)

/-- The versions a transaction holds of some nodes, as a selection. -/
def ofTxAndNodes (x : Uuid) (nodeIds : List Uuid) : VersionSelection :=
  fun v => v.txId = x ∧ v.nodeId ∈ nodeIds

theorem ofTxAndNodes_cons (x nodeId : Uuid) (nodeIds : List Uuid) (v : VersionRow) :
    (ofTxAndNode x nodeId v || ofTxAndNodes x nodeIds v) = ofTxAndNodes x (nodeId :: nodeIds) v := by
  by_cases hx : v.txId = x
  · by_cases hn : v.nodeId = nodeId <;> simp [ofTxAndNode, ofTxAndNodes, hx, hn]
  · simp [ofTxAndNode, ofTxAndNodes, hx]

/-- Of the versions of a listed node, those of the transaction are the selected ones. -/
theorem emptied_ofTxAndNodes_cons (x nodeId : Uuid) (nodeIds : List Uuid) (s : Tables) :
    s.emptied (ofTxAndNode x nodeId) [nodeId] ++
        (s.released x nodeId).emptied (ofTxAndNodes x nodeIds) nodeIds =
      s.emptied (ofTxAndNodes x (nodeId :: nodeIds)) (nodeId :: nodeIds) := by
  have hone : s.emptied (ofTxAndNode x nodeId) [nodeId] =
      [nodeId].filter fun m => (s.withoutVersions (ofTxAndNodes x (nodeId :: nodeIds))).isOrphan m := by
    refine List.filter_congr fun m hm => ?_
    rw [List.mem_singleton.mp hm, Bool.eq_iff_iff, isOrphan_iff, isOrphan_iff]
    simp only [Tables.withoutVersions, List.mem_filter, ofTxAndNode, ofTxAndNodes]
    grind
  have hrest : (s.released x nodeId).emptied (ofTxAndNodes x nodeIds) nodeIds =
      nodeIds.filter fun m => (s.withoutVersions (ofTxAndNodes x (nodeId :: nodeIds))).isOrphan m := by
    refine List.filter_congr fun m hm => ?_
    rw [Bool.eq_iff_iff, isOrphan_iff, isOrphan_iff]
    simp only [Tables.withoutVersions, Tables.released, Tables.deleteOrphans, Tables.setLock,
      List.mem_filter, ofTxAndNode, ofTxAndNodes]
    grind
  rw [hone, hrest, ← List.filter_append]
  rfl

/-- **A release** discards the versions the transaction holds of the nodes, and those of the nodes
that have no other. -/
theorem releasedAll_discards (nodeIds : List Uuid) (h : s.isCommitted x = false) :
    Discards (ofTxAndNodes x nodeIds) (s.emptied (ofTxAndNodes x nodeIds) nodeIds) s
      (nodeIds.foldl (fun t n => t.released x n) s) := by
  induction nodeIds generalizing s with
  | nil =>
    have hnone : Discards (fun _ => false) [] s s := .of_same rfl rfl rfl rfl rfl fun _ _ => rfl
    exact hnone.of_eq (by simp [ofTxAndNodes]) rfl
  | cons nodeId nodeIds ih =>
    have hlast := ih (s := s.released x nodeId) h
    exact ((released_discards h).trans hlast).of_eq (ofTxAndNodes_cons x nodeId nodeIds)
      (emptied_ofTxAndNodes_cons x nodeId nodeIds s)

theorem dropEmptyTx_discards : Discards (fun _ => false) [] s (s.dropEmptyTx x) := by
  unfold Tables.dropEmptyTx
  split
  · rename_i hnone
    refine deleteTx_discards fun v hv hx => ?_
    have hmem : v ∈ s.versionsInTx x := List.mem_filter.mpr ⟨hv, by simpa using hx⟩
    rw [hnone] at hmem
    cases hmem
  · exact .of_same rfl rfl rfl rfl rfl fun _ _ => rfl

/-- The versions of some transactions, as a selection. -/
def ofTxs (xs : List Uuid) : VersionSelection := fun v => v.txId ∈ xs

/-- **The cleanup** discards the versions of the stale transactions, and no node. -/
theorem cleaned_discards (xs : List Uuid) (h : ∀ x ∈ xs, s.isCommitted x = false) :
    Discards (ofTxs xs) [] s
      (xs.foldl (fun t x => (t.withoutVersions (ofTx x)).deleteTx x) s) := by
  induction xs generalizing s with
  | nil =>
    have hnone : Discards (fun _ => false) [] s s := .of_same rfl rfl rfl rfl rfl fun _ _ => rfl
    exact hnone.of_eq (by simp [ofTxs]) rfl
  | cons x xs ih =>
    have hopen : ∀ v, ofTx x v = true → s.isCommitted v.txId = false := by
      intro v hv
      rw [show v.txId = x by simpa [ofTx] using hv]
      exact h x List.mem_cons_self
    have hstep := (withoutVersions_discards hopen).trans (deleteTx_discards (x := x) (by
      intro v hv
      simpa [ofTx] using (List.mem_filter.mp hv).2))
    have hrest : ∀ y ∈ xs, ((s.withoutVersions (ofTx x)).deleteTx x).isCommitted y = false := by
      intro y hy
      by_cases hyx : y = x
      · have hgone : ((s.withoutVersions (ofTx x)).deleteTx x).tx? y = none := by
          simp [Tables.tx?, Tables.deleteTx, hyx]
        simp [Tables.isCommitted, Tables.txStatus?, hgone]
      · rw [isCommitted_deleteTx hyx]
        exact h y (List.mem_cons_of_mem _ hy)
    refine (hstep.trans (ih hrest)).of_eq (fun v => ?_) rfl
    by_cases hx : v.txId = x <;> simp [ofTx, ofTxs, hx]

end Deletions

/-! ## The operations -/

/-- The deletions of `gone` as the search service hears of them. -/
def deletionEvents (byUser : String) (gone : List Uuid) : List PlmEvent :=
  gone.map fun nodeId => .itemDeleted nodeId byUser

theorem Discards.withEvents {p : VersionSelection} {gone : List Uuid} {s s' : Tables}
    (h : Discards p gone s s') (es : List PlmEvent) : Discards p gone s (s'.withEvents es) :=
  { h with }

theorem enqueueDeletions_indexEvents {byUser : String} {nodeIds : List Uuid} {s s' : Db} {u : PUnit}
    (h : Returns (nodeIds.forM fun nodeId => enqueue (.itemDeleted nodeId byUser)) s u s') :
    s'.indexEvents = s.indexEvents ++ deletionEvents byUser nodeIds := by
  rw [enqueueAll_ok h, indexEvents_withEvents, List.filter_eq_self.mpr]
  · rfl
  · intro e he
    obtain ⟨n, -, rfl⟩ := List.mem_map.mp he
    rfl

section Operations

variable {ctx : Caller} {x : Uuid} {s s' : Db} {u : Unit}

theorem rollbackTransaction_discards (h : Returns (rollbackTransaction ctx x) s u s') :
    Discards (ofTx x) (s.emptied (ofTx x) (s.affectedNodes x)) s.toTables s'.toTables ∧
      s'.indexEvents =
        s.indexEvents ++ deletionEvents ctx.userId (s.emptied (ofTx x) (s.affectedNodes x)) := by
  constructor
  · obtain ⟨hown, es, hs'⟩ := rollbackTransaction_ok h
    rw [hs']
    exact (rolledBack_discards hown.isOpen).withEvents es
  · simp only [rollbackTransaction, returns_bind, returns_loadAndVerifyOwnership, returns_query,
      returns_execute, returns_enqueue, and_assoc, exists_and_left, exists_eq_left, exists_const] at h
    obtain ⟨-, _, s₁, hunlock, _, s₂, hpurge, s₃, horphans, s₄, htx, s₅, hevent, hevents⟩ := h
    obtain ⟨es₁, hs₁⟩ := unlockAll_ok (f := id) hunlock
    have hs₂ := purgeVersions_ok hpurge
    have hgone : (nodeIdsOf (s.versionsInTx x)).filter (s₂.isOrphan ·) =
        s.emptied (ofTx x) (s.affectedNodes x) := by
      rw [hs₂, hs₁]
      rfl
    have hquiet : s₅.indexEvents = s.indexEvents := by
      rw [hevent, indexEvents_withEvents, htx, ← unlockAll_indexEvents (f := id) hunlock]
      have hsame : ((s₃.toTables).deleteTx x).indexEvents = s₁.indexEvents :=
        indexEvents_of_outbox (by rw [horphans, hs₂]; rfl)
      rw [hsame]
      exact List.append_nil _
    rw [enqueueDeletions_indexEvents hevents, hquiet, hgone]

theorem releaseNode_indexEvents {nodeId : Uuid} {b : Bool} (h : Returns (releaseNode x nodeId) s b s') :
    s'.indexEvents = s.indexEvents ∧ b = (s.withoutVersions (ofTxAndNode x nodeId)).isOrphan nodeId := by
  simp only [releaseNode, returns_bind, returns_query, returns_execute, returns_pure, and_assoc,
    exists_and_left, exists_eq_left, exists_const] at h
  obtain ⟨_, s₁, hpurge, s₂, horphan, _, s₃, hunlock, rfl, rfl⟩ := h
  have hs₁ := purgeVersions_ok hpurge
  constructor
  · rw [unlock_indexEvents hunlock]
    refine indexEvents_of_outbox ?_
    rw [horphan]
    split <;> rw [hs₁] <;> rfl
  · rw [hs₁]
    rfl

theorem releaseEach_deleted {nodeIds deleted : List Uuid}
    (h : Returns (releaseEach x nodeIds) s deleted s') :
    s'.indexEvents = s.indexEvents ∧ deleted = s.emptied (ofTxAndNodes x nodeIds) nodeIds := by
  induction nodeIds generalizing s deleted with
  | nil =>
    obtain ⟨rfl, rfl⟩ := returns_pure.mp h
    exact ⟨rfl, rfl⟩
  | cons nodeId nodeIds ih =>
    simp only [releaseEach, returns_bind, returns_pure] at h
    obtain ⟨b, s₁, hone, rest, s₂, heach, rfl, rfl⟩ := h
    obtain ⟨hquiet, hb⟩ := releaseNode_indexEvents hone
    obtain ⟨hquiet', hrest⟩ := ih heach
    refine ⟨hquiet'.trans hquiet, ?_⟩
    obtain ⟨es, hs₁⟩ := releaseNode_ok hone
    have hsame : rest = (s.released x nodeId).emptied (ofTxAndNodes x nodeIds) nodeIds := by
      rw [hrest, hs₁]
      rfl
    rw [← emptied_ofTxAndNodes_cons, ← hsame, Tables.emptied, List.filter_cons, ← hb]
    cases b <;> rfl

theorem releaseNodes_discards {nodeIds : List Uuid} (h : Returns (releaseNodes ctx x nodeIds) s u s') :
    Discards (ofTxAndNodes x nodeIds) (s.emptied (ofTxAndNodes x nodeIds) nodeIds) s.toTables
        s'.toTables ∧
      s'.indexEvents = s.indexEvents ++
        deletionEvents ctx.userId (s.emptied (ofTxAndNodes x nodeIds) nodeIds) := by
  obtain ⟨hown, -⟩ := releaseNodes_ok h
  simp only [releaseNodes, returns_bind, returns_loadAndVerifyOwnership, returns_ite, returns_pure,
    returns_execute, and_assoc, exists_and_left, exists_eq_left, exists_const] at h
  obtain ⟨-, ⟨rfl, -, rfl⟩ | ⟨-, deleted, s₁, heach, s₂, hdrop, _, s₃, hpub, hevents⟩⟩ := h
  · -- no node was named
    have hnone := releasedAll_discards (s := s'.toTables) [] (Tables.not_isCommitted_of_isOpen hown.isOpen)
    exact ⟨hnone, by simp [deletionEvents, Tables.emptied]⟩
  · obtain ⟨es, hs₁⟩ := releaseEach_ok heach
    obtain ⟨hquiet, rfl⟩ := releaseEach_deleted heach
    have hs₂ : s₂.toTables = s₁.dropEmptyTx x := hdrop
    obtain ⟨es', hs₃, hquiet₃⟩ : ∃ es', s₃.toTables = s₂.withEvents es' ∧
        s₃.indexEvents = s₂.indexEvents := by
      unfold publishItemsReleased at hpub
      split at hpub
      · obtain ⟨-, rfl⟩ := returns_pure.mp hpub
        exact ⟨[], by simp [Tables.withEvents], rfl⟩
      · have hs₃ := returns_enqueue.mp hpub
        refine ⟨_, hs₃, ?_⟩
        rw [hs₃, indexEvents_withEvents]
        exact List.append_nil _
    have hquiet₂ : s₂.indexEvents = s₁.indexEvents := by
      refine indexEvents_of_outbox ?_
      rw [hs₂, Tables.dropEmptyTx]
      split <;> rfl
    constructor
    · rw [enqueueAll_ok hevents, hs₃, hs₂, hs₁, dropEmptyTx_withEvents]
      have hall := (releasedAll_discards nodeIds (Tables.not_isCommitted_of_isOpen hown.isOpen)).trans
        (dropEmptyTx_discards (x := x))
      exact (((hall.of_eq (by simp) (by simp)).withEvents es).withEvents es').withEvents _
    · rw [enqueueDeletions_indexEvents hevents, hquiet₃, hquiet₂, hquiet]

theorem cleanStaleTransactions_discards {now : Nat}
    (h : Returns (cleanStaleTransactions now) s u s') :
    Discards (ofTxs (s.staleTxIds now)) [] s.toTables s'.toTables ∧
      s'.indexEvents = s.indexEvents := by
  have hs' := cleanStaleTransactions_ok h
  constructor
  · rw [hs']
    refine cleaned_discards _ fun x hx => Tables.not_isCommitted_of_isOpen ?_
    obtain ⟨row, hrow, rfl⟩ := List.mem_map.mp hx
    obtain ⟨hmem, hstale⟩ := List.mem_filter.mp hrow
    have hstatus : row.status = .OPEN ∧ row.createdAt + staleAfter < now := by
      simpa [TransactionRow.isStale] using hstale
    have hfind : s.tx? row.id = some row :=
      find?_eq_some_of_nodup TransactionRow.id s.valid.pk_tx hmem
    simp [Tables.isOpen, Tables.txStatus?, hfind, hstatus.1]
  · refine indexEvents_of_outbox ?_
    rw [hs']
    generalize s.staleTxIds now = xs
    generalize s.toTables = t
    induction xs generalizing t with
    | nil => rfl
    | cons x xs ih => exact ih _

end Operations

/-! ## What a commit settles -/

/-- A version of the transaction whose node the commit does not defer. -/
def settled (x : Uuid) (deferred : List Uuid) (v : VersionRow) : Bool :=
  v.txId = x ∧ v.nodeId ∉ deferred

/-- The version after its node was deferred to another transaction, if it was. -/
def VersionRow.deferTo (x y : Uuid) (deferred : List Uuid) (v : VersionRow) : VersionRow :=
  if v.txId = x ∧ v.nodeId ∈ deferred then { v with txId := y } else v

/-- `s'` is `s` with the transaction `x` committed, but for the deferred nodes, whose versions
continue in `y`. -/
structure Commits (x y : Uuid) (deferred : List Uuid) (s s' : Tables) : Prop where
  versions : s'.versions = s.versions.map (·.deferTo x y deferred)
  attributes : s'.attributes = s.attributes
  domains : s'.domains = s.domains
  links : s'.links = s.links
  nodes : s'.nodes.map NodeRow.unlocked = s.nodes.map NodeRow.unlocked
  committed : ∀ v ∈ s.versions, s'.isCommitted (v.deferTo x y deferred).txId =
    (s.isCommitted v.txId || settled x deferred v)

theorem isCommitted_insertTransaction {t : Tables} (ctx : Caller) (y z : Uuid) :
    (t.takeId.insertTransaction y ctx).isCommitted z = t.isCommitted z := by
  have hfind : (t.takeId.insertTransaction y ctx).tx? z =
      (t.tx? z).or ([⟨y, ctx.userId, .OPEN, none, ctx.now, none⟩].find? (·.id = z)) :=
    List.find?_append
  rw [Tables.isCommitted, Tables.txStatus?, hfind, Tables.isCommitted, Tables.txStatus?]
  cases t.tx? z with
  | some row => rfl
  | none => by_cases hz : y = z <;> simp [hz]

theorem isCommitted_commitTx {t : Tables} {x : Uuid} (comment : String) (now : Nat)
    (hx : x ∈ t.txIds) (z : Uuid) :
    (t.commitTx x comment now).isCommitted z = (t.isCommitted z || z = x) := by
  have hfind : (t.commitTx x comment now).tx? z = (t.tx? z).map fun row =>
      if row.id = x then
        { row with status := .COMMITTED, commitComment := some comment, committedAt := some now }
      else row := by
    rw [Tables.tx?, Tables.commitTx, List.find?_map]
    congr 2
    funext row
    simp only [Function.comp_apply]
    split <;> rfl
  rw [Tables.isCommitted, Tables.txStatus?, hfind, Tables.isCommitted, Tables.txStatus?]
  cases hz : t.tx? z with
  | none =>
    have hne : z ≠ x := by
      rintro rfl
      obtain ⟨row, hrow, hid⟩ := List.mem_map.mp hx
      exact absurd hid (by simpa using List.find?_eq_none.mp hz row hrow)
    simp [hne]
  | some row =>
    have hid : row.id = z := by simpa using List.find?_some hz
    by_cases hzx : z = x
    · simp [hid, hzx]
    · simp [hid, hzx]

theorem isCommitted_committed {t : Tables} {x : Uuid} (comment : Option String) (now : Nat)
    (hx : x ∈ t.txIds) (z : Uuid) :
    (t.committed x comment now).isCommitted z = (t.isCommitted z || z = x) := by
  rw [← isCommitted_commitTx (nvl comment) now hx z]
  exact Tables.isCommitted_congr rfl z

theorem mem_txIds_of_isOpen {t : Tables} {x : Uuid} (h : t.isOpen x = true) : x ∈ t.txIds := by
  simp only [Tables.isOpen, Tables.txStatus?, Tables.tx?, decide_eq_true_eq,
    Option.map_eq_some_iff] at h
  obtain ⟨row, hrow, -⟩ := h
  exact List.mem_map.mpr ⟨row, List.mem_of_find?_eq_some hrow, by simpa using List.find?_some hrow⟩

theorem isCommitted_of_not_mem {t : Tables} {y : Uuid} (h : y ∉ t.txIds) : t.isCommitted y = false := by
  cases hy : t.tx? y with
  | none => simp [Tables.isCommitted, Tables.txStatus?, hy]
  | some row =>
    have hmem := List.mem_map_of_mem (f := (·.id)) (List.mem_of_find?_eq_some hy)
    rw [show row.id = y by simpa using List.find?_some hy] at hmem
    exact absurd hmem h

section Settling

variable {s : Db} {x y : Uuid} {comment : Option String} {now : Nat}

/-- Nothing is deferred. -/
theorem committed_commits (hx : x ∈ s.txIds) :
    Commits x y [] s.toTables (s.committed x comment now) where
  versions := by
    refine ((List.map_congr_left fun v _ => ?_).trans (List.map_id _)).symm
    simp [VersionRow.deferTo]
  attributes := rfl
  domains := rfl
  links := rfl
  nodes := unlocked_unlockNodes ..
  committed v _ := by
    have hsame : (v.deferTo x y []).txId = v.txId := by simp [VersionRow.deferTo]
    rw [hsame, isCommitted_committed comment now hx, settled]
    simp

/-- The deferred nodes go on in a new transaction. -/
theorem deferred_commits {ctx : Caller} {deferred : List Uuid} {s₁ : Db}
    (hx : s.isOpen x = true) (hopen : Returns (openTransaction ctx) s y s₁) :
    Commits x y deferred s.toTables ((s₁.deferTo x y deferred).committed x comment now) := by
  have hxids := mem_txIds_of_isOpen hx
  have hfresh := fresh_of_openTransaction hopen
  have hs₁ := (openTransaction_ok hopen).2
  have hxids₁ : x ∈ (s₁.deferTo x y deferred).txIds := by
    change x ∈ s₁.txIds
    rw [hs₁]
    exact List.mem_map.mpr ((List.mem_map.mp hxids).imp fun _ h => ⟨List.mem_append_left _ h.1, h.2⟩)
  have hcommitted : ∀ z, ((s₁.deferTo x y deferred).committed x comment now).isCommitted z =
      (s.isCommitted z || z = x) := by
    intro z
    have hsame : (s₁.deferTo x y deferred).isCommitted z = s.isCommitted z := by
      refine (Tables.isCommitted_congr ?_ z).trans (isCommitted_insertTransaction ctx y z)
      rw [← hs₁]
      rfl
    rw [isCommitted_committed comment now hxids₁, hsame]
  exact
    { versions := by
        change s₁.versions.map _ = _
        rw [hs₁]
        rfl
      attributes := by
        change s₁.attributes = _
        rw [hs₁]
        rfl
      domains := by
        change s₁.domains = _
        rw [hs₁]
        rfl
      links := by
        change s₁.links = _
        rw [hs₁]
        rfl
      nodes := by
        rw [Tables.committed, unlocked_unlockNodes]
        change s₁.nodes.map _ = _
        rw [hs₁]
        rfl
      committed := fun v _ => by
        rw [hcommitted, settled]
        by_cases hd : v.txId = x ∧ v.nodeId ∈ deferred
        · -- the version was deferred, so it is committed neither before nor after
          have hyx : y ≠ x := fun hyx => hfresh (hyx ▸ hxids)
          rw [VersionRow.deferTo, if_pos hd, isCommitted_of_not_mem hfresh, hd.1,
            Tables.not_isCommitted_of_isOpen hx]
          simp [hyx, hd.2]
        · rw [VersionRow.deferTo, if_neg hd]
          by_cases hvx : v.txId = x
          · have hnode : v.nodeId ∉ deferred := fun hnode => hd ⟨hvx, hnode⟩
            simp [hvx, hnode]
          · simp [hvx] }

end Settling

theorem deferNodes_indexEvents {ctx : Caller} {x : Uuid} {deferred : List Uuid} {o : Option Uuid}
    {s s' : Db} (h : Returns (deferNodes ctx x deferred) s o s') : s'.indexEvents = s.indexEvents := by
  obtain ⟨-, -, rfl⟩ | ⟨-, y, s₁, -, hopen, hs'⟩ := deferNodes_ok h
  · rfl
  · refine indexEvents_of_outbox ?_
    rw [hs']
    change s₁.outbox = _
    rw [(openTransaction_ok hopen).2]
    rfl

/-- **A commit** settles the transaction and tells the search service nothing. -/
theorem commitTransaction_commits {env : Env} {ctx : Caller} {x : Uuid} {comment : Option String}
    {selected : List Uuid} {o : Option Uuid} {s s' : Db}
    (h : Returns (commitTransaction env ctx x comment selected) s o s') :
    (∃ y, Commits x y (deferredNodeIds (s.affectedNodes x) selected) s.toTables s'.toTables) ∧
      s.isOpen x = true ∧ s'.indexEvents = s.indexEvents := by
  obtain ⟨hown, s₁, es, hdefer, -, hs'⟩ := commitTransaction_ok h
  have hx := hown.isOpen
  refine ⟨?_, hx, ?_⟩
  · obtain ⟨hnil, -, rfl⟩ | ⟨-, y, s₂, -, hopen, hs₁⟩ := deferNodes_ok hdefer
    · rw [hnil, hs']
      exact ⟨x, { committed_commits (mem_txIds_of_isOpen hx) with }⟩
    · rw [hs', hs₁]
      exact ⟨y, { deferred_commits hx hopen with }⟩
  · simp only [commitTransaction, returns_bind, returns_loadAndVerifyOwnership, returns_query,
      returns_require, returns_execute, returns_enqueue, returns_pure, and_assoc, exists_and_left,
      exists_eq_left, exists_const] at h
    obtain ⟨-, -, o, s₂, hdefer, -, _, s₃, hnoops, -, s₄, hcommit, _, s₅, hversions, _, s₆, hunlock,
      s₇, hevent, -, rfl⟩ := h
    obtain ⟨rfl, -⟩ := (returns_rejectNoOps fun v hv => List.mem_of_mem_filter hv).mp hnoops
    have hquiet : s₅.indexEvents = s₄.indexEvents := by
      rw [enqueueAll_ok hversions, indexEvents_withEvents, List.filter_eq_nil_iff.mpr, List.append_nil]
      intro e he
      obtain ⟨n, -, rfl⟩ := List.mem_map.mp he
      exact Bool.false_ne_true
    have hcommit : s₄.indexEvents = s₃.indexEvents := indexEvents_of_outbox (by rw [hcommit]; rfl)
    rw [hevent, indexEvents_withEvents, unlockAll_indexEvents hunlock, hquiet, hcommit,
      deferNodes_indexEvents hdefer]
    exact List.append_nil _

end PlmCore.Psm
