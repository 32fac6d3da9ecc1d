/-
What commit, release, rollback and cleanup do to the tables when they return, and when a
rollback can return at all.

Each is a composition of statements; the tables it leaves are written down as one function of
the tables it found. A rollback is refused only by what points into the transaction from
outside: a comment on one of its versions, a later version that continues one of them, or an
annotation of a node that would go.
-/
import PlmCore.Psm.NodeEffect
import PlmCore.Psm.Purge

set_option autoImplicit false

namespace PlmCore.Psm

open PlmCore.Lib

/-! ## Events -/

theorem withEvents_withEvents (es es' : List PlmEvent) (t : Tables) :
    (t.withEvents es).withEvents es' = t.withEvents (es ++ es') := by
  simp [Tables.withEvents]

/-! ## Unlocking several nodes -/

/-- The lock columns of several nodes cleared. -/
def Tables.unlockNodes (ids : List Uuid) (t : Tables) : Tables :=
  { t with nodes := t.nodes.map fun n => if n.id ∈ ids then n.unlocked else n }

theorem unlockNodes_cons (nodeId : Uuid) (ids : List Uuid) (t : Tables) (es : List PlmEvent) :
    ((t.setLock nodeId none none).withEvents es).unlockNodes ids
      = (t.unlockNodes (nodeId :: ids)).withEvents es := by
  have hmap : (t.nodes.map fun n => if n.id = nodeId then { n with lockedBy := none, lockedAt := none }
      else n).map (fun n => if n.id ∈ ids then n.unlocked else n)
      = t.nodes.map fun n => if n.id ∈ nodeId :: ids then n.unlocked else n := by
    rw [List.map_map]
    refine List.map_congr_left fun n _ => ?_
    by_cases h₁ : n.id = nodeId
    · by_cases h₂ : nodeId ∈ ids <;> simp [h₁, h₂, NodeRow.unlocked]
    · by_cases h₂ : n.id ∈ ids <;> simp [h₁, h₂]
  simp only [Tables.unlockNodes, Tables.withEvents, Tables.setLock, hmap]

/-- A loop of `unlock` unlocks just the nodes it visits. -/
theorem unlockAll_ok {α : Type} {f : α → Uuid} {xs : List α} {s s' : Db} {u : PUnit}
    (h : Returns (xs.forM fun x => unlock (f x)) s u s') :
    ∃ es, s'.toTables = (s.unlockNodes (xs.map f)).withEvents es := by
  induction xs generalizing s with
  | nil =>
    rw [returns_forM_nil] at h
    exact ⟨[], by rw [h]; simp [Tables.unlockNodes, Tables.withEvents]⟩
  | cons x xs ih =>
    obtain ⟨s₁, h₁, h₂⟩ := returns_forM_cons.mp h
    obtain ⟨es₁, hs₁⟩ := unlock_ok h₁
    obtain ⟨es₂, hs'⟩ := ih h₂
    refine ⟨es₁ ++ es₂, ?_⟩
    rw [hs', hs₁, unlockNodes_cons, List.map_cons]
    simp [Tables.withEvents]

/-- A loop of `unlock` never fails. -/
theorem unlockAll_succeeds {α : Type} (f : α → Uuid) (xs : List α) (s : Db) :
    ∃ s', Returns (xs.forM fun x => unlock (f x)) s ⟨⟩ s' := by
  induction xs generalizing s with
  | nil => exact ⟨s, returns_forM_nil.mpr rfl⟩
  | cons x xs ih =>
    obtain ⟨s₁, h₁⟩ := unlock_succeeds (f x) s
    obtain ⟨s', h'⟩ := ih s₁
    exact ⟨s', returns_forM_cons.mpr ⟨s₁, h₁, h'⟩⟩

theorem Tables.Valid.mapNodes {t : Tables} (h : t.Valid) {f : NodeRow → NodeRow}
    (hid : ∀ n, (f n).id = n.id) : ({ t with nodes := t.nodes.map f } : Tables).Valid := by
  have hids : ({ t with nodes := t.nodes.map f } : Tables).nodeIds = t.nodeIds := by
    simp only [Tables.nodeIds, List.map_map]
    exact List.map_congr_left fun n _ => hid n
  exact
    { h with
      pk_node := by rw [hids]; exact h.pk_node
      fk_version_node := by rw [hids]; exact h.fk_version_node
      fk_signature_node := by rw [hids]; exact h.fk_signature_node
      fk_comment_node := by rw [hids]; exact h.fk_comment_node }

theorem Tables.Valid.unlockNodes {t : Tables} (h : t.Valid) (ids : List Uuid) :
    (t.unlockNodes ids).Valid :=
  h.mapNodes fun n => by split <;> rfl

theorem enqueueAll_ok {α : Type} {f : α → PlmEvent} {xs : List α} {s s' : Db} {u : PUnit}
    (h : Returns (xs.forM fun x => enqueue (f x)) s u s') :
    s'.toTables = s.withEvents (xs.map f) := by
  induction xs generalizing s with
  | nil =>
    rw [returns_forM_nil] at h
    rw [h]
    simp [Tables.withEvents]
  | cons x xs ih =>
    obtain ⟨s₁, h₁, h₂⟩ := returns_forM_cons.mp h
    rw [ih h₂, returns_enqueue.mp h₁]
    simp [Tables.withEvents]

theorem enqueueAll_succeeds {α : Type} (f : α → PlmEvent) (xs : List α) (s : Db) :
    ∃ s', Returns (xs.forM fun x => enqueue (f x)) s ⟨⟩ s' := by
  induction xs generalizing s with
  | nil => exact ⟨s, returns_forM_nil.mpr rfl⟩
  | cons x xs ih =>
    obtain ⟨s₁, h₁⟩ := enqueue_succeeds (f x) s
    obtain ⟨s', h'⟩ := ih s₁
    exact ⟨s', returns_forM_cons.mpr ⟨s₁, h₁, h'⟩⟩

/-! ## Deleting versions -/

/-- The store without the selected versions and what hangs on them. -/
def Tables.withoutVersions (p : VersionSelection) (t : Tables) : Tables :=
  { t with
    versions := t.versions.filter fun v => ¬ p v
    attributes := t.attributes.filter (·.nodeVersionId ∉ t.selectVersionIds p)
    links := t.links.filter (·.sourceNodeVersionId ∉ t.selectVersionIds p)
    linkAttributes := t.linkAttributes.filter (·.nodeLinkId ∉ t.selectLinkIds p)
    domains := t.domains.filter (·.nodeVersionId ∉ t.selectVersionIds p)
    signatures := t.signatures.filter (·.nodeVersionId ∉ t.selectVersionIds p)
    baselineEntries := t.baselineEntries.filter (·.nodeLinkId ∉ t.selectLinkIds p) }

theorem purgeVersions_ok {p : VersionSelection} {s s' : Db} {u : Unit}
    (h : Returns (purgeVersions p) s u s') : s'.toTables = s.withoutVersions p := by
  simp only [purgeVersions, returns_bind, returns_execute, exists_const] at h
  obtain ⟨s₁, h₁, s₂, h₂, s₃, h₃, s₄, h₄, h₅⟩ := h
  rw [h₅, h₄, h₃, h₂, h₁]
  rfl

/-- Nothing that stays points at a selected version: no comment is on one, no other version
continues one. The other references go with the versions. -/
structure Detached (p : VersionSelection) (t : Tables) : Prop where
  comments : ∀ c ∈ t.comments, c.nodeVersionId ∉ t.selectVersionIds p
  previous : ∀ v ∈ t.versions, p v = false → ∀ x ∈ v.previousVersionId, x ∉ t.selectVersionIds p

/-- **Versions can be purged exactly when they are detached.** -/
theorem purgeVersions_succeeds_iff {p : VersionSelection} {s : Db} :
    (∃ s', Returns (purgeVersions p) s () s') ↔ Detached p s.toTables := by
  constructor
  · rintro ⟨s', h⟩
    simp only [purgeVersions, returns_bind, returns_execute, exists_const] at h
    obtain ⟨s₁, h₁, s₂, h₂, s₃, h₃, s₄, h₄, h₅⟩ := h
    have hun := (valid_deleteVersions_iff s₄.valid).mp (h₅ ▸ s'.valid)
    rw [h₄, h₃, h₂, h₁] at hun
    exact ⟨hun.comments, hun.previous⟩
  · intro hd
    obtain ⟨s₁, h₁⟩ := execute_succeeds.mpr (s.valid.deleteBaselineEntries (p := p))
    obtain ⟨s₂, h₂⟩ := execute_succeeds.mpr (s₁.valid.deleteAttributes (p := p))
    obtain ⟨s₃, h₃⟩ := execute_succeeds.mpr (s₂.valid.deleteSignatures (p := p))
    have hs₃ : s₃.toTables = ((s.deleteBaselineEntries p).deleteAttributes p).deleteSignatures p := by
      rw [returns_execute.mp h₃, returns_execute.mp h₂, returns_execute.mp h₁]
    obtain ⟨s₄, h₄⟩ := execute_succeeds.mpr ((valid_deleteLinks_iff s₃.valid (p := p)).mpr (by
      rw [hs₃]
      exact fun e he => of_decide_eq_true (List.mem_filter.mp he).2))
    have hs₄ : s₄.toTables = (((s.deleteBaselineEntries p).deleteAttributes p).deleteSignatures
        p).deleteLinks p := by
      rw [returns_execute.mp h₄, hs₃]
    have hun : Unreferenced p s₄.toTables := by
      rw [hs₄]
      exact
        { previous := hd.previous
          attributes := fun a ha => of_decide_eq_true (List.mem_filter.mp ha).2
          links := fun l hl => of_decide_eq_true (List.mem_filter.mp hl).2
          signatures := fun g hg => of_decide_eq_true (List.mem_filter.mp hg).2
          comments := hd.comments }
    obtain ⟨s', h'⟩ := execute_succeeds.mpr ((valid_deleteVersions_iff s₄.valid).mpr hun)
    refine ⟨s', ?_⟩
    simp only [purgeVersions, returns_bind]
    exact ⟨_, s₁, h₁, _, s₂, h₂, _, s₃, h₃, _, s₄, h₄, h'⟩

/-! ## Ownership -/

/-- The caller may close the transaction: it is open, and the caller's own or the caller is an
administrator. -/
def Tables.mayClose (t : Tables) (ctx : Caller) (x : Uuid) : Prop :=
  ∃ row, t.tx? x = some row ∧ (ctx.isAdmin = true ∨ ctx.userId = row.ownerId) ∧ row.status = .OPEN

theorem returns_loadAndVerifyOwnership {ctx : Caller} {x : Uuid} {s s' : Db} {u : Unit} :
    Returns (loadAndVerifyOwnership ctx x) s u s' ↔ s' = s ∧ s.mayClose ctx x := by
  simp only [loadAndVerifyOwnership, Tables.mayClose, returns_bind, returns_query,
    returns_orElseThrow, returns_require, and_assoc, exists_and_left, exists_eq_left, exists_const]
  constructor
  · rintro ⟨row, hrow, howner, hopen, rfl⟩
    exact ⟨rfl, row, hrow, howner, hopen⟩
  · rintro ⟨rfl, row, hrow, howner, hopen⟩
    exact ⟨row, hrow, howner, hopen, rfl⟩

/-- A transaction that may be closed is open. -/
theorem Tables.mayClose.isOpen {t : Tables} {ctx : Caller} {x : Uuid} (h : t.mayClose ctx x) :
    t.isOpen x = true := by
  obtain ⟨row, hrow, -, hopen⟩ := h
  simp [Tables.isOpen, Tables.txStatus?, hrow, hopen]

/-! ## Rolling back -/

/-- The nodes with a version in the transaction. -/
def Tables.affectedNodes (t : Tables) (x : Uuid) : List Uuid := nodeIdsOf (t.versionsInTx x)

theorem mem_affectedNodes {t : Tables} {x nodeId : Uuid} :
    nodeId ∈ t.affectedNodes x ↔ ∃ v ∈ t.versions, v.txId = x ∧ v.nodeId = nodeId := by
  simp [Tables.affectedNodes, nodeIdsOf, Tables.versionsInTx, and_assoc]

/-- The store after a rollback. -/
def Tables.rolledBack (x : Uuid) (t : Tables) : Tables :=
  (((t.unlockNodes (t.affectedNodes x)).withoutVersions (ofTx x)).deleteOrphans
    (t.affectedNodes x)).deleteTx x

theorem rollbackTransaction_ok {ctx : Caller} {x : Uuid} {s s' : Db} {u : Unit}
    (h : Returns (rollbackTransaction ctx x) s u s') :
    s.mayClose ctx x ∧ ∃ es, s'.toTables = (s.rolledBack x).withEvents es := by
  simp only [rollbackTransaction, returns_bind, returns_loadAndVerifyOwnership, returns_query,
    returns_execute, returns_enqueue, and_assoc, exists_and_left, exists_eq_left, exists_const] at h
  obtain ⟨hown, _, s₁, hunlock, _, s₂, hpurge, s₃, horphans, s₄, htx, s₅, hevent, hevents⟩ := h
  obtain ⟨es₁, hs₁⟩ := unlockAll_ok (f := id) hunlock
  rw [purgeVersions_ok hpurge, hs₁, List.map_id] at horphans
  have hs₅ : s₅.toTables = ((s.rolledBack x).withEvents es₁).withEvents
      [.transactionRolledBack x (s.affectedNodes x) ctx.userId] := by
    rw [hevent, htx, horphans]
    rfl
  have hs' := enqueueAll_ok hevents
  rw [hs₅, withEvents_withEvents, withEvents_withEvents] at hs'
  exact ⟨hown, _, hs'⟩

/-! ## When a rollback returns -/

/-- No annotation that stays is on a node that goes. -/
def Tables.orphansUnannotated (x : Uuid) (t : Tables) : Prop :=
  ∀ nodeId ∈ t.affectedNodes x, (t.withoutVersions (ofTx x)).isOrphan nodeId = true →
    (∀ g ∈ (t.withoutVersions (ofTx x)).signatures, g.nodeId ≠ nodeId)
      ∧ ∀ c ∈ t.comments, c.nodeId ≠ nodeId

theorem isOrphan_iff {t : Tables} {nodeId : Uuid} :
    t.isOrphan nodeId = true ↔ ∀ v ∈ t.versions, v.nodeId ≠ nodeId := by
  simp [Tables.isOrphan, Tables.versionsOf]

theorem mem_nodeIds_deleteOrphans {t : Tables} {ids : List Uuid} {nodeId : Uuid} :
    nodeId ∈ (t.deleteOrphans ids).nodeIds ↔
      nodeId ∈ t.nodeIds ∧ ¬ (nodeId ∈ ids ∧ t.isOrphan nodeId = true) := by
  simp only [Tables.nodeIds, Tables.deleteOrphans, List.mem_map, List.mem_filter, decide_eq_true_eq]
  constructor
  · rintro ⟨n, ⟨hn, hp⟩, rfl⟩
    exact ⟨⟨n, hn, rfl⟩, hp⟩
  · rintro ⟨⟨n, hn, rfl⟩, hp⟩
    exact ⟨n, ⟨hn, hp⟩, rfl⟩

/-- Nodes without versions go exactly when no annotation is on them. -/
theorem valid_deleteOrphans_iff {t : Tables} (h : t.Valid) (ids : List Uuid) :
    (t.deleteOrphans ids).Valid ↔ ∀ nodeId ∈ ids, t.isOrphan nodeId = true →
      (∀ g ∈ t.signatures, g.nodeId ≠ nodeId) ∧ ∀ c ∈ t.comments, c.nodeId ≠ nodeId := by
  constructor
  · intro h' nodeId hid ho
    constructor
    · rintro g hg rfl
      exact (mem_nodeIds_deleteOrphans.mp (h'.fk_signature_node g hg)).2 ⟨hid, ho⟩
    · rintro c hc rfl
      exact (mem_nodeIds_deleteOrphans.mp (h'.fk_comment_node c hc)).2 ⟨hid, ho⟩
  · intro hun
    exact
      { h with
        pk_node := nodup_map_filter h.pk_node
        fk_version_node := fun v hv => mem_nodeIds_deleteOrphans.mpr ⟨h.fk_version_node v hv, by
          rintro ⟨-, ho⟩
          exact isOrphan_iff.mp ho v hv rfl⟩
        fk_signature_node := fun g hg => mem_nodeIds_deleteOrphans.mpr
          ⟨h.fk_signature_node g hg, fun ho => (hun _ ho.1 ho.2).1 g hg rfl⟩
        fk_comment_node := fun c hc => mem_nodeIds_deleteOrphans.mpr
          ⟨h.fk_comment_node c hc, fun ho => (hun _ ho.1 ho.2).2 c hc rfl⟩ }

/-- A transaction without versions can be deleted. -/
theorem Tables.Valid.deleteTx {t : Tables} (h : t.Valid) {x : Uuid}
    (hnone : ∀ v ∈ t.versions, v.txId ≠ x) : (t.deleteTx x).Valid :=
  { h with
    pk_tx := nodup_map_filter h.pk_tx
    fk_version_tx := fun v hv => by
      obtain ⟨y, hy, hid⟩ := List.mem_map.mp (h.fk_version_tx v hv)
      exact List.mem_map.mpr ⟨y, List.mem_filter.mpr ⟨hy, by simp [hid, hnone v hv]⟩, hid⟩ }

/-- **A rollback returns exactly when the caller may close the transaction and nothing from
outside points into it.** -/
theorem rollbackTransaction_succeeds_iff {ctx : Caller} {x : Uuid} {s : Db} :
    (∃ s', Returns (rollbackTransaction ctx x) s () s') ↔
      s.mayClose ctx x ∧ Detached (ofTx x) s.toTables ∧ s.orphansUnannotated x := by
  constructor
  · rintro ⟨s', h⟩
    -- the statements that can be refused: the deletion of the versions, and of the nodes
    simp only [rollbackTransaction, returns_bind, returns_loadAndVerifyOwnership, returns_query,
      returns_execute, returns_enqueue, and_assoc, exists_and_left, exists_eq_left, exists_const] at h
    obtain ⟨hown, _, s₁, hunlock, _, s₂, hpurge, s₃, horphans, -⟩ := h
    obtain ⟨es₁, hs₁⟩ := unlockAll_ok (f := id) hunlock
    have hdetached := purgeVersions_succeeds_iff.mp ⟨s₂, hpurge⟩
    have hs₂ := purgeVersions_ok hpurge
    rw [hs₁] at hdetached hs₂
    refine ⟨hown, ⟨hdetached.comments, hdetached.previous⟩, fun nodeId hid ho => ?_⟩
    have hun := (valid_deleteOrphans_iff s₂.valid _).mp (horphans ▸ s₃.valid) nodeId hid
    rw [hs₂] at hun
    exact hun ho
  · rintro ⟨hown, hdetached, hun⟩
    -- and in the other direction each statement in turn
    obtain ⟨s₁, hunlock⟩ := unlockAll_succeeds id (s.affectedNodes x) s
    obtain ⟨es₁, hs₁⟩ := unlockAll_ok hunlock
    obtain ⟨s₂, hpurge⟩ := (purgeVersions_succeeds_iff (p := ofTx x) (s := s₁)).mpr (by
      rw [hs₁]
      exact ⟨hdetached.comments, hdetached.previous⟩)
    have hs₂ := purgeVersions_ok hpurge
    rw [hs₁] at hs₂
    obtain ⟨s₃, horphans⟩ := execute_succeeds.mpr
      ((valid_deleteOrphans_iff s₂.valid (s.affectedNodes x)).mpr (by
        rw [hs₂]
        exact hun))
    have hs₃ := returns_execute.mp horphans
    obtain ⟨s₄, htx⟩ := execute_succeeds.mpr (s₃.valid.deleteTx (x := x) (by
      rw [hs₃, hs₂]
      intro v hv hx
      simpa [ofTx, hx] using (List.mem_filter.mp hv).2))
    obtain ⟨s₅, hevent⟩ := enqueue_succeeds
      (.transactionRolledBack x (s.affectedNodes x) ctx.userId) s₄
    obtain ⟨s', hevents⟩ := enqueueAll_succeeds (fun nodeId => .itemDeleted nodeId ctx.userId)
      ((s.affectedNodes x).filter (s₂.isOrphan ·)) s₅
    refine ⟨s', ?_⟩
    simp only [rollbackTransaction, returns_bind, returns_loadAndVerifyOwnership, returns_query,
      and_assoc, exists_and_left, exists_eq_left, exists_const]
    exact ⟨hown, _, s₁, hunlock, _, s₂, hpurge, _, s₃, horphans, _, s₄, htx, _, s₅, hevent, hevents⟩

/-! ## The continuation of a partial commit -/

/-- The versions of some nodes moved from one transaction to another. -/
def Tables.deferTo (x y : Uuid) (nodeIds : List Uuid) (t : Tables) : Tables :=
  { t with versions := t.versions.map fun v =>
      if v.txId = x ∧ v.nodeId ∈ nodeIds then { v with txId := y } else v }

theorem foldl_moveVersions (x y : Uuid) (nodeIds : List Uuid) (t : Tables) :
    nodeIds.foldl (fun t nodeId => t.moveVersions x y nodeId) t = t.deferTo x y nodeIds := by
  induction nodeIds generalizing t with
  | nil => simp [Tables.deferTo]
  | cons nodeId nodeIds ih =>
    rw [List.foldl_cons, ih]
    simp only [Tables.deferTo, Tables.moveVersions, List.map_map]
    congr 1
    refine List.map_congr_left fun v _ => ?_
    simp only [Function.comp_apply, List.mem_cons]
    by_cases hx : v.txId = x
    · by_cases hn : v.nodeId = nodeId
      · simp only [hx, hn, true_and, if_true, true_or]
        split <;> rfl
      · simp [hx, hn]
    · simp [hx]

/-- What `deferNodes` does: nothing, or it opens a transaction of the caller and moves the
versions of the deferred nodes there. -/
theorem deferNodes_ok {ctx : Caller} {x : Uuid} {deferred : List Uuid} {o : Option Uuid} {s s' : Db}
    (h : Returns (deferNodes ctx x deferred) s o s') :
    (deferred = [] ∧ o = none ∧ s' = s) ∨ (deferred ≠ [] ∧ ∃ y s₁, o = some y
      ∧ Returns (openTransaction ctx) s y s₁ ∧ s'.toTables = s₁.deferTo x y deferred) := by
  unfold deferNodes at h
  split at h
  · rename_i hnil
    obtain ⟨rfl, rfl⟩ := returns_pure.mp h
    exact .inl ⟨hnil, rfl, rfl⟩
  · rename_i hcons
    simp only [returns_bind, returns_pure] at h
    obtain ⟨y, s₁, htx, _, s₂, hmove, rfl, rfl⟩ := h
    have hs₂ := returns_forM_execute hmove
    rw [foldl_moveVersions] at hs₂
    exact .inr ⟨hcons, y, s₁, rfl, htx, hs₂⟩

/-! ## The no-op check -/

/-- The digest the no-op check goes by: the stored one unless it is null or blank. -/
def Tables.storedOrComputed (env : Env) (t : Tables) (nodeId : Uuid) (v : VersionRow) : String :=
  match v.fingerprint with
  | some stored =>
    if isBlank stored then env.sha256 (fingerprintText (t.contentOf nodeId v)) else stored
  | none => env.sha256 (fingerprintText (t.contentOf nodeId v))

theorem returns_getOrComputeFingerPrint {env : Env} {nodeId : Uuid} {v : VersionRow} {fp : String}
    {s s' : Db} (hv : v ∈ s.versions) :
    Returns (getOrComputeFingerPrint env nodeId v.id) s fp s' ↔
      s' = s ∧ fp = s.storedOrComputed env nodeId v := by
  have hfind := Db.version?_of_mem hv
  have hcompute : Returns (compute env nodeId v.id) s fp s' ↔
      s' = s ∧ fp = env.sha256 (fingerprintText (s.contentOf nodeId v)) := by
    rw [returns_compute, hfind]
    simp
  simp only [getOrComputeFingerPrint, returns_bind, returns_query, and_assoc, exists_and_left,
    exists_eq_left, hfind, Option.bind_some, Tables.storedOrComputed]
  cases v.fingerprint with
  | none => exact hcompute
  | some stored =>
    dsimp only
    split
    · exact hcompute
    · rw [returns_pure]
      exact and_comm

/-- The version has its predecessor's digest. -/
def Tables.isNoOp (env : Env) (t : Tables) (v : VersionRow) : Bool :=
  (v.previousVersionId.bind t.version?).any fun w =>
    t.storedOrComputed env v.nodeId v == t.storedOrComputed env v.nodeId w

/-- The no-op check of one stored version only reads. -/
theorem returns_isNoOp {env : Env} {v : VersionRow} {b : Bool} {s s' : Db} (hv : v ∈ s.versions) :
    Returns (isNoOp env v) s b s' ↔ s' = s ∧ b = s.isNoOp env v := by
  simp only [isNoOp, returns_bind, returns_getOrComputeFingerPrint hv, and_assoc, exists_eq_left,
    Tables.isNoOp]
  cases hp : v.previousVersionId with
  | none =>
    simp only [returns_pure, Option.bind_none, Option.any_none]
    exact and_comm
  | some p =>
    obtain ⟨w, hw, rfl⟩ := List.mem_map.mp (s.valid.fk_version_previous v hv p hp)
    simp only [returns_bind, returns_getOrComputeFingerPrint hw, returns_pure, and_assoc,
      exists_eq_left, Option.bind_some, Db.version?_of_mem hw, Option.any_some]
    exact and_comm

theorem returns_collectNoOps {env : Env} {vs rs : List VersionRow} {s s' : Db}
    (hvs : ∀ v ∈ vs, v ∈ s.versions) :
    Returns (collectNoOps env vs) s rs s' ↔ s' = s ∧ rs = vs.filter (s.isNoOp env) := by
  induction vs generalizing rs s' with
  | nil =>
    simp only [collectNoOps, returns_pure, List.filter_nil]
    exact and_comm
  | cons v vs ih =>
    have hrest : ∀ w ∈ vs, w ∈ s.versions := fun w hw => hvs w (by simp [hw])
    simp only [collectNoOps, returns_bind, returns_isNoOp (hvs v (by simp)), ih hrest, returns_pure,
      and_assoc, exists_eq_left, List.filter_cons]
    exact and_comm

/-- **The no-op check passes exactly when it flags no version.** -/
theorem returns_rejectNoOps {env : Env} {vs : List VersionRow} {s s' : Db} {u : Unit}
    (hvs : ∀ v ∈ vs, v ∈ s.versions) :
    Returns (rejectNoOps env vs) s u s' ↔ s' = s ∧ ∀ v ∈ vs, s.isNoOp env v = false := by
  simp only [rejectNoOps, returns_bind, returns_collectNoOps hvs, returns_query, returns_require,
    and_assoc, exists_eq_left, exists_and_left, List.filter_eq_nil_iff, Bool.not_eq_true]
  exact and_comm

/-! ## Committing -/

/-- What a commit asks of the versions it commits. -/
structure Tables.Committable (env : Env) (t : Tables) (x : Uuid) (comment : Option String) : Prop where
  hasComment : nullOrBlank comment = false
  nonempty : t.versionsInTx x ≠ []
  changed : ∀ v ∈ t.versionsInTx x, t.isNoOp env v = false
  noViolation : commitViolations env t (t.versionsInTx x) = []

/-- The store after the versions left in a transaction were committed. -/
def Tables.committed (x : Uuid) (comment : Option String) (now : Nat) (t : Tables) : Tables :=
  (t.commitTx x (nvl comment) now).unlockNodes ((t.versionsInTx x).map (·.nodeId))

/-- **What a commit does**: the deferred nodes move to a continuation, and what is left is
committed and unlocked. -/
theorem commitTransaction_ok {env : Env} {ctx : Caller} {x : Uuid} {comment : Option String}
    {selected : List Uuid} {o : Option Uuid} {s s' : Db}
    (h : Returns (commitTransaction env ctx x comment selected) s o s') :
    s.mayClose ctx x ∧ ∃ s₁ es,
      Returns (deferNodes ctx x (deferredNodeIds (s.affectedNodes x) selected)) s o s₁
      ∧ s₁.Committable env x comment
      ∧ s'.toTables = (s₁.committed x comment ctx.now).withEvents es := by
  simp only [commitTransaction, returns_bind, returns_loadAndVerifyOwnership, returns_query,
    returns_require, returns_execute, returns_enqueue, returns_pure, and_assoc, exists_and_left,
    exists_eq_left, exists_const] at h
  obtain ⟨hown, hcomment, o, s₁, hdefer, hnonempty, _, s₂, hnoops, hviolations, s₃, hcommit, _, s₄,
    hversions, _, s₅, hunlock, s₆, hevent, rfl, rfl⟩ := h
  obtain ⟨rfl, hchanged⟩ := (returns_rejectNoOps fun v hv => List.mem_of_mem_filter hv).mp hnoops
  obtain ⟨es, hs₅⟩ := unlockAll_ok hunlock
  rw [enqueueAll_ok hversions, hcommit] at hs₅
  have hs₅' : s₅.toTables = ((s₂.committed x comment ctx.now).withEvents
      ((nodeIdsOf (s₂.versionsInTx x)).map fun n => .itemVersionCreated n ctx.userId)).withEvents es :=
    hs₅
  rw [hs₅', withEvents_withEvents, withEvents_withEvents] at hevent
  exact ⟨hown, s₂, _, hdefer, ⟨hcomment, hnonempty, hchanged, hviolations⟩, hevent⟩

/-- Committing a transaction row touches no constraint. -/
theorem Tables.Valid.commitTx {t : Tables} (h : t.Valid) (x : Uuid) (comment : String) (now : Nat) :
    (t.commitTx x comment now).Valid := by
  have hids : (t.commitTx x comment now).txIds = t.txIds := by
    simp only [Tables.txIds, Tables.commitTx, List.map_map]
    refine List.map_congr_left fun y _ => ?_
    simp only [Function.comp_apply]
    split <;> rfl
  exact
    { h with
      pk_tx := by rw [hids]; exact h.pk_tx
      fk_version_tx := by rw [hids]; exact h.fk_version_tx }

/-- The empty selection defers nothing. -/
theorem deferNodes_nil {ctx : Caller} {x : Uuid} (s : Db) :
    Returns (deferNodes ctx x []) s none s := by
  rw [deferNodes, if_pos rfl, returns_pure]
  exact ⟨rfl, rfl⟩

/-- **A full commit returns exactly when the caller may close the transaction and its versions
can be committed.** -/
theorem commitTransaction_succeeds_iff {env : Env} {ctx : Caller} {x : Uuid} {comment : Option String}
    {s : Db} :
    (∃ o s', Returns (commitTransaction env ctx x comment []) s o s') ↔
      s.mayClose ctx x ∧ s.Committable env x comment := by
  constructor
  · rintro ⟨o, s', h⟩
    obtain ⟨hown, s₁, es, hdefer, hc, -⟩ := commitTransaction_ok h
    obtain ⟨-, rfl⟩ := hdefer.unique (deferNodes_nil s)
    exact ⟨hown, hc⟩
  · rintro ⟨hown, hc⟩
    obtain ⟨s₁, hcommit⟩ := execute_succeeds.mpr (s.valid.commitTx x (nvl comment) ctx.now)
    obtain ⟨s₂, hversions⟩ := enqueueAll_succeeds (fun n => .itemVersionCreated n ctx.userId)
      (nodeIdsOf (s.versionsInTx x)) s₁
    obtain ⟨s₃, hunlock⟩ := unlockAll_succeeds (fun v : VersionRow => v.nodeId) (s.versionsInTx x) s₂
    obtain ⟨s', hevent⟩ := enqueue_succeeds
      (.transactionCommitted x (nodeIdsOf (s.versionsInTx x)) ctx.userId) s₃
    refine ⟨none, s', ?_⟩
    simp only [commitTransaction, returns_bind, returns_loadAndVerifyOwnership, returns_query,
      returns_require, returns_pure, and_assoc, exists_and_left, exists_eq_left, exists_const]
    refine ⟨hown, hc.hasComment, none, s, deferNodes_nil s, hc.nonempty, (), s, ?_, hc.noViolation,
      (), s₁, hcommit, _, s₂, hversions, _, s₃, hunlock, _, s', hevent, rfl, rfl⟩
    exact (returns_rejectNoOps fun v hv => List.mem_of_mem_filter hv).mpr ⟨rfl, hc.changed⟩

/-! ## Releasing -/

/-- The versions a transaction holds of one node, as a selection. -/
def ofTxAndNode (x nodeId : Uuid) : VersionSelection := fun v => v.txId = x ∧ v.nodeId = nodeId

/-- The store after one node was released. -/
def Tables.released (x nodeId : Uuid) (t : Tables) : Tables :=
  ((t.withoutVersions (ofTxAndNode x nodeId)).deleteOrphans [nodeId]).setLock nodeId none none

/-- The statement that deletes the node when it is left without a version, as the deletion of the
orphans among one node. -/
theorem deleteOrphan_eq (t : Tables) (nodeId : Uuid) :
    (if t.isOrphan nodeId then { t with nodes := t.nodes.filter (·.id ≠ nodeId) } else t) =
      t.deleteOrphans [nodeId] := by
  rw [Tables.deleteOrphans]
  by_cases ho : t.isOrphan nodeId = true
  · rw [if_pos ho]
    congr 1
    refine List.filter_congr fun n _ => ?_
    by_cases hn : n.id = nodeId
    · simp [hn, ho]
    · simp [hn]
  · rw [if_neg ho, List.filter_eq_self.mpr fun n _ => ?_]
    by_cases hn : n.id = nodeId
    · simp [hn, ho]
    · simp [hn]

theorem releaseNode_ok {x nodeId : Uuid} {b : Bool} {s s' : Db}
    (h : Returns (releaseNode x nodeId) s b s') :
    ∃ es, s'.toTables = (s.released x nodeId).withEvents es := by
  simp only [releaseNode, returns_bind, returns_query, returns_execute, returns_pure, and_assoc,
    exists_and_left, exists_eq_left, exists_const] at h
  obtain ⟨_, s₁, hpurge, s₂, horphan, _, s₃, hunlock, rfl, rfl⟩ := h
  obtain ⟨es, hs'⟩ := unlock_ok hunlock
  have hs₁ := purgeVersions_ok hpurge
  refine ⟨es, ?_⟩
  rw [hs', horphan, deleteOrphan_eq, hs₁]
  rfl

theorem released_withEvents (x nodeId : Uuid) (es : List PlmEvent) (t : Tables) :
    (t.withEvents es).released x nodeId = (t.released x nodeId).withEvents es := rfl

theorem foldl_released_withEvents (x : Uuid) (nodeIds : List Uuid) (es : List PlmEvent) (t : Tables) :
    nodeIds.foldl (fun t n => t.released x n) (t.withEvents es)
      = (nodeIds.foldl (fun t n => t.released x n) t).withEvents es := by
  induction nodeIds generalizing t with
  | nil => rfl
  | cons n ns ih => rw [List.foldl_cons, released_withEvents, ih, List.foldl_cons]

theorem releaseEach_ok {x : Uuid} {nodeIds deleted : List Uuid} {s s' : Db}
    (h : Returns (releaseEach x nodeIds) s deleted s') :
    ∃ es, s'.toTables = (nodeIds.foldl (fun t n => t.released x n) s.toTables).withEvents es := by
  induction nodeIds generalizing s deleted with
  | nil =>
    obtain ⟨-, rfl⟩ := returns_pure.mp h
    exact ⟨[], by simp [Tables.withEvents]⟩
  | cons n ns ih =>
    simp only [releaseEach, returns_bind, returns_pure] at h
    obtain ⟨b, s₁, h₁, ds, s₂, h₂, -, rfl⟩ := h
    obtain ⟨es₁, hs₁⟩ := releaseNode_ok h₁
    obtain ⟨es₂, hs₂⟩ := ih h₂
    rw [hs₁, foldl_released_withEvents, withEvents_withEvents] at hs₂
    exact ⟨_, hs₂⟩

/-- An empty transaction is deleted. -/
def Tables.dropEmptyTx (x : Uuid) (t : Tables) : Tables :=
  if t.versionsInTx x = [] then t.deleteTx x else t

theorem dropEmptyTx_withEvents (x : Uuid) (es : List PlmEvent) (t : Tables) :
    (t.withEvents es).dropEmptyTx x = (t.dropEmptyTx x).withEvents es := by
  unfold Tables.dropEmptyTx
  have hsame : (t.withEvents es).versionsInTx x = t.versionsInTx x := rfl
  rw [hsame]
  split <;> rfl

/-- **What a release does**: node by node, the versions the transaction holds of it go, the node
goes if it has no other, and it is unlocked; an empty transaction goes too. -/
theorem releaseNodes_ok {ctx : Caller} {x : Uuid} {nodeIds : List Uuid} {s s' : Db} {u : Unit}
    (h : Returns (releaseNodes ctx x nodeIds) s u s') :
    s.mayClose ctx x ∧ ((nodeIds = [] ∧ s' = s) ∨ ∃ es, s'.toTables =
      ((nodeIds.foldl (fun t n => t.released x n) s.toTables).dropEmptyTx x).withEvents es) := by
  simp only [releaseNodes, returns_bind, returns_loadAndVerifyOwnership, returns_ite, returns_pure,
    returns_execute, and_assoc, exists_and_left, exists_eq_left, exists_const] at h
  obtain ⟨hown, ⟨hnil, -, rfl⟩ | ⟨-, deleted, s₁, heach, s₂, hdrop, _, s₃, hpub, hevents⟩⟩ := h
  · exact ⟨hown, .inl ⟨hnil, rfl⟩⟩
  · obtain ⟨es₁, hs₁⟩ := releaseEach_ok heach
    have hs₂ : s₂.toTables = s₁.dropEmptyTx x := hdrop
    rw [hs₁, dropEmptyTx_withEvents] at hs₂
    have hs₃ : ∃ es, s₃.toTables = s₂.withEvents es := by
      unfold publishItemsReleased at hpub
      split at hpub
      · obtain ⟨-, rfl⟩ := returns_pure.mp hpub
        exact ⟨[], by simp [Tables.withEvents]⟩
      · exact ⟨_, returns_enqueue.mp hpub⟩
    obtain ⟨es₃, hs₃⟩ := hs₃
    have hs' := enqueueAll_ok hevents
    rw [hs₃, hs₂, withEvents_withEvents, withEvents_withEvents] at hs'
    exact ⟨hown, .inr ⟨_, hs'⟩⟩

/-! ## Cleanup -/

/-- The transactions the cleanup removes. -/
def Tables.staleTxIds (t : Tables) (now : Nat) : List Uuid := (t.txs.filter (·.isStale now)).map (·.id)

/-- **What the cleanup does**: the versions of the stale transactions go, and the transactions.
No node is deleted or unlocked. -/
theorem cleanStaleTransactions_ok {now : Nat} {s s' : Db} {u : Unit}
    (h : Returns (cleanStaleTransactions now) s u s') :
    s'.toTables = (s.staleTxIds now).foldl (fun t x => (t.withoutVersions (ofTx x)).deleteTx x)
      s.toTables := by
  simp only [cleanStaleTransactions, returns_bind, returns_query, and_assoc, exists_and_left,
    exists_eq_left] at h
  change Returns ((s.staleTxIds now).forM _) s u s' at h
  generalize s.staleTxIds now = xs at h ⊢
  induction xs generalizing s with
  | nil =>
    rw [returns_forM_nil] at h
    rw [h]
    rfl
  | cons x xs ih =>
    obtain ⟨s₁, h₁, h₂⟩ := returns_forM_cons.mp h
    simp only [returns_bind, returns_execute] at h₁
    obtain ⟨_, s₀, hpurge, htx⟩ := h₁
    rw [ih h₂, htx, purgeVersions_ok hpurge]
    rfl

end PlmCore.Psm
