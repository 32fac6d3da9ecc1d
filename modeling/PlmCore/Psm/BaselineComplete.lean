/-
Whether a baseline records the whole structure below its root.

The structure is what the committed versions say: at each node the links its last committed version
has, and below an unpinned link to another node the links of that node, as the resolver of the
source finds it. The walk of `createBaseline` looks for the target in another way, takes the links of
open versions as well, and records a link once for each trail by which it comes to it.
-/
import PlmCore.Psm.BaselineWalk
import PlmCore.Psm.EdgeIndex

set_option autoImplicit false

namespace PlmCore.Psm

open PlmCore.Lib Relation

/-! ## The structure -/

/-- The link has a target in the store itself and no version in its key. -/
def LinkRow.isUnpinned (l : LinkRow) : Bool := l.targetSourceId = "SELF" ∧ hasAt l.targetKey = false

namespace Tables

variable (t : Tables)

/-- The links the last committed version of a node has. -/
def committedLinks (nodeId : Uuid) : List LinkRow :=
  match t.getLastCommittedVersion nodeId with
  | none => []
  | some v => t.effectiveLinks nodeId v

/-- The link is of a committed version of the node. -/
def isCommittedLinkOf (nodeId : Uuid) (l : LinkRow) : Bool :=
  t.versions.any fun v => v.id = l.sourceNodeVersionId ∧ v.nodeId = nodeId ∧ t.isCommitted v.txId

end Tables

namespace Db

variable (env : Env) (s : Db)

/-- The node an unpinned link points at, as `resolveNode` finds it. -/
def targetOf (l : LinkRow) : Option NodeRow := selfNode env s.nodes l.targetType l.targetKey

/-- How a baseline is due to show a link: an unpinned one with the version of its target that was
committed last, any other one with its key as it stands. -/
def dueOf (l : LinkRow) : Recording :=
  if l.isUnpinned then
    ⟨l, ((s.targetOf env l).bind fun n => s.getLastCommittedVersion n.id).map (resolvedKey l),
      (s.targetOf env l).map (·.id)⟩
  else ⟨l, some l.targetKey, none⟩

/-- What a baseline is due to show at a node. -/
def due (nodeId : Uuid) : List Recording := (s.committedLinks nodeId).map (s.dueOf env)

/-- The trail leads from the root over unpinned links down to the node. -/
abbrev LeadsTo (root : Uuid) (p : List Recording) (nodeId : Uuid) : Prop :=
  Trail (s.due env) Recording.below root p nodeId

end Db

/-- **The entries show the structure**: one for every link below the root, and no other. -/
structure ShowsStructure (env : Env) (s : Db) (root : Uuid) (entries : List BaselineEntryRow) : Prop where
  recorded : ∀ p nodeId, s.LeadsTo env root p nodeId → ∀ e ∈ s.due env nodeId,
    ((entries.filter (·.nodeLinkId = e.link.id)).map fun x => some x.resolvedKey) = [e.key]
  nothingElse : ∀ x ∈ entries, ∃ p nodeId, s.LeadsTo env root p nodeId ∧
    ∃ e ∈ s.due env nodeId, x.nodeLinkId = e.link.id

/-- `createBaseline` terminates and the baseline shows the structure. -/
def RecordsStructure (env : Env) (ctx : Caller) (s : Db) (root : Uuid) (name : String)
    (description : Option String) : Prop :=
  ∃ enough, ∀ depth ≥ enough, ∃ baselineId s',
    Returns (createBaseline env ctx depth root name description) s baselineId s' ∧
      ShowsStructure env s root (s'.baselineEntries.filter (·.baselineId = baselineId))

/-- **When it does.** -/
structure PlainStructure (env : Env) (s : Db) (root : Uuid) : Prop where
  resolved : ∀ p nodeId, s.LeadsTo env root p nodeId → ∀ l ∈ s.committedLinks nodeId, l.isUnpinned = true →
    (env.getLinkType l.linkTypeId).bind (·.linkPolicy) = some "VERSION_TO_MASTER" ∧
      ∃ n ∈ s.targetOf env l, n.nodeTypeId = l.targetType ∧ s.getLastCommittedVersion n.id ≠ none
  pinned : ∀ p nodeId, s.LeadsTo env root p nodeId → ∀ l ∈ s.committedLinks nodeId, l.targetSourceId = "SELF" →
    hasAt l.targetKey = true → (s.joinedTargets l).length ≤ 1
  committed : ∀ p nodeId, s.LeadsTo env root p nodeId → ∀ l ∈ s.links, s.isLinkOf nodeId l = true →
    s.isCommittedLinkOf nodeId l = false →
      isMasterLink env l = true ∧ ∀ n ∈ s.joinedTargets l, s.getLastCommittedVersion n.id = none
  oneTrail : ∀ p q nodeId, s.LeadsTo env root p nodeId → s.LeadsTo env root q nodeId →
    s.committedLinks nodeId ≠ [] → p = q

/-! ## Links of committed versions -/

variable {env : Env} {s : Db} {nodeId : Uuid}

/-- The links of the last committed version are those of all committed versions. -/
theorem committedLinks_eq (s : Db) (nodeId : Uuid) :
    s.committedLinks nodeId = (s.links.filter (s.isLinkOf nodeId)).filter (s.isCommittedLinkOf nodeId) := by
  rw [List.filter_filter]
  have hboth : ∀ l, (s.isCommittedLinkOf nodeId l && s.isLinkOf nodeId l) = s.isCommittedLinkOf nodeId l := by
    intro l
    rw [Bool.and_eq_left_iff_imp]
    intro h
    simp only [Tables.isCommittedLinkOf, Tables.isLinkOf, List.any_eq_true, decide_eq_true_eq] at h ⊢
    obtain ⟨v, hv, hid, hnode, -⟩ := h
    exact ⟨v, hv, hid, hnode⟩
  rw [funext hboth, Tables.committedLinks]
  -- without a committed version there is no committed link either
  cases hlast : s.getLastCommittedVersion nodeId with
  | none =>
    symm
    rw [List.filter_eq_nil_iff]
    intro l _ h
    simp only [Tables.isCommittedLinkOf, List.any_eq_true, decide_eq_true_eq] at h
    obtain ⟨v, hv, -, hnode, hcommitted⟩ := h
    have hnone := List.filter_eq_nil_iff.mp (List.argmax_eq_none.mp hlast) v hv
    exact hnone (decide_eq_true (And.intro hnode hcommitted))
  | some v =>
    refine List.filter_congr fun l _ => ?_
    rw [Bool.eq_iff_iff]
    simp only [Tables.isEffectiveLink, Tables.isCommittedLinkOf, List.any_eq_true, decide_eq_true_eq]
    refine exists_congr fun w => and_congr_right fun hw => and_congr_right fun _ => and_congr_right
      fun hnode => ?_
    obtain ⟨hv, hvnode, hvcommitted⟩ := Tables.getLastCommittedVersion_ok hlast
    constructor
    · rintro ⟨hcommitted | hid, -⟩
      · exact hcommitted
      -- the last committed version is itself committed
      · rw [List.inj_on_of_nodup_map s.valid.pk_version hw hv hid]
        exact hvcommitted
    · intro hcommitted
      -- and no committed version has a larger number
      refine ⟨.inl hcommitted, List.le_of_mem_argmax ?_ hlast⟩
      exact List.mem_filter.mpr ⟨hw, decide_eq_true (And.intro hnode hcommitted)⟩

theorem mem_committedLinks {l : LinkRow} : l ∈ s.committedLinks nodeId ↔
    (l ∈ s.links ∧ s.isLinkOf nodeId l = true) ∧ s.isCommittedLinkOf nodeId l = true := by
  rw [committedLinks_eq, List.mem_filter, List.mem_filter]

/-- A link has one owner. -/
theorem isLinkOf_unique {l : LinkRow} {n n' : Uuid} (h : s.isLinkOf n l = true)
    (h' : s.isLinkOf n' l = true) : n = n' := by
  simp only [Tables.isLinkOf, List.any_eq_true, decide_eq_true_eq] at h h'
  obtain ⟨v, hv, hid, rfl⟩ := h
  obtain ⟨w, hw, hwid, rfl⟩ := h'
  rw [List.inj_on_of_nodup_map s.valid.pk_version hv hw (hid.trans hwid.symm)]

theorem link_eq {l l' : LinkRow} (hl : l ∈ s.links) (hl' : l' ∈ s.links) (hid : l.id = l'.id) : l = l' :=
  List.inj_on_of_nodup_map s.valid.pk_link hl hl' hid

@[simp] theorem dueOf_link (l : LinkRow) : (s.dueOf env l).link = l := by
  unfold Db.dueOf
  split <;> rfl

/-- What is due at a node is due for a link of the node. -/
theorem link_of_due {e : Recording} (h : e ∈ s.due env nodeId) :
    e.link ∈ s.committedLinks nodeId ∧ e = s.dueOf env e.link := by
  obtain ⟨l, hl, rfl⟩ := List.mem_map.mp h
  rw [dueOf_link]
  exact ⟨hl, rfl⟩

theorem nodup_due : (s.due env nodeId).Nodup := by
  have hnodup : (s.committedLinks nodeId).Nodup := by
    rw [committedLinks_eq]
    exact ((List.Nodup.of_map _ s.valid.pk_link).filter _).filter _
  refine hnodup.map fun l l' h => ?_
  have hlink := congrArg Recording.link h
  rw [dueOf_link, dueOf_link] at hlink
  exact hlink

/-! ## Rows of the walk -/

/-- The rows of one link. -/
def Tables.rowsOf (t : Tables) (l : LinkRow) : List (LinkRow × Option NodeRow) :=
  match if l.targetSourceId = "SELF" then t.joinedTargets l else [] with
  | [] => [(l, none)]
  | targets => targets.map fun n => (l, some n)

/-- What the walk records of one link. -/
def Tables.recordingsOf (env : Env) (t : Tables) (l : LinkRow) : List Recording :=
  (t.rowsOf l).filterMap (t.recordingOf env)

theorem recordings_eq (t : Tables) : t.recordings env nodeId =
    (t.links.filter (t.isLinkOf nodeId)).flatMap (t.recordingsOf env) :=
  List.filterMap_flatMap

/-- Rows of a link are made of the nodes it is joined with, or of none. -/
theorem mem_rowsOf {t : Tables} {l : LinkRow} {row : LinkRow × Option NodeRow} (h : row ∈ t.rowsOf l) :
    row.1 = l ∧ ∀ n ∈ row.2, n ∈ t.joinedTargets l := by
  unfold Tables.rowsOf at h
  split at h
  · rw [List.mem_singleton.mp h]
    exact ⟨rfl, fun n hn => by cases hn⟩
  · obtain ⟨n, hn, rfl⟩ := List.mem_map.mp h
    refine ⟨rfl, fun m hm => ?_⟩
    obtain rfl := Option.some.inj hm
    split at hn
    · exact hn
    · cases hn

theorem isMasterLink_iff {l : LinkRow} : isMasterLink env l = true ↔ l.isUnpinned = true ∧
    (env.getLinkType l.linkTypeId).bind (·.linkPolicy) = some "VERSION_TO_MASTER" := by
  simp only [isMasterLink, LinkRow.isUnpinned, decide_eq_true_eq]
  tauto

/-- A recording is made of a row of its link. -/
theorem recording_cases {t : Tables} {l : LinkRow} {e : Recording} (h : e ∈ t.recordingsOf env l) :
    e.link = l ∧ (isMasterLink env l = true ∧ (∃ n ∈ t.joinedTargets l,
      ∃ v, t.getLastCommittedVersion n.id = some v ∧ e = ⟨l, some (resolvedKey l v), some n.id⟩) ∨
      isMasterLink env l = false ∧ e = ⟨l, some l.targetKey, none⟩) := by
  obtain ⟨row, hrow, he⟩ := List.mem_filterMap.mp h
  obtain ⟨rfl, hjoined⟩ := mem_rowsOf hrow
  unfold Tables.recordingOf at he
  by_cases hmaster : isMasterLink env row.1 = true
  · rw [if_pos hmaster] at he
    obtain ⟨n, hn, hv⟩ := Option.bind_eq_some_iff.mp he
    obtain ⟨v, hlast, rfl⟩ := Option.map_eq_some_iff.mp hv
    exact ⟨rfl, .inl ⟨hmaster, n, hjoined n hn, v, hlast, rfl⟩⟩
  · rw [if_neg hmaster] at he
    obtain rfl := Option.some.inj he
    exact ⟨rfl, .inr ⟨Bool.eq_false_iff.mpr hmaster, rfl⟩⟩

/-- The join finds the nodes that the resolver looks for first. -/
theorem joinedTargets_of_unpinned {t : Tables} {l : LinkRow} (h : l.isUnpinned = true) :
    t.joinedTargets l = exactNodes t.nodes l.targetType l.targetKey := by
  have hat : hasAt l.targetKey = false := (of_decide_eq_true h).2
  rw [Tables.joinedTargets, beforeAt_of_not_hasAt hat, exactNodes]

/-- A node the walk is joined with is the target, if there is a target. -/
theorem targetOf_joined {l : LinkRow} {n m : NodeRow} (h : l.isUnpinned = true)
    (hn : n ∈ s.joinedTargets l) (hm : s.targetOf env l = some m) : m = n := by
  rw [joinedTargets_of_unpinned h] at hn
  rw [Db.targetOf, selfNode] at hm
  split at hm
  · rename_i hnone
    rw [hnone] at hn
    cases hn
  · rw [single_eq_some.mp hm] at hn
    exact (List.mem_singleton.mp hn).symm

/-- **A target of exactly the type of the link** is the only node the walk is joined with. -/
theorem joinedTargets_of_exact {l : LinkRow} {n : NodeRow} (h : l.isUnpinned = true)
    (hn : s.targetOf env l = some n) (htype : n.nodeTypeId = l.targetType) : s.joinedTargets l = [n] := by
  rw [joinedTargets_of_unpinned h]
  rw [Db.targetOf, selfNode] at hn
  split at hn
  · -- the resolver would have found the node at its first try
    rename_i hnone
    have hsingle := single_eq_some.mp (Option.filter_eq_some_iff.mp hn).1
    have hmem : n ∈ s.nodes.filter (·.logicalId = some l.targetKey) :=
      hsingle ▸ List.mem_singleton_self n
    obtain ⟨hmem, hid⟩ := List.mem_filter.mp hmem
    have hexact : n ∈ exactNodes s.nodes l.targetType l.targetKey :=
      List.mem_filter.mpr ⟨hmem, by simpa [htype] using hid⟩
    rw [hnone] at hexact
    cases hexact
  · exact single_eq_some.mp hn

/-! ## Plain structures are walked as they are -/

/-- The recording of a link that is not resolved. -/
theorem recordingOf_verbatim {t : Tables} {l : LinkRow} (h : isMasterLink env l = false)
    (target : Option NodeRow) : t.recordingOf env (l, target) = some ⟨l, some l.targetKey, none⟩ := by
  rw [Tables.recordingOf, if_neg (by rw [h]; exact Bool.false_ne_true)]

/-- An unpinned link is recorded as it is due, when its target has exactly its type. -/
theorem recordingsOf_unpinned {l : LinkRow} (hunpinned : l.isUnpinned = true)
    (hpolicy : (env.getLinkType l.linkTypeId).bind (·.linkPolicy) = some "VERSION_TO_MASTER")
    {n : NodeRow} (hn : s.targetOf env l = some n) (htype : n.nodeTypeId = l.targetType)
    (hcommitted : s.getLastCommittedVersion n.id ≠ none) :
    s.recordingsOf env l = [s.dueOf env l] := by
  have hself : l.targetSourceId = "SELF" := (of_decide_eq_true hunpinned).1
  have hrows : s.rowsOf l = [(l, some n)] := by
    rw [Tables.rowsOf, if_pos hself, joinedTargets_of_exact hunpinned hn htype]
    rfl
  have hmaster : isMasterLink env l = true := isMasterLink_iff.mpr ⟨hunpinned, hpolicy⟩
  obtain ⟨v, hv⟩ := Option.ne_none_iff_exists'.mp hcommitted
  rw [Tables.recordingsOf, hrows, List.filterMap_cons, Tables.recordingOf, if_pos hmaster, Db.dueOf,
    if_pos hunpinned, hn]
  simp [hv]

/-- Any other link is recorded once, when it is joined with one node at most. -/
theorem recordingsOf_pinned {l : LinkRow} (hpinned : l.isUnpinned = false)
    (honce : l.targetSourceId = "SELF" → (s.joinedTargets l).length ≤ 1) :
    s.recordingsOf env l = [s.dueOf env l] := by
  have hmaster : isMasterLink env l = false := by
    rw [← Bool.not_eq_true, isMasterLink_iff, hpinned]
    simp
  have hrow : ∃ target, s.rowsOf l = [(l, target)] := by
    rw [Tables.rowsOf]
    by_cases hself : l.targetSourceId = "SELF"
    · rw [if_pos hself]
      have hlength := honce hself
      rcases hjoined : s.joinedTargets l with _ | ⟨n, _ | ⟨m, rest⟩⟩
      · exact ⟨none, rfl⟩
      · exact ⟨some n, rfl⟩
      · rw [hjoined] at hlength
        simp at hlength
    · rw [if_neg hself]
      exact ⟨none, rfl⟩
  obtain ⟨target, hrow⟩ := hrow
  rw [Tables.recordingsOf, hrow, List.filterMap_cons, recordingOf_verbatim hmaster, Db.dueOf, hpinned]
  rfl

/-- A link that is not resolved is recorded for each node it is joined with. -/
theorem joinedTargets_length_le {l : LinkRow} (hself : l.targetSourceId = "SELF")
    (hmaster : isMasterLink env l = false) :
    (s.joinedTargets l).length ≤ (s.recordingsOf env l).length := by
  have hverbatim : s.recordingsOf env l = (s.rowsOf l).map fun _ => ⟨l, some l.targetKey, none⟩ := by
    rw [← List.filterMap_eq_map]
    refine List.filterMap_congr fun row hrow => ?_
    obtain ⟨rfl, -⟩ := mem_rowsOf hrow
    exact recordingOf_verbatim hmaster row.2
  rw [hverbatim, List.length_map, Tables.rowsOf, if_pos hself]
  split
  · rename_i hnil
    rw [hnil]
    exact Nat.zero_le _
  · rw [List.length_map]

/-- Nothing is recorded of a link exactly when it is one to resolve and no node it is joined with
has a committed version. -/
theorem recordingsOf_eq_nil {l : LinkRow} : s.recordingsOf env l = [] ↔
    isMasterLink env l = true ∧ ∀ n ∈ s.joinedTargets l, s.getLastCommittedVersion n.id = none := by
  rw [Tables.recordingsOf, List.filterMap_eq_nil_iff]
  constructor
  · intro h
    have hmaster : isMasterLink env l = true := by
      -- any other link has a row, and is recorded as it stands
      by_contra hnot
      rw [Bool.not_eq_true] at hnot
      obtain ⟨row, hrow⟩ : ∃ row, row ∈ s.rowsOf l := by
        unfold Tables.rowsOf
        split
        · exact ⟨_, List.mem_singleton_self _⟩
        · rename_i hne
          exact List.exists_mem_of_ne_nil _ (fun hnil => hne (List.map_eq_nil_iff.mp hnil))
      have hnone := h row hrow
      obtain ⟨rfl, -⟩ := mem_rowsOf hrow
      rw [show row = (row.1, row.2) from rfl, recordingOf_verbatim hnot] at hnone
      cases hnone
    refine ⟨hmaster, fun n hn => ?_⟩
    -- it is a SELF link, so its rows are those of the nodes it joins
    have hself : l.targetSourceId = "SELF" := (of_decide_eq_true (isMasterLink_iff.mp hmaster).1).1
    have hrow : (l, some n) ∈ s.rowsOf l := by
      unfold Tables.rowsOf
      rw [if_pos hself]
      split
      · rename_i hnil
        rw [hnil] at hn
        cases hn
      · exact List.mem_map_of_mem hn
    have hnone := h _ hrow
    rw [Tables.recordingOf, if_pos hmaster, Option.bind_some, Option.map_eq_none_iff] at hnone
    exact hnone
  · rintro ⟨hmaster, hnone⟩ row hrow
    obtain ⟨rfl, hjoined⟩ := mem_rowsOf hrow
    rw [Tables.recordingOf, if_pos hmaster, Option.bind_eq_none_iff]
    intro n hn
    rw [hnone n (hjoined n hn), Option.map_none]

theorem flatMap_filtered {α β : Type} {f : α → List β} {g : α → β} {c : α → Bool} {l : List α}
    (h : ∀ a ∈ l, f a = if c a then [g a] else []) : l.flatMap f = (l.filter c).map g := by
  induction l with
  | nil => rfl
  | cons a l ih =>
    rw [List.flatMap_cons, h a List.mem_cons_self, ih fun b hb => h b (List.mem_cons_of_mem _ hb)]
    by_cases hc : c a = true <;> simp [hc]

/-- **In a plain structure** the walk records at each node what is due. -/
theorem PlainStructure.recordings {root : Uuid} {p : List Recording} (h : PlainStructure env s root)
    (hp : s.LeadsTo env root p nodeId) : s.recordings env nodeId = s.due env nodeId := by
  rw [recordings_eq, Db.due, committedLinks_eq]
  refine flatMap_filtered fun l hl => ?_
  obtain ⟨hlink, hof⟩ := List.mem_filter.mp hl
  by_cases hcommitted : s.isCommittedLinkOf nodeId l = true
  · rw [if_pos hcommitted]
    have hmem : l ∈ s.committedLinks nodeId := mem_committedLinks.mpr ⟨⟨hlink, hof⟩, hcommitted⟩
    cases hunpinned : l.isUnpinned with
    | true =>
      obtain ⟨hpolicy, n, hn, htype, hversion⟩ := h.resolved p nodeId hp l hmem hunpinned
      exact recordingsOf_unpinned hunpinned hpolicy hn htype hversion
    | false =>
      refine recordingsOf_pinned hunpinned fun hself => h.pinned p nodeId hp l hmem hself ?_
      by_contra hat
      rw [LinkRow.isUnpinned, decide_eq_false_iff_not] at hunpinned
      exact hunpinned ⟨hself, Bool.eq_false_iff.mpr hat⟩
  · rw [if_neg hcommitted, recordingsOf_eq_nil]
    rw [Bool.not_eq_true] at hcommitted
    exact h.committed p nodeId hp l hlink hof hcommitted

/-! ## The entries of a link -/

section Entries

variable {root baselineId : Uuid} {depth : Nat}

/-- The entries of a link are those the walk makes of it. -/
theorem entries_of_link (linkId : Uuid) {walked : List (List Recording × Recording)}
    (hkeys : ∀ x ∈ walked, ∃ key, x.2.key = some key) :
    ((walked.filterMap fun x => x.2.entry baselineId).filter (·.nodeLinkId = linkId)).map
      (fun x => some x.resolvedKey) =
      (walked.filter fun x => x.2.link.id = linkId).map fun x => x.2.key := by
  induction walked with
  | nil => rfl
  | cons x walked ih =>
    obtain ⟨key, hkey⟩ := hkeys x List.mem_cons_self
    have hentry : x.2.entry baselineId = some ⟨baselineId, x.2.link.id, key⟩ := by
      rw [Recording.entry, hkey]
      rfl
    rw [List.filterMap_cons, hentry]
    by_cases hid : x.2.link.id = linkId
    · simp [hid, hkey, ih fun y hy => hkeys y (List.mem_cons_of_mem _ hy)]
    · simp [hid, ih fun y hy => hkeys y (List.mem_cons_of_mem _ hy)]

/-- What the walk makes has a key. -/
theorem recordedFrom_key (hends : EndsWithin (s.recordings env) Recording.below depth root)
    {x : List Recording × Recording} (hx : x ∈ s.recordedFrom env depth root) :
    ∃ key, x.2.key = some key := by
  obtain ⟨nodeId, -, he⟩ := (mem_unfolding hends).mp hx
  exact recording_key he

/-- **A plain structure is shown.** -/
theorem PlainStructure.shown (h : PlainStructure env s root)
    (hends : EndsWithin (s.recordings env) Recording.below depth root) :
    ShowsStructure env s root (s.walkEntries env baselineId depth root) := by
  obtain ⟨hwalked, hsameEnds⟩ : s.recordedFrom env depth root =
      unfolding (s.due env) Recording.below depth root ∧
        (EndsWithin (s.recordings env) Recording.below depth root ↔
          EndsWithin (s.due env) Recording.below depth root) :=
    unfolding_congr fun p nodeId (hp : s.LeadsTo env root p nodeId) => h.recordings hp
  have hmem : ∀ {p e}, (p, e) ∈ s.recordedFrom env depth root ↔
      ∃ nodeId, s.LeadsTo env root p nodeId ∧ e ∈ s.due env nodeId := by
    intro p e
    rw [hwalked]
    exact mem_unfolding (hsameEnds.mp hends)
  constructor
  · intro p nodeId hp e he
    rw [Tables.walkEntries, entries_of_link _ fun x hx => recordedFrom_key hends hx]
    have hin : (p, e) ∈ s.recordedFrom env depth root := hmem.mpr ⟨nodeId, hp, he⟩
    -- a link is met on one trail only, so it has one row
    have honly : ∀ x ∈ s.recordedFrom env depth root, x.2.link.id = e.link.id → x = (p, e) := by
      rintro ⟨q, e'⟩ hx hid
      obtain ⟨nodeId', hq, he'⟩ := hmem.mp hx
      obtain ⟨hl, hdue⟩ := link_of_due he
      obtain ⟨hl', hdue'⟩ := link_of_due he'
      obtain ⟨⟨hlink, hof⟩, -⟩ := mem_committedLinks.mp hl
      obtain ⟨⟨hlink', hof'⟩, -⟩ := mem_committedLinks.mp hl'
      have hsamelink : e'.link = e.link := link_eq hlink' hlink hid
      rw [hsamelink] at hof'
      obtain rfl := isLinkOf_unique hof hof'
      rw [Prod.mk.injEq]
      exact ⟨h.oneTrail q p nodeId hq hp (List.ne_nil_of_mem hl), by rw [hdue', hsamelink, ← hdue]⟩
    -- and on that trail once
    have hnodup : (s.recordedFrom env depth root).Nodup := by
      rw [hwalked]
      exact nodup_unfolding (fun _ => nodup_due) _ _
    have hone : (s.recordedFrom env depth root).filter (fun x => x.2.link.id = e.link.id) = [(p, e)] :=
      filter_eq_singleton hnodup hin (decide_eq_true rfl) fun x hx hid =>
        honly x hx (of_decide_eq_true hid)
    rw [hone]
    rfl
  · intro x hx
    obtain ⟨⟨p, e⟩, hpe, hentry⟩ := List.mem_filterMap.mp hx
    obtain ⟨nodeId, hp, he⟩ := hmem.mp hpe
    obtain ⟨key, -, rfl⟩ := Option.map_eq_some_iff.mp hentry
    exact ⟨p, nodeId, hp, e, he, rfl⟩

/-- A link of the walk is a link of its node. -/
theorem link_of_recording {e : Recording} (h : e ∈ s.recordings env nodeId) :
    e.link ∈ s.links ∧ s.isLinkOf nodeId e.link = true ∧ e ∈ s.recordingsOf env e.link := by
  rw [recordings_eq] at h
  obtain ⟨l, hl, he⟩ := List.mem_flatMap.mp h
  obtain ⟨rfl, -⟩ := recording_cases he
  obtain ⟨hlink, hof⟩ := List.mem_filter.mp hl
  exact ⟨hlink, hof, he⟩

/-- A key with a version differs from the key of the link. -/
theorem resolvedKey_ne (l : LinkRow) (v : VersionRow) : resolvedKey l v ≠ l.targetKey := by
  intro h
  have hlength := congrArg String.length h
  have hat : "@".length = 1 := rfl
  rw [resolvedKey, String.length_append, String.length_append] at hlength
  omega

/-- **What is recorded with the due key is what is due.** -/
theorem recording_eq_due {e r : Recording} (he : e ∈ s.due env nodeId) (hr : r ∈ s.recordingsOf env e.link)
    (hkey : r.key = e.key) : r = e := by
  obtain ⟨-, hdue⟩ := link_of_due he
  obtain ⟨-, ⟨hmaster, n, hn, v, -, rfl⟩ | ⟨-, rfl⟩⟩ := recording_cases hr
  · have hunpinned := (isMasterLink_iff.mp hmaster).1
    rw [Db.dueOf, if_pos hunpinned] at hdue
    -- the key names a version, so there is a target
    cases htarget : s.targetOf env e.link with
    | none =>
      rw [htarget] at hdue
      rw [hdue] at hkey
      cases hkey
    | some m =>
      rw [htarget] at hdue
      obtain rfl := targetOf_joined hunpinned hn htarget
      rw [hdue] at hkey ⊢
      simp only at hkey ⊢
      rw [hkey]
      rfl
  · cases hunpinned : e.link.isUnpinned with
    | true =>
      rw [Db.dueOf, if_pos hunpinned] at hdue
      rw [hdue] at hkey
      obtain ⟨v, -, hv⟩ := Option.map_eq_some_iff.mp hkey.symm
      exact absurd hv (resolvedKey_ne _ v)
    | false =>
      rw [hdue, Db.dueOf, hunpinned]
      rfl

/-- The walk meets the links of a structure it shows once each, and no others. -/
structure Walked (env : Env) (s : Db) (root : Uuid) (walked : List (List Recording × Recording)) : Prop where
  once : ∀ p nodeId, s.LeadsTo env root p nodeId → ∀ e ∈ s.due env nodeId,
    (walked.filter fun x => x.2.link.id = e.link.id).map (fun x => x.2.key) = [e.key]
  due : ∀ x ∈ walked, ∃ p nodeId, s.LeadsTo env root p nodeId ∧
    ∃ e ∈ s.due env nodeId, x.2.link.id = e.link.id

theorem ShowsStructure.walked (hends : EndsWithin (s.recordings env) Recording.below depth root)
    (h : ShowsStructure env s root (s.walkEntries env baselineId depth root)) :
    Walked env s root (s.recordedFrom env depth root) := by
  constructor
  · intro p nodeId hp e he
    rw [← h.recorded p nodeId hp e he, Tables.walkEntries,
      entries_of_link _ fun x hx => recordedFrom_key hends hx]
  · intro x hx
    obtain ⟨key, hkey⟩ := recordedFrom_key hends hx
    refine h.nothingElse ⟨baselineId, x.2.link.id, key⟩ (List.mem_filterMap.mpr ⟨x, hx, ?_⟩)
    rw [Recording.entry, hkey]
    rfl

namespace Walked

variable (h : Walked env s root (s.recordedFrom env depth root))
  (hends : EndsWithin (s.recordings env) Recording.below depth root)

include h

/-- What is due is met, and met once. -/
theorem unique {p : List Recording} {e : Recording} (hp : s.LeadsTo env root p nodeId)
    (he : e ∈ s.due env nodeId) : ∃ x, x.2.key = e.key ∧
      (s.recordedFrom env depth root).filter (fun x => x.2.link.id = e.link.id) = [x] := by
  have hone := h.once p nodeId hp e he
  obtain ⟨x, hx⟩ := List.length_eq_one_iff.mp (by
    rw [← List.length_map (f := fun x : List Recording × Recording => x.2.key), hone]
    rfl)
  rw [hx, List.map_singleton] at hone
  exact ⟨x, (List.cons.inj hone).1, hx⟩

/-- Two recordings of one link that is due are the same, met by the same trail. -/
theorem same {x y : List Recording × Recording} {p : List Recording} {e : Recording}
    (hp : s.LeadsTo env root p nodeId) (he : e ∈ s.due env nodeId)
    (hx : x ∈ s.recordedFrom env depth root) (hxid : x.2.link.id = e.link.id)
    (hy : y ∈ s.recordedFrom env depth root) (hyid : y.2.link.id = e.link.id) : x = y := by
  obtain ⟨z, -, hone⟩ := h.unique hp he
  have hz : ∀ {w}, w ∈ s.recordedFrom env depth root → w.2.link.id = e.link.id → w = z := by
    intro w hw hwid
    rw [← List.mem_singleton, ← hone, List.mem_filter, decide_eq_true_eq]
    exact ⟨hw, hwid⟩
  rw [hz hx hxid, hz hy hyid]

include hends

/-- At a node of the structure the walk records what is due. -/
theorem due_subset {p : List Recording} (hp : s.LeadsTo env root p nodeId) :
    s.due env nodeId ⊆ s.recordings env nodeId := by
  intro e he
  obtain ⟨x, hkey, hone⟩ := h.unique hp he
  have hx : x ∈ [x] := List.mem_singleton_self x
  rw [← hone, List.mem_filter, decide_eq_true_eq] at hx
  obtain ⟨nodeId', -, hr⟩ := (mem_unfolding hends).mp hx.1
  obtain ⟨hlink, hof, hrecorded⟩ := link_of_recording hr
  obtain ⟨⟨helink, heof⟩, -⟩ := mem_committedLinks.mp (link_of_due he).1
  have hsame : x.2.link = e.link := link_eq hlink helink hx.2
  rw [hsame] at hof hrecorded
  obtain rfl := isLinkOf_unique heof hof
  rw [← recording_eq_due he hrecorded hkey]
  exact hr

/-- **A trail of the structure** is one the walk follows. -/
theorem trail {p : List Recording} (hp : s.LeadsTo env root p nodeId) :
    Trail (s.recordings env) Recording.below root p nodeId := by
  induction p using List.reverseRecOn generalizing nodeId with
  | nil =>
    cases hp with
    | refl => exact .refl root
  | append_singleton p e ih =>
    obtain ⟨c, hc, he, hnext⟩ := trail_snoc_iff.mp hp
    exact trail_snoc_iff.mpr ⟨c, ih hc, h.due_subset hends hc he, hnext⟩

/-- What the walk records of a node of the structure is met by the trail to the node. -/
theorem met {p : List Recording} {e : Recording} (hp : s.LeadsTo env root p nodeId)
    (he : e ∈ s.recordings env nodeId) : (p, e) ∈ s.recordedFrom env depth root :=
  (mem_unfolding hends).mpr ⟨nodeId, h.trail hends hp, he⟩

/-- The walk records nothing else there. -/
theorem recordings_subset {p : List Recording} (hp : s.LeadsTo env root p nodeId) :
    s.recordings env nodeId ⊆ s.due env nodeId := by
  intro r hr
  obtain ⟨q, nodeId', hq, e, he, hid⟩ := h.due _ (h.met hends hp hr)
  obtain ⟨hlink, hof, -⟩ := link_of_recording hr
  obtain ⟨⟨helink, heof⟩, -⟩ := mem_committedLinks.mp (link_of_due he).1
  have hsame : r.link = e.link := link_eq hlink helink hid
  rw [hsame] at hof
  obtain rfl := isLinkOf_unique heof hof
  have hboth := h.same hq he (h.met hends hq hr) hid (h.met hends hq (h.due_subset hends hq he)) rfl
  rw [(Prod.mk.inj hboth).2]
  exact he

/-- A link of a node of the structure is recorded at most once. -/
theorem recordingsOf_length {p : List Recording} {l : LinkRow} (hp : s.LeadsTo env root p nodeId)
    (hl : l ∈ s.committedLinks nodeId) : (s.recordingsOf env l).length ≤ 1 := by
  have he : s.dueOf env l ∈ s.due env nodeId := List.mem_map_of_mem hl
  obtain ⟨x, -, hone⟩ := h.unique hp he
  rw [dueOf_link] at hone
  have hmet := (sublist_unfolding hends (h.trail hends hp)).filter fun x => decide (x.2.link.id = l.id)
  rw [Tables.recordedFrom] at hone
  rw [hone, List.filter_map] at hmet
  have hof : (s.recordingsOf env l).Sublist (s.recordings env nodeId) := by
    rw [recordings_eq]
    refine List.sublist_flatten_of_mem (List.mem_map_of_mem ?_)
    obtain ⟨⟨hlink, hof⟩, -⟩ := mem_committedLinks.mp hl
    exact List.mem_filter.mpr ⟨hlink, hof⟩
  have hall : (s.recordingsOf env l).filter ((fun x : List Recording × Recording =>
      decide (x.2.link.id = l.id)) ∘ Prod.mk p) = s.recordingsOf env l := by
    rw [List.filter_eq_self]
    intro r hr
    simp [(recording_cases hr).1]
  have hle := (hof.filter ((fun x : List Recording × Recording =>
    decide (x.2.link.id = l.id)) ∘ Prod.mk p)).length_le.trans (by simpa using hmet.length_le)
  rw [hall] at hle
  simpa using hle

/-- **A structure that is walked link by link is plain.** -/
theorem plain : PlainStructure env s root := by
  constructor
  · intro p nodeId hp l hl hunpinned
    have he : s.dueOf env l ∈ s.due env nodeId := List.mem_map_of_mem hl
    obtain ⟨-, -, hrecorded⟩ := link_of_recording (h.due_subset hends hp he)
    rw [dueOf_link] at hrecorded
    have hdue : s.dueOf env l = ⟨l, ((s.targetOf env l).bind fun n => s.getLastCommittedVersion n.id).map
        (resolvedKey l), (s.targetOf env l).map (·.id)⟩ := by
      rw [Db.dueOf, if_pos hunpinned]
    -- what is due of an unpinned link is recorded: it has a target with a committed version
    obtain ⟨-, ⟨hmaster, n, hn, v, hv, hsame⟩ | ⟨-, hsame⟩⟩ := recording_cases hrecorded
    · refine ⟨(isMasterLink_iff.mp hmaster).2, ?_⟩
      rw [hdue] at hsame
      obtain ⟨m, hm, -⟩ := Option.map_eq_some_iff.mp (congrArg Recording.below hsame)
      obtain rfl := targetOf_joined hunpinned hn hm
      refine ⟨m, hm, ?_, by rw [hv]; exact Option.some_ne_none v⟩
      exact (of_decide_eq_true (List.mem_filter.mp hn).2).2
    · rw [hdue] at hsame
      obtain ⟨v, -, hv⟩ := Option.map_eq_some_iff.mp (congrArg Recording.key hsame)
      -- recorded as it stands it would show no version
      exact absurd hv (resolvedKey_ne l v)
  · intro p nodeId hp l hl hself hat
    -- a pinned link is never one to resolve
    have hmaster : isMasterLink env l = false := by
      rw [← Bool.not_eq_true, isMasterLink_iff]
      rintro ⟨hunpinned, -⟩
      rw [(of_decide_eq_true hunpinned).2] at hat
      cases hat
    exact (joinedTargets_length_le hself hmaster).trans (h.recordingsOf_length hends hp hl)
  -- a link of an open version is not due, so nothing may be recorded of it
  · intro p nodeId hp l hl hof hcommitted
    rw [← recordingsOf_eq_nil, List.eq_nil_iff_forall_not_mem]
    intro r hr
    have hmem : r ∈ s.recordings env nodeId := by
      rw [recordings_eq]
      exact List.mem_flatMap.mpr ⟨l, List.mem_filter.mpr ⟨hl, hof⟩, hr⟩
    obtain ⟨hlink, -⟩ := link_of_due (h.recordings_subset hends hp hmem)
    rw [(recording_cases hr).1, mem_committedLinks, hcommitted] at hlink
    cases hlink.2
  -- two trails to one node would show its links twice
  · intro p q nodeId hp hq hne
    obtain ⟨l, hl⟩ := List.exists_mem_of_ne_nil _ hne
    have he : s.dueOf env l ∈ s.due env nodeId := List.mem_map_of_mem hl
    have hboth := h.same hp he (h.met hends hp (h.due_subset hends hp he)) rfl
      (h.met hends hq (h.due_subset hends hq he)) rfl
    exact (Prod.mk.inj hboth).1

end Walked

end Entries

/-! ## Creating the baseline -/

variable {ctx : Caller} {root baselineId : Uuid} {name : String} {description : Option String} {depth : Nat}
  {s' : Db}

/-- The entries of a new baseline are those of the walk. -/
theorem createBaseline_entries (hfresh : s.nextId ∉ s.baselines.map (·.id))
    (h : Returns (createBaseline env ctx depth root name description) s baselineId s') :
    EndsWithin (s.recordings env) Recording.below depth root ∧
      s'.baselineEntries.filter (·.baselineId = baselineId) = s.walkEntries env baselineId depth root := by
  simp only [createBaseline, assertNodeIsFrozen, returns_bind, returns_query, returns_orElseThrow,
    returns_require, returns_randomUUID, returns_execute, returns_enqueue, returns_pure, and_assoc,
    exists_and_left, exists_eq_left, exists_const] at h
  obtain ⟨s₀, ⟨v, -, state, -, -, hs₀⟩, s₁, htake, s₂, hins, _, s₃, hwalk, s₄, hevent, rfl, rfl⟩ := h
  obtain rfl := hs₀.symm
  obtain ⟨hends, hadds⟩ := resolveAndRecord_adds _ _ _ hwalk
  have hrecordings : s₂.recordings env = s.recordings env := by
    rw [hins, htake]
    rfl
  have hentries : s₂.walkEntries env s.nextId depth root = s.walkEntries env s.nextId depth root := by
    rw [Tables.walkEntries, Tables.recordedFrom, hrecordings]
    rfl
  rw [hrecordings] at hends
  refine ⟨hends, ?_⟩
  have hall : s'.baselineEntries = s.baselineEntries ++ s.walkEntries env s.nextId depth root := by
    rw [hevent, hadds, hentries, hins, htake]
    rfl
  rw [hall, List.filter_append]
  -- the id is new, so the entries there were are of other baselines
  have hold : s.baselineEntries.filter (·.baselineId = s.nextId) = [] := by
    rw [List.filter_eq_nil_iff]
    intro e he hid
    rw [decide_eq_true_eq] at hid
    exact hfresh (hid ▸ s.valid.fk_entry_baseline e he)
  have hnew : (s.walkEntries env s.nextId depth root).filter (·.baselineId = s.nextId) =
      s.walkEntries env s.nextId depth root := by
    rw [List.filter_eq_self]
    intro e he
    obtain ⟨x, -, hx⟩ := List.mem_filterMap.mp he
    obtain ⟨key, -, rfl⟩ := Option.map_eq_some_iff.mp hx
    exact decide_eq_true rfl
  rw [hold, hnew, List.nil_append]

/-- The baseline of a frozen root is created when the walk comes to an end. -/
theorem createBaseline_returns (hfresh : s.nextId ∉ s.baselines.map (·.id))
    (hfrozen : Returns (assertNodeIsFrozen env root) s () s)
    (hends : EndsWithin (s.recordings env) Recording.below depth root) :
    ∃ s', Returns (createBaseline env ctx depth root name description) s s.nextId s' := by
  have hvalid : (s.takeId.insertBaseline ⟨s.nextId, name, description, ctx.now, ctx.userId⟩).Valid :=
    { s.valid.takeId with
      pk_baseline := by
        change ((s.baselines ++ [_]).map BaselineRow.id).Nodup
        rw [List.map_append, List.nodup_append]
        refine ⟨s.valid.pk_baseline, List.nodup_singleton _, fun a ha b hb hab => hfresh ?_⟩
        rw [hab, List.mem_singleton.mp hb] at ha
        exact ha
      fk_entry_baseline := by
        intro e he
        change e.baselineId ∈ (s.baselines ++ [_]).map BaselineRow.id
        rw [List.map_append]
        exact List.mem_append_left _ (s.valid.fk_entry_baseline e he) }
  have hin : s.nextId ∈ (s.takeId.insertBaseline
      ⟨s.nextId, name, description, ctx.now, ctx.userId⟩).baselines.map (·.id) :=
    List.mem_map.mpr ⟨_, List.mem_append_right _ (List.mem_singleton_self _), rfl⟩
  obtain ⟨s₃, hwalk⟩ := resolveAndRecord_returns (s := ⟨_, hvalid⟩) hin hends
  have hevent : (s₃.withEvents [.baselineCreated s.nextId name ctx.userId]).Valid :=
    s₃.valid.withEvents _
  refine ⟨⟨_, hevent⟩, ?_⟩
  unfold createBaseline
  refine returns_bind.mpr ⟨(), s, hfrozen, returns_bind.mpr ⟨s.nextId, ⟨_, s.valid.takeId⟩,
    returns_randomUUID.mpr ⟨rfl, rfl⟩, returns_bind.mpr ⟨(), ⟨_, hvalid⟩, returns_execute.mpr rfl, ?_⟩⟩⟩
  exact returns_bind.mpr ⟨(), s₃, hwalk, returns_bind.mpr ⟨(), ⟨_, hevent⟩, returns_enqueue.mpr rfl,
    returns_pure.mpr ⟨rfl, rfl⟩⟩⟩

/-- **A baseline shows the structure exactly when that is plain**, for a frozen root of an acyclic
structure. -/
theorem records_structure_iff (hfresh : s.nextId ∉ s.baselines.map (·.id))
    (hfrozen : Returns (assertNodeIsFrozen env root) s () s)
    (hacyclic : ∀ nodeId, ¬ TransGen (Below (s.due env) Recording.below) nodeId nodeId) :
    RecordsStructure env ctx s root name description ↔ PlainStructure env s root := by
  constructor
  · rintro ⟨enough, h⟩
    obtain ⟨baselineId, s', hr, hshown⟩ := h enough le_rfl
    obtain ⟨hends, hentries⟩ := createBaseline_entries hfresh hr
    rw [hentries] at hshown
    exact (hshown.walked hends).plain hends
  · intro hplain
    have hnodes : ∀ a b, Below (s.due env) Recording.below a b → a ∈ s.nodeIds.toFinset := by
      rintro a b ⟨e, he, -⟩
      obtain ⟨⟨-, hof⟩, -⟩ := mem_committedLinks.mp (link_of_due he).1
      simp only [Tables.isLinkOf, List.any_eq_true, decide_eq_true_eq] at hof
      obtain ⟨v, hv, -, rfl⟩ := hof
      exact List.mem_toFinset.mpr (s.valid.fk_version_node v hv)
    obtain ⟨enough, henough⟩ := exists_endsWithin hacyclic _ hnodes root
    refine ⟨enough, fun depth hdepth => ?_⟩
    have hends : EndsWithin (s.recordings env) Recording.below depth root :=
      (unfolding_congr fun p nodeId (hp : s.LeadsTo env root p nodeId) => hplain.recordings hp).2.mpr
        (henough.mono hdepth)
    obtain ⟨s', hr⟩ : ∃ s', Returns (createBaseline env ctx depth root name description) s s.nextId s' :=
      createBaseline_returns hfresh hfrozen hends
    refine ⟨s.nextId, s', hr, ?_⟩
    rw [(createBaseline_entries hfresh hr).2]
    exact hplain.shown hends

/-! ## Parts below parts -/

/-- What a link leads to is the node of a link, so a numbering that grows along links shows that the
structure is acyclic. -/
theorem acyclic_of_increasing (h : ∀ l ∈ s.links, ∀ v ∈ s.versions, v.id = l.sourceNodeVersionId →
    ∀ b ∈ (s.dueOf env l).below, v.nodeId < b) (nodeId : Uuid) :
    ¬ TransGen (Below (s.due env) Recording.below) nodeId nodeId := by
  have hstep : ∀ a b, Below (s.due env) Recording.below a b → a < b := by
    rintro a b ⟨e, he, hb⟩
    obtain ⟨hl, hdue⟩ := link_of_due he
    obtain ⟨⟨hlink, hof⟩, -⟩ := mem_committedLinks.mp hl
    simp only [Tables.isLinkOf, List.any_eq_true, decide_eq_true_eq] at hof
    obtain ⟨v, hv, hid, rfl⟩ := hof
    exact h _ hlink v hv hid b (hdue ▸ hb)
  have hless : ∀ b, TransGen (Below (s.due env) Recording.below) nodeId b → nodeId < b := by
    intro b hb
    induction hb with
    | single hab => exact hstep _ _ hab
    | tail _ hbc ih => exact lt_trans ih (hstep _ _ hbc)
  exact fun hcycle => lt_irrefl nodeId (hless nodeId hcycle)

/-- The configuration in which a released part is frozen. -/
def frozenEnv : Env := { partsEnv with isTrue := fun _ stateId key => stateId = "released" ∧ key = "frozen" }

/-- A part. -/
def partRow (id : Uuid) (logicalId : String) : NodeRow :=
  ⟨id, "nt-part", none, some logicalId, none, none, none, 0, "engineer"⟩

/-- The released version of the part with its number. -/
def releasedVersion (id : Uuid) : VersionRow :=
  ⟨id, id, 1, "A", 1, some "released", .CONTENT, none, 0, none, none, none, "main", 0, "engineer"⟩

/-- A link from a part to the key. -/
def partLinkRow (id source : Uuid) (key : String) : LinkRow :=
  ⟨id, "lt-composed-of", source, "SELF", "nt-part", key, some key, 0, "engineer"⟩

/-- Five released parts with links. -/
def releasedParts (links : List LinkRow) : Tables where
  txs := [⟨0, "engineer", .COMMITTED, some "released", 0, some 0⟩]
  nodes := [partRow 0 "A", partRow 1 "B", partRow 2 "C", partRow 3 "D", partRow 4 "E"]
  versions := [releasedVersion 0, releasedVersion 1, releasedVersion 2, releasedVersion 3, releasedVersion 4]
  attributes := []
  links := links
  linkAttributes := []
  domains := []
  signatures := []
  baselines := []
  baselineEntries := []
  comments := []
  outbox := []
  nextId := 20

/-- `A` has `B`, which has the first version of `C`. -/
def chainDb : Db := ⟨releasedParts [partLinkRow 10 0 "B", partLinkRow 11 1 "C@1"], by decide⟩

/-- `A` has `B` and `C`, which share `D`, which has `E`. -/
def sharedDb : Db :=
  ⟨releasedParts [partLinkRow 10 0 "B", partLinkRow 11 0 "C", partLinkRow 12 1 "D", partLinkRow 13 2 "D",
    partLinkRow 14 3 "E"], by decide⟩

/-- The root of these structures is frozen. -/
theorem assertNodeIsFrozen_returns {s : Db}
    (h : passes (assertNodeIsFrozen frozenEnv 0) s (fun _ _ => true) = true) :
    Returns (assertNodeIsFrozen frozenEnv 0) s () s := by
  obtain ⟨⟨⟩, s', hr, -⟩ := returns_of_passes h
  simp only [assertNodeIsFrozen, returns_bind, returns_query, returns_orElseThrow, returns_require,
    and_assoc, exists_and_left, exists_eq_left] at hr ⊢
  obtain ⟨v, hv, state, hstate, hfrozen, -⟩ := hr
  exact ⟨v, hv, state, hstate, hfrozen, trivial⟩

/-- The chain is plain, so its baseline shows it. -/
theorem records_structure_chain : RecordsStructure frozenEnv engineer chainDb 0 "BL" none := by
  have hfrozen : Returns (assertNodeIsFrozen frozenEnv 0) chainDb () chainDb :=
    assertNodeIsFrozen_returns (by decide +kernel)
  refine (records_structure_iff (by decide) hfrozen (acyclic_of_increasing (by decide +kernel))).mpr ?_
  have hlinks : ∀ nodeId, ∀ l ∈ chainDb.committedLinks nodeId, l ∈ chainDb.links :=
    fun nodeId l hl => (mem_committedLinks.mp hl).1.1
  constructor
  · intro p nodeId _ l hl
    have hall : ∀ l ∈ chainDb.links, l.isUnpinned = true →
        (frozenEnv.getLinkType l.linkTypeId).bind (·.linkPolicy) = some "VERSION_TO_MASTER" ∧
          ∃ n ∈ chainDb.nodes, chainDb.targetOf frozenEnv l = some n ∧ n.nodeTypeId = l.targetType ∧
            chainDb.getLastCommittedVersion n.id ≠ none := by decide +kernel
    intro hunpinned
    obtain ⟨hpolicy, n, -, hn, hrest⟩ := hall l (hlinks nodeId l hl) hunpinned
    exact ⟨hpolicy, n, hn, hrest⟩
  · intro p nodeId _ l hl _ _
    have hall : ∀ l ∈ chainDb.links, (chainDb.joinedTargets l).length ≤ 1 := by decide +kernel
    exact hall l (hlinks nodeId l hl)
  · intro p nodeId _ l hl hof hopen
    have hall : ∀ v ∈ chainDb.versions, chainDb.isCommitted v.txId = true := by decide +kernel
    simp only [Tables.isLinkOf, Tables.isCommittedLinkOf, List.any_eq_true, List.any_eq_false,
      decide_eq_true_eq] at hof hopen
    obtain ⟨v, hv, hid, hnode⟩ := hof
    exact absurd ⟨hid, hnode, hall v hv⟩ (hopen v hv)
  · intro p q nodeId hp hq _
    -- below the root there is one link that leads on, and below its target none
    have hroot : ∀ e ∈ chainDb.due frozenEnv 0, e = chainDb.dueOf frozenEnv (partLinkRow 10 0 "B") ∧
        e.below = some 1 := by decide +kernel
    have hsecond : ∀ e ∈ chainDb.due frozenEnv 1, e.below = none := by decide +kernel
    have hend : ∀ p c, chainDb.LeadsTo frozenEnv 1 p c → p = [] ∧ c = 1 := by
      intro p c hp
      cases hp with
      | refl => exact ⟨rfl, rfl⟩
      | cons he hnext _ =>
        rw [hsecond _ he] at hnext
        cases hnext
    have htrails : ∀ p c, chainDb.LeadsTo frozenEnv 0 p c → (p = [] ∧ c = 0) ∨
        (p = [chainDb.dueOf frozenEnv (partLinkRow 10 0 "B")] ∧ c = 1) := by
      intro p c hp
      cases hp with
      | refl => exact .inl ⟨rfl, rfl⟩
      | cons he hnext h =>
        obtain ⟨rfl, hbelow⟩ := hroot _ he
        rw [hbelow] at hnext
        obtain rfl := Option.some.inj hnext
        obtain ⟨rfl, rfl⟩ := hend _ _ h
        exact .inr ⟨rfl, rfl⟩
    obtain ⟨hp, hc⟩ | ⟨hp, hc⟩ := htrails p nodeId hp
    · obtain ⟨hq, -⟩ | ⟨-, hd⟩ := htrails q nodeId hq
      · rw [hp, hq]
      · rw [hc] at hd
        cases hd
    · obtain ⟨-, hd⟩ | ⟨hq, -⟩ := htrails q nodeId hq
      · rw [hc] at hd
        cases hd
      · rw [hp, hq]

/-- **A shared part is recorded twice**: the walk comes to the link below it by two trails. -/
theorem shared_part_recorded_twice : sharedDb.nextId ∉ sharedDb.baselines.map (·.id)
    ∧ Returns (assertNodeIsFrozen frozenEnv 0) sharedDb () sharedDb
    ∧ (∀ nodeId, ¬ TransGen (Below (sharedDb.due frozenEnv) Recording.below) nodeId nodeId)
    ∧ ¬ RecordsStructure frozenEnv engineer sharedDb 0 "BL" none := by
  refine ⟨by decide, assertNodeIsFrozen_returns (by decide +kernel), acyclic_of_increasing (by decide +kernel),
    ?_⟩
  rintro ⟨enough, h⟩
  obtain ⟨baselineId, s', hr, hshown⟩ := h enough le_rfl
  obtain ⟨hends, hentries⟩ := createBaseline_entries (by decide) hr
  rw [hentries] at hshown
  have hplain := (hshown.walked hends).plain hends
  have htrail : ∀ l m b, sharedDb.dueOf frozenEnv l ∈ sharedDb.due frozenEnv 0 →
      (sharedDb.dueOf frozenEnv l).below = some b → sharedDb.dueOf frozenEnv m ∈ sharedDb.due frozenEnv b →
        (sharedDb.dueOf frozenEnv m).below = some 3 →
          sharedDb.LeadsTo frozenEnv 0 [sharedDb.dueOf frozenEnv l, sharedDb.dueOf frozenEnv m] 3 :=
    fun l m b hl hb hm h3 => .cons hl hb (.cons hm h3 (.refl 3))
  have htwo := hplain.oneTrail _ _ 3
    (htrail (partLinkRow 10 0 "B") (partLinkRow 12 1 "D") 1 (by decide +kernel) (by decide +kernel)
      (by decide +kernel) (by decide +kernel))
    (htrail (partLinkRow 11 0 "C") (partLinkRow 13 2 "D") 2 (by decide +kernel) (by decide +kernel)
      (by decide +kernel) (by decide +kernel)) (by decide +kernel)
  have hlink := congrArg Recording.link (List.cons.inj htwo).1
  rw [dueOf_link, dueOf_link] at hlink
  revert hlink
  decide

end PlmCore.Psm
