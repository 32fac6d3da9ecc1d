/-
`LifecycleService.duplicateLifecycle`: a lifecycle under a new code.

The states are copied with their metadata and the transitions with their ends, each under the new code
and the code of its name. Guards, signature requirements and state actions stay with the old lifecycle,
so the copy is isomorphic to its source exactly when the source has none of them, and no metadata is
left from an earlier state under a new code.
-/
import PlmCore.Lib.JavaText
import PlmCore.Lib.Rows
import PlmCore.Psa.Schema

set_option autoImplicit false

namespace PlmCore.Psa

open PlmCore.Lib

/-! ## Codes -/

/-- `[a-z0-9]`. -/
def isCodeChar (c : Char) : Bool := ('a' ≤ c && c ≤ 'z') || ('0' ≤ c && c ≤ '9')

/-- `String.toLowerCase` of one character. Only two letters outside ASCII have an ASCII letter in their
lower case; `toCode` replaces the others, so they stay as they are. -/
def lowerCase (c : Char) : List Char :=
  if c = '\u212a' then ['k'] else if c = '\u0130' then ['i', '\u0307'] else [c.toLower]

/-- `replaceAll("[^a-z0-9]+", "-")`, which tells whether the last character was in such a run. -/
def dashRuns : Bool → List Char → List Char
  | _, [] => []
  | inRun, c :: cs =>
    if isCodeChar c then c :: dashRuns false cs
    else if inRun then dashRuns true cs else '-' :: dashRuns true cs

/-- `replaceAll("^-+|-+$", "")`. -/
def stripDashes (cs : List Char) : List Char :=
  ((cs.dropWhile (· = '-')).reverse.dropWhile (· = '-')).reverse

/-- `toCode`. -/
def toCode : Option String → String
  | none => "item"
  | some name => String.ofList (stripDashes (dashRuns false ((trim name).toList.flatMap lowerCase)))

example : toCode (some " In Work (draft)! ") = "in-work-draft" := by decide

/-! ## Metadata -/

/-- The unique key of `entity_metadata`. -/
def EntityMetadataRow.key (m : EntityMetadataRow) : String × String × String :=
  (m.targetType, m.targetId, m.metaKey)

/-- `MetadataService.getMetadata`. -/
def Tables.getMetadata (t : Tables) (targetType targetId : String) : List (String × Option String) :=
  (t.metadataRows targetType targetId).map fun m => (m.metaKey, m.metaValue)

/-- `MetadataService.set`. -/
def setMetadata (targetType targetId key : String) (value : Option String) : PsaTxn Unit := do
  let row : EntityMetadataRow := ⟨targetType, targetId, key, value⟩
  let existing ← query fun s => s.entityMetadata.any (·.key = row.key)
  if existing then
    execute fun t => { t with entityMetadata := t.entityMetadata.map fun m =>
      if m.key = row.key then { m with metaValue := value } else m }
  else execute fun t => { t with entityMetadata := t.entityMetadata ++ [row] }

/-- `MetadataService.setAll`. -/
def setAllMetadata (targetType targetId : String) (metadata : List (String × Option String)) :
    PsaTxn Unit :=
  metadata.forM fun entry => setMetadata targetType targetId entry.1 entry.2

/-! ## The copy -/

/-- `LIFECYCLE_STATE`. -/
def lifecycleState : String := "LIFECYCLE_STATE"

/-- The id of the copy of a state or a transition. -/
def newId (newCode name : String) : String := newCode ++ "-" ++ toCode (some name)

/-- The row that is inserted for a state. -/
def LifecycleStateRow.copy (newCode : String) (s : LifecycleStateRow) : LifecycleStateRow :=
  { s with id := newId newCode s.name, lifecycleId := newCode }

/-- One round of the loop over the states. -/
def copyState (newCode : String) (s : LifecycleStateRow) : PsaTxn Unit := do
  execute fun t => { t with states := t.states ++ [s.copy newCode] }
  let metadata ← query (·.getMetadata lifecycleState s.id)
  setAllMetadata lifecycleState (s.copy newCode).id metadata

/-- `stateMap.get`, of the map the loop over the states fills. -/
def stateMap (newCode : String) (srcStates : List LifecycleStateRow) (oldId : String) : Option String :=
  (srcStates.find? (·.id = oldId)).map fun s => (s.copy newCode).id

/-- The row that is inserted for a transition between two states. -/
def LifecycleTransitionRow.copy (newCode fromStateId toStateId : String) (r : LifecycleTransitionRow) :
    LifecycleTransitionRow :=
  { r with id := newId newCode r.name, lifecycleId := newCode, fromStateId, toStateId }

/-- One round of the loop over the transitions. A state that is not in the map is null there, which
`from_state_id` and `to_state_id` refuse. -/
def copyTransition (newCode : String) (stateMap : String → Option String)
    (r : LifecycleTransitionRow) : PsaTxn Unit := do
  let fromStateId ← orElseThrow (stateMap r.fromStateId) .dataIntegrity
  let toStateId ← orElseThrow (stateMap r.toStateId) .dataIntegrity
  execute fun t => { t with transitions := t.transitions ++ [r.copy newCode fromStateId toStateId] }

/-- `duplicateLifecycle`. -/
def duplicateLifecycle (o : FetchOrder LifecycleStateRow.displayOrder) (sourceId : String)
    (newCode newName : Option String) : PsaTxn String := do
  let newCode ← validateCode newCode
  let src ← query fun s => s.lifecycles.find? (·.id = sourceId)
  let src ← orElseThrow src (.illegalArgument ("Source lifecycle not found: " ++ sourceId))
  let newName ← orElseThrow newName .dataIntegrity
  execute fun t => { t with lifecycles := t.lifecycles ++ [⟨newCode, newName, src.description⟩] }
  let srcStates ← query fun s => o.order (s.statesOf sourceId)
  srcStates.forM (copyState newCode)
  let srcTransitions ← query (·.transitionsOf sourceId)
  srcTransitions.forM (copyTransition newCode (stateMap newCode srcStates))
  pure newCode

/-! ## What a copy is -/

/-- `l'` is a copy of `l` along renamings of the states and of the transitions, and `t'` has it beside
what `t` has. -/
structure IsomorphicCopy (t t' : Tables) (l l' : String) (f g : String → String) : Prop where
  fresh : l' ∉ t.lifecycleIds
  stored : l' ∈ t'.lifecycleIds
  states : (t'.statesOf l').Perm
    ((t.statesOf l).map fun s => { s with id := f s.id, lifecycleId := l' })
  transitions : (t'.transitionsOf l').Perm ((t.transitionsOf l).map fun r =>
    { r with id := g r.id, lifecycleId := l', fromStateId := f r.fromStateId,
              toStateId := f r.toStateId })
  states_inj : ∀ s ∈ t.statesOf l, ∀ s' ∈ t.statesOf l, f s.id = f s'.id → s = s'
  transitions_inj : ∀ r ∈ t.transitionsOf l, ∀ r' ∈ t.transitionsOf l, g r.id = g r'.id → r = r'
  states_fresh : ∀ s ∈ t.statesOf l, f s.id ∉ t.stateIds
  transitions_fresh : ∀ r ∈ t.transitionsOf l, g r.id ∉ t.transitionIds
  ends : ∀ r ∈ t'.transitionsOf l', (∃ s ∈ t'.statesOf l', s.id = r.fromStateId) ∧
    ∃ s ∈ t'.statesOf l', s.id = r.toStateId
  metadata : ∀ s ∈ t.statesOf l, ∀ e,
    e ∈ t'.getMetadata lifecycleState (f s.id) ↔ e ∈ t.getMetadata lifecycleState s.id
  stateActions : ∀ s ∈ t.statesOf l, (t'.stateActionsOf (f s.id)).Perm
    ((t.stateActionsOf s.id).map fun a => { a with lifecycleStateId := f s.id })
  guards : ∀ r ∈ t.transitionsOf l, (t'.guardsOf (g r.id)).Perm
    ((t.guardsOf r.id).map fun a => { a with lifecycleTransitionId := g r.id })
  signatureRequirements : ∀ r ∈ t.transitionsOf l, (t'.signatureRequirementsOf (g r.id)).Perm
    ((t.signatureRequirementsOf r.id).map fun a => { a with lifecycleTransitionId := g r.id })
  others : t'.states.filter (·.lifecycleId ≠ l') = t.states ∧
    t'.transitions.filter (·.lifecycleId ≠ l') = t.transitions

/-! ## What the statements need -/

section Statements

variable {t : Tables} {s s' : Db} {u : Unit}

theorem nodup_concat_iff {α : Type} {l : List α} {x : α} : (l ++ [x]).Nodup ↔ l.Nodup ∧ x ∉ l := by
  rw [List.nodup_append_comm, List.singleton_append, List.nodup_cons, and_comm]

theorem nodup_map_concat_iff {α β : Type} {key : α → β} {rows : List α} {x : α} :
    ((rows ++ [x]).map key).Nodup ↔ (rows.map key).Nodup ∧ key x ∉ rows.map key := by
  rw [List.map_append, List.map_singleton, nodup_concat_iff]

theorem valid_insertLifecycle {row : LifecycleRow} (h : t.Valid) :
    ({ t with lifecycles := t.lifecycles ++ [row] } : Tables).Valid ↔
      row.id ∉ t.lifecycleIds ∧ row.id.length ≤ 36 ∧ row.name.length ≤ 255 := by
  constructor
  · intro h'
    have hlast := h'.lifecycle row (List.mem_append_right _ List.mem_cons_self)
    exact ⟨(nodup_map_concat_iff.mp h'.pk_lifecycle).2, hlast.1, hlast.2⟩
  · rintro ⟨hid, hlen⟩
    have hmore := ((List.sublist_append_left t.lifecycles [row]).map (·.id)).subset
    exact { h with
      pk_lifecycle := nodup_map_concat_iff.mpr ⟨h.pk_lifecycle, hid⟩
      fk_state := fun r hr => hmore (h.fk_state r hr)
      fk_transition := fun r hr => hmore (h.fk_transition r hr)
      fk_node_type_lifecycle := fun n hn l hl => hmore (h.fk_node_type_lifecycle n hn l hl)
      lifecycle := List.forall_mem_append.mpr ⟨h.lifecycle, List.forall_mem_singleton.mpr hlen⟩ }

theorem valid_insertStates (h : t.Valid) (new : List LifecycleStateRow) :
    ({ t with states := t.states ++ new } : Tables).Valid ↔
      (t.stateIds ++ new.map (·.id)).Nodup ∧
        (t.states.map (fun s => (s.lifecycleId, s.name)) ++ new.map fun s => (s.lifecycleId, s.name)).Nodup ∧
        ∀ r ∈ new, r.lifecycleId ∈ t.lifecycleIds ∧ r.id.length ≤ 36 := by
  rw [Tables.stateIds, ← List.map_append, ← List.map_append]
  constructor
  · intro h'
    refine ⟨h'.pk_state, h'.uq_state_name, fun r hr => ?_⟩
    have hlast : r ∈ t.states ++ new := List.mem_append_right _ hr
    exact ⟨h'.fk_state r hlast, h'.state r hlast⟩
  · rintro ⟨hids, hnames, hnew⟩
    have hmore := ((List.sublist_append_left t.states new).map (·.id)).subset
    exact { h with
      pk_state := hids
      uq_state_name := hnames
      fk_transition_from := fun r hr => hmore (h.fk_transition_from r hr)
      fk_transition_to := fun r hr => hmore (h.fk_transition_to r hr)
      fk_state_action := fun a ha => hmore (h.fk_state_action a ha)
      fk_state := List.forall_mem_append.mpr ⟨h.fk_state, fun r hr => (hnew r hr).1⟩
      state := List.forall_mem_append.mpr ⟨h.state, fun r hr => (hnew r hr).2⟩ }

theorem valid_insertTransitions (h : t.Valid) (new : List LifecycleTransitionRow) :
    ({ t with transitions := t.transitions ++ new } : Tables).Valid ↔
      (t.transitionIds ++ new.map (·.id)).Nodup ∧
        (t.transitions.map (fun r => (r.lifecycleId, r.name)) ++
          new.map fun r => (r.lifecycleId, r.name)).Nodup ∧
        ∀ r ∈ new, r.lifecycleId ∈ t.lifecycleIds ∧ r.fromStateId ∈ t.stateIds ∧
          r.toStateId ∈ t.stateIds ∧ r.id.length ≤ 36 := by
  rw [Tables.transitionIds, ← List.map_append, ← List.map_append]
  constructor
  · intro h'
    refine ⟨h'.pk_transition, h'.uq_transition_name, fun r hr => ?_⟩
    have hlast : r ∈ t.transitions ++ new := List.mem_append_right _ hr
    exact ⟨h'.fk_transition r hlast, h'.fk_transition_from r hlast, h'.fk_transition_to r hlast,
      h'.transition r hlast⟩
  · rintro ⟨hids, hnames, hnew⟩
    have hmore := ((List.sublist_append_left t.transitions new).map (·.id)).subset
    exact { h with
      pk_transition := hids
      uq_transition_name := hnames
      fk_signature_requirement := fun q hq => hmore (h.fk_signature_requirement q hq)
      fk_transition_guard := fun q hq => hmore (h.fk_transition_guard q hq)
      fk_transition := List.forall_mem_append.mpr ⟨h.fk_transition, fun r hr => (hnew r hr).1⟩
      fk_transition_from :=
        List.forall_mem_append.mpr ⟨h.fk_transition_from, fun r hr => (hnew r hr).2.1⟩
      fk_transition_to := List.forall_mem_append.mpr ⟨h.fk_transition_to, fun r hr => (hnew r hr).2.2.1⟩
      transition := List.forall_mem_append.mpr ⟨h.transition, fun r hr => (hnew r hr).2.2.2⟩ }

theorem valid_writeMetadata (h : t.Valid) (rows : List EntityMetadataRow) :
    ({ t with entityMetadata := upsertAll EntityMetadataRow.key t.entityMetadata rows } : Tables).Valid :=
  { h with uq_entity_metadata := nodup_map_upsertAll h.uq_entity_metadata }

/-- An update of the value under a key, or an insertion. -/
theorem upsert_metadata (row : EntityMetadataRow) (rows : List EntityMetadataRow) :
    upsert EntityMetadataRow.key row rows =
      if rows.any (·.key = row.key) then
        rows.map fun m => if m.key = row.key then { m with metaValue := row.metaValue } else m
      else rows ++ [row] := by
  have hupdate : ∀ m : EntityMetadataRow, m.key = row.key → { m with metaValue := row.metaValue } = row := by
    intro m hm
    obtain ⟨htype, hid, hkey⟩ : m.targetType = row.targetType ∧ m.targetId = row.targetId
        ∧ m.metaKey = row.metaKey := by simpa [EntityMetadataRow.key] using hm
    rw [htype, hid, hkey]
  have hany : rows.any (·.key = row.key) = true ↔ row.key ∈ rows.map EntityMetadataRow.key := by
    simp
  rw [upsert]
  by_cases h : row.key ∈ rows.map EntityMetadataRow.key
  · rw [if_pos h, if_pos (hany.mpr h)]
    refine List.map_congr_left fun m _ => ?_
    by_cases hm : m.key = row.key
    · rw [if_pos hm, if_pos hm, hupdate m hm]
    · rw [if_neg hm, if_neg hm]
  · rw [if_neg h, if_neg (mt hany.mp h)]

theorem returns_setMetadata {targetType targetId key : String} {value : Option String} :
    Returns (setMetadata targetType targetId key value) s u s' ↔ s'.toTables =
      { s.toTables with entityMetadata := upsert EntityMetadataRow.key ⟨targetType, targetId, key, value⟩
                          s.entityMetadata } := by
  simp only [setMetadata, returns_bind, returns_query, returns_ite, returns_execute, upsert_metadata]
  constructor
  · rintro ⟨_, _, ⟨rfl, rfl⟩, ⟨hany, h⟩ | ⟨hany, h⟩⟩
    · rw [h, if_pos hany]
    · rw [h, if_neg hany]
  · intro h
    refine ⟨_, s, ⟨rfl, rfl⟩, ?_⟩
    by_cases hany : s.entityMetadata.any fun m =>
        m.key = (EntityMetadataRow.mk targetType targetId key value).key
    · rw [if_pos hany] at h
      exact .inl ⟨hany, h⟩
    · rw [if_neg hany] at h
      exact .inr ⟨hany, h⟩

theorem returns_setAllMetadata {targetType targetId : String}
    {metadata : List (String × Option String)} :
    Returns (setAllMetadata targetType targetId metadata) s u s' ↔ s'.toTables =
      { s.toTables with entityMetadata := upsertAll EntityMetadataRow.key s.entityMetadata
                          (metadata.map fun e => ⟨targetType, targetId, e.1, e.2⟩) } := by
  rw [setAllMetadata]
  induction metadata generalizing s with
  | nil =>
    rw [returns_forM_nil]
    exact ⟨congrArg _, Db.ext⟩
  | cons e metadata ih =>
    rw [returns_forM_cons]
    constructor
    · rintro ⟨s₁, h₁, h₂⟩
      rw [ih.mp h₂, returns_setMetadata.mp h₁]
      rfl
    · intro h
      refine ⟨⟨_, valid_writeMetadata s.valid [⟨targetType, targetId, e.1, e.2⟩]⟩,
        returns_setMetadata.mpr rfl, ih.mpr ?_⟩
      exact h

/-! ## The loops -/

/-- The metadata of the copy of a state. -/
def copiedMetadata (t : Tables) (newCode : String) (r : LifecycleStateRow) : List EntityMetadataRow :=
  (t.getMetadata lifecycleState r.id).map fun e => ⟨lifecycleState, (r.copy newCode).id, e.1, e.2⟩

/-- The tables with copies of states. -/
def Tables.withStates (t : Tables) (newCode : String) (rows : List LifecycleStateRow) : Tables :=
  { t with
    states := t.states ++ rows.map (·.copy newCode)
    entityMetadata := upsertAll EntityMetadataRow.key t.entityMetadata
      (rows.flatMap (copiedMetadata t newCode)) }

variable {newCode : String}

/-- The metadata of a state is not touched when copies under other ids are written. -/
theorem getMetadata_withStates {rows : List LifecycleStateRow} {id : String}
    (h : ∀ r ∈ rows, newId newCode r.name ≠ id) :
    (t.withStates newCode rows).getMetadata lifecycleState id = t.getMetadata lifecycleState id := by
  unfold Tables.getMetadata Tables.metadataRows
  congr 1
  apply filter_upsertAll_of_not
  intro m hm y hy
  obtain ⟨r, hr, hcopy⟩ := List.mem_flatMap.mp hm
  obtain ⟨e, -, rfl⟩ := List.mem_map.mp hcopy
  have hid : y.targetId = newId newCode r.name := congrArg (·.2.1) hy
  have hne := h r hr
  simp [hid, hne]

theorem withStates_cons {r : LifecycleStateRow} {rows : List LifecycleStateRow}
    (h : ∀ x ∈ rows, newId newCode r.name ≠ x.id) :
    (t.withStates newCode [r]).withStates newCode rows = t.withStates newCode (r :: rows) := by
  have hsame : rows.flatMap (copiedMetadata (t.withStates newCode [r]) newCode) =
      rows.flatMap (copiedMetadata t newCode) := by
    refine List.flatMap_congr fun x hx => ?_
    rw [copiedMetadata, getMetadata_withStates, copiedMetadata]
    intro y hy
    obtain rfl := List.mem_singleton.mp hy
    exact h x hx
  rw [Tables.withStates, hsame]
  simp [Tables.withStates, upsertAll, List.foldl_append]

theorem valid_withStates_iff {rows : List LifecycleStateRow} (h : t.Valid) :
    (t.withStates newCode rows).Valid ↔
      (t.stateIds ++ rows.map fun r => newId newCode r.name).Nodup ∧
        (t.states.map (fun s => (s.lifecycleId, s.name)) ++ rows.map fun r => (newCode, r.name)).Nodup ∧
        ∀ r ∈ rows, newCode ∈ t.lifecycleIds ∧ (newId newCode r.name).length ≤ 36 := by
  have hinsert := valid_insertStates h (rows.map (·.copy newCode))
  rw [List.map_map, List.map_map, List.forall_mem_map] at hinsert
  refine Iff.trans ⟨fun h' => ?_, fun h' => ?_⟩ hinsert
  · exact { h' with uq_entity_metadata := h.uq_entity_metadata }
  · exact valid_writeMetadata h' _

/-- The first of several copies is valid where all are. -/
theorem valid_withStates_first {r : LifecycleStateRow} {rows : List LifecycleStateRow} (h : t.Valid)
    (hall : (t.withStates newCode (r :: rows)).Valid) : (t.withStates newCode [r]).Valid := by
  obtain ⟨hids, hnames, hrows⟩ := (valid_withStates_iff h).mp hall
  rw [List.map_cons, List.append_cons] at hids hnames
  rw [List.forall_mem_cons] at hrows
  exact (valid_withStates_iff h).mpr ⟨hids.of_append_left, hnames.of_append_left,
    List.forall_mem_singleton.mpr hrows.1⟩

theorem returns_copyState {r : LifecycleStateRow} :
    Returns (copyState newCode r) s u s' ↔ s'.toTables = s.withStates newCode [r] := by
  simp only [copyState, returns_bind, returns_execute, returns_query, returns_setAllMetadata]
  rw [Tables.withStates, List.flatMap_singleton]
  constructor
  · rintro ⟨_, s₁, h₁, _, s₂, ⟨rfl, hs₂⟩, h₂⟩
    rw [h₂, hs₂, h₁]
    rfl
  · intro h
    -- the row alone is valid where it is valid with its metadata
    have hall := s'.valid
    rw [h] at hall
    have hvalid : ({ s.toTables with states := s.states ++ [r.copy newCode] } : Tables).Valid :=
      { hall with uq_entity_metadata := s.valid.uq_entity_metadata }
    exact ⟨(), ⟨_, hvalid⟩, rfl, _, _, ⟨rfl, rfl⟩, h⟩

/-- **The loop over the states** writes all copies. -/
theorem returns_copyStates {rows : List LifecycleStateRow} (hold : ∀ r ∈ rows, r.id ∈ s.stateIds) :
    Returns (rows.forM (copyState newCode)) s u s' ↔ s'.toTables = s.withStates newCode rows := by
  induction rows generalizing s with
  | nil =>
    rw [returns_forM_nil]
    simp only [Tables.withStates, upsertAll, List.map_nil, List.flatMap_nil, List.foldl_nil,
      List.append_nil]
    exact ⟨congrArg _, Db.ext⟩
  | cons r rows ih =>
    have hrows : ∀ x ∈ rows, x.id ∈ s.stateIds := fun x hx => hold x (List.mem_cons_of_mem r hx)
    -- the rest of the loop, after the first round
    have hrest : ∀ s₁ : Db, s₁.toTables = s.withStates newCode [r] →
        (Returns (rows.forM (copyState newCode)) s₁ ⟨⟩ s' ↔
          s'.toTables = s.withStates newCode (r :: rows)) := by
      intro s₁ h₁
      have hnew : newId newCode r.name ∉ s.stateIds :=
        (nodup_concat_iff.mp ((valid_withStates_iff s.valid).mp (h₁ ▸ s₁.valid)).1).2
      rw [ih, h₁, withStates_cons]
      · intro x hx heq
        exact hnew (heq ▸ hrows x hx)
      · intro x hx
        rw [h₁, Tables.stateIds, Tables.withStates, List.map_append]
        exact List.mem_append_left _ (hrows x hx)
    rw [returns_forM_cons]
    constructor
    · rintro ⟨s₁, h₁, h₂⟩
      exact (hrest s₁ (returns_copyState.mp h₁)).mp h₂
    · intro h
      have hvalid := valid_withStates_first s.valid (h ▸ s'.valid)
      exact ⟨⟨_, hvalid⟩, returns_copyState.mpr rfl, (hrest _ rfl).mpr h⟩

/-- The tables with copies of transitions, between the states that `f` gives. -/
def Tables.withTransitions (t : Tables) (newCode : String) (f : String → String)
    (rows : List LifecycleTransitionRow) : Tables :=
  { t with transitions := t.transitions ++
      rows.map fun r => r.copy newCode (f r.fromStateId) (f r.toStateId) }

theorem valid_withTransitions_iff {f : String → String} {rows : List LifecycleTransitionRow}
    (h : t.Valid) :
    (t.withTransitions newCode f rows).Valid ↔
      (t.transitionIds ++ rows.map fun r => newId newCode r.name).Nodup ∧
        (t.transitions.map (fun r => (r.lifecycleId, r.name)) ++ rows.map fun r => (newCode, r.name)).Nodup ∧
        ∀ r ∈ rows, newCode ∈ t.lifecycleIds ∧ f r.fromStateId ∈ t.stateIds ∧
          f r.toStateId ∈ t.stateIds ∧ (newId newCode r.name).length ≤ 36 := by
  have hinsert := valid_insertTransitions h
    (rows.map fun r => r.copy newCode (f r.fromStateId) (f r.toStateId))
  rw [List.map_map, List.map_map, List.forall_mem_map] at hinsert
  exact hinsert

theorem valid_withTransitions_first {f : String → String} {r : LifecycleTransitionRow}
    {rows : List LifecycleTransitionRow} (h : t.Valid)
    (hall : (t.withTransitions newCode f (r :: rows)).Valid) :
    (t.withTransitions newCode f [r]).Valid := by
  obtain ⟨hids, hnames, hrows⟩ := (valid_withTransitions_iff h).mp hall
  rw [List.map_cons, List.append_cons] at hids hnames
  rw [List.forall_mem_cons] at hrows
  exact (valid_withTransitions_iff h).mpr ⟨hids.of_append_left, hnames.of_append_left,
    List.forall_mem_singleton.mpr hrows.1⟩

variable {m : String → Option String}

theorem returns_copyTransition {r : LifecycleTransitionRow} :
    Returns (copyTransition newCode m r) s u s' ↔
      ((m r.fromStateId).isSome ∧ (m r.toStateId).isSome) ∧
        s'.toTables = s.withTransitions newCode (fun id => (m id).getD id) [r] := by
  simp only [copyTransition, returns_bind, returns_orElseThrow, returns_execute, Option.isSome_iff_exists]
  constructor
  · rintro ⟨fromId, s₁, ⟨hfrom, hs₁⟩, toId, s₂, ⟨hto, hs₂⟩, h⟩
    refine ⟨⟨⟨fromId, hfrom⟩, ⟨toId, hto⟩⟩, ?_⟩
    rw [h, hs₂, hs₁, Tables.withTransitions, List.map_singleton, hfrom, hto]
    rfl
  · rintro ⟨⟨⟨fromId, hfrom⟩, ⟨toId, hto⟩⟩, h⟩
    refine ⟨fromId, s, ⟨hfrom, rfl⟩, toId, s, ⟨hto, rfl⟩, ?_⟩
    rw [h, Tables.withTransitions, List.map_singleton, hfrom, hto]
    rfl

/-- **The loop over the transitions** writes all copies, where both ends of each are in the map. -/
theorem returns_copyTransitions {rows : List LifecycleTransitionRow} :
    Returns (rows.forM (copyTransition newCode m)) s u s' ↔
      (∀ r ∈ rows, (m r.fromStateId).isSome ∧ (m r.toStateId).isSome) ∧
        s'.toTables = s.withTransitions newCode (fun id => (m id).getD id) rows := by
  induction rows generalizing s with
  | nil =>
    rw [returns_forM_nil]
    simp only [Tables.withTransitions, List.map_nil, List.append_nil]
    exact ⟨fun h => ⟨nofun, congrArg _ h⟩, fun h => Db.ext h.2⟩
  | cons r rows ih =>
    have htables : ∀ s₁ : Db, s₁.toTables = s.withTransitions newCode (fun id => (m id).getD id) [r] →
        s₁.withTransitions newCode (fun id => (m id).getD id) rows =
          s.withTransitions newCode (fun id => (m id).getD id) (r :: rows) := by
      intro s₁ h₁
      rw [h₁]
      simp [Tables.withTransitions]
    rw [returns_forM_cons, List.forall_mem_cons]
    constructor
    · rintro ⟨s₁, h₁, h₂⟩
      obtain ⟨hends, h₁⟩ := returns_copyTransition.mp h₁
      obtain ⟨hrest, h₂⟩ := ih.mp h₂
      exact ⟨⟨hends, hrest⟩, h₂.trans (htables s₁ h₁)⟩
    · rintro ⟨⟨hends, hrest⟩, h⟩
      have hvalid := valid_withTransitions_first s.valid (h ▸ s'.valid)
      exact ⟨⟨_, hvalid⟩, returns_copyTransition.mpr ⟨hends, rfl⟩,
        ih.mpr ⟨hrest, h.trans (htables _ rfl).symm⟩⟩

/-! ## The whole copy -/

/-- The name a state is given in the copy of its lifecycle. -/
def renamed (o : FetchOrder LifecycleStateRow.displayOrder) (t : Tables) (l newCode id : String) : String :=
  (stateMap newCode (o.order (t.statesOf l)) id).getD id

/-- The tables with the copy of a lifecycle. -/
def Tables.withCopy (o : FetchOrder LifecycleStateRow.displayOrder) (t : Tables) (l newCode newName : String)
    (src : LifecycleRow) : Tables :=
  (({ t with lifecycles := t.lifecycles ++ [⟨newCode, newName, src.description⟩] } : Tables).withStates
    newCode (o.order (t.statesOf l))).withTransitions newCode (renamed o t l newCode) (t.transitionsOf l)

/-- What `duplicateLifecycle` accepts: a new code, names whose codes are new, and transitions between
states of the lifecycle. -/
structure Accepted (t : Tables) (l newCode newName : String) : Prop where
  kebab : isKebab newCode = true
  source : l ∈ t.lifecycleIds
  fresh : newCode ∉ t.lifecycleIds
  lengths : newCode.length ≤ 36 ∧ newName.length ≤ 255
  states : (t.stateIds ++ (t.statesOf l).map fun r => newId newCode r.name).Nodup
  states_fit : ∀ r ∈ t.statesOf l, (newId newCode r.name).length ≤ 36
  transitions : (t.transitionIds ++ (t.transitionsOf l).map fun r => newId newCode r.name).Nodup
  transitions_fit : ∀ r ∈ t.transitionsOf l, (newId newCode r.name).length ≤ 36
  ends : ∀ r ∈ t.transitionsOf l, r.fromStateId ∈ (t.statesOf l).map (·.id) ∧
    r.toStateId ∈ (t.statesOf l).map (·.id)

/-- The rows of one lifecycle have no name twice, and none has the new lifecycle. -/
theorem nodup_names {α : Type} {lifecycleId name : α → String} {rows copied : List α} {l l' : String}
    (huq : (rows.map fun r => (lifecycleId r, name r)).Nodup)
    (hcopied : copied.Perm (rows.filter (lifecycleId · = l))) (hnew : ∀ r ∈ rows, lifecycleId r ≠ l') :
    (rows.map (fun r => (lifecycleId r, name r)) ++ copied.map fun r => (l', name r)).Nodup := by
  refine List.nodup_append'.mpr ⟨huq, ?_, ?_⟩
  · rw [(hcopied.map _).nodup_iff]
    have hsel := nodup_map_filter (q := fun r => decide (lifecycleId r = l)) huq
    refine List.Nodup.of_map (fun e => (l, e.2)) ?_
    rw [List.map_map]
    convert hsel using 1
    refine List.map_congr_left fun r hr => ?_
    obtain ⟨-, hl⟩ := List.mem_filter.mp hr
    simp [of_decide_eq_true hl]
  · intro e he he'
    obtain ⟨r, hr, rfl⟩ := List.mem_map.mp he
    obtain ⟨r', -, heq⟩ := List.mem_map.mp he'
    exact hnew r hr (congrArg Prod.fst heq).symm

variable {o : FetchOrder LifecycleStateRow.displayOrder} {l newName : String}

theorem stateMap_isSome_iff {rows : List LifecycleStateRow} {id : String} :
    (stateMap newCode rows id).isSome ↔ id ∈ rows.map (·.id) := by
  simp [stateMap, List.find?_isSome]

/-- **A state of the lifecycle** is renamed to the code of its name. -/
theorem stateMap_of_mem {r : LifecycleStateRow} (hr : r ∈ s.statesOf l) :
    stateMap newCode (o.order (s.statesOf l)) r.id = some (newId newCode r.name) := by
  have hnodup : ((o.order (s.statesOf l)).map (·.id)).Nodup := by
    rw [((o.perm _).map _).nodup_iff]
    exact nodup_map_filter s.valid.pk_state
  rw [stateMap, find?_key hnodup ((o.perm _).mem_iff.mpr hr), Option.map_some]
  rfl

theorem renamed_of_mem {r : LifecycleStateRow} (hr : r ∈ s.statesOf l) :
    renamed o s.toTables l newCode r.id = newId newCode r.name := by
  rw [renamed, stateMap_of_mem hr, Option.getD_some]

/-- The codes of the states in the order in which they are copied. -/
theorem codes_perm (o : FetchOrder LifecycleStateRow.displayOrder) (t : Tables) (l newCode : String) :
    (t.stateIds ++ (o.order (t.statesOf l)).map fun r => newId newCode r.name).Perm
      (t.stateIds ++ (t.statesOf l).map fun r => newId newCode r.name) :=
  ((o.perm _).map _).append_left _

namespace Accepted

variable (h : Accepted s.toTables l newCode newName) (src : LifecycleRow)

include h

/-- No row belongs to the new lifecycle yet. -/
theorem ne_of_old : (∀ r ∈ s.states, r.lifecycleId ≠ newCode) ∧ ∀ r ∈ s.transitions, r.lifecycleId ≠ newCode :=
  ⟨fun r hr heq => h.fresh (heq ▸ s.valid.fk_state r hr),
    fun r hr heq => h.fresh (heq ▸ s.valid.fk_transition r hr)⟩

theorem newId_not_mem : (∀ r ∈ s.statesOf l, newId newCode r.name ∉ s.stateIds) ∧
    ∀ r ∈ s.transitionsOf l, newId newCode r.name ∉ s.transitionIds :=
  ⟨fun _ hr hmem => List.disjoint_of_nodup_append h.states hmem (List.mem_map_of_mem hr),
    fun _ hr hmem => List.disjoint_of_nodup_append h.transitions hmem (List.mem_map_of_mem hr)⟩

theorem valid_lifecycle : ({ s.toTables with
    lifecycles := s.lifecycles ++ [⟨newCode, newName, src.description⟩] } : Tables).Valid :=
  (valid_insertLifecycle s.valid).mpr ⟨h.fresh, h.lengths⟩

theorem valid_states : (({ s.toTables with
    lifecycles := s.lifecycles ++ [⟨newCode, newName, src.description⟩] } : Tables).withStates newCode
      (o.order (s.statesOf l))).Valid := by
  refine (valid_withStates_iff (h.valid_lifecycle src)).mpr
    ⟨(codes_perm o s.toTables l newCode).nodup_iff.mpr h.states, ?_, fun r hr => ⟨?_, ?_⟩⟩
  · exact nodup_names s.valid.uq_state_name (o.perm _) h.ne_of_old.1
  · simp [Tables.lifecycleIds]
  · exact h.states_fit r ((o.perm _).mem_iff.mp hr)

/-- **What is accepted can be stored.** -/
theorem valid : (s.withCopy o l newCode newName src).Valid := by
  -- the ends of a copy are copies of states
  have hend : ∀ id ∈ (s.statesOf l).map (·.id), renamed o s.toTables l newCode id ∈
      (s.states ++ (o.order (s.statesOf l)).map (·.copy newCode)).map (·.id) := by
    intro id hid
    obtain ⟨r, hr, rfl⟩ := List.mem_map.mp hid
    rw [renamed_of_mem hr, List.map_append, List.map_map]
    exact List.mem_append_right _ (List.mem_map_of_mem ((o.perm _).mem_iff.mpr hr))
  refine (valid_withTransitions_iff (h.valid_states src)).mpr ⟨h.transitions, ?_, fun r hr => ⟨?_, ?_⟩⟩
  · exact nodup_names s.valid.uq_transition_name (List.Perm.refl _) h.ne_of_old.2
  · simp [Tables.lifecycleIds, Tables.withStates]
  · exact ⟨hend _ (h.ends r hr).1, hend _ (h.ends r hr).2, h.transitions_fit r hr⟩

end Accepted

/-- What can be stored is accepted. -/
theorem accepted_of_valid {src : LifecycleRow} (hkebab : isKebab newCode = true) (hl : l ∈ s.lifecycleIds)
    (hends : ∀ r ∈ s.transitionsOf l,
      r.fromStateId ∈ (s.statesOf l).map (·.id) ∧ r.toStateId ∈ (s.statesOf l).map (·.id))
    (h : (s.withCopy o l newCode newName src).Valid) : Accepted s.toTables l newCode newName where
  kebab := hkebab
  source := hl
  fresh := (nodup_map_concat_iff.mp h.pk_lifecycle).2
  lengths := h.lifecycle ⟨newCode, newName, src.description⟩ (List.mem_append_right _ List.mem_cons_self)
  states := by
    have hids := h.pk_state
    rw [← (codes_perm o s.toTables l newCode).nodup_iff]
    simpa [Tables.stateIds, Tables.withCopy, Tables.withTransitions, Tables.withStates,
      LifecycleStateRow.copy, Function.comp_def] using hids
  states_fit := fun r hr => h.state (r.copy newCode)
    (List.mem_append_right _ (List.mem_map_of_mem ((o.perm _).mem_iff.mpr hr)))
  transitions := by
    have hids := h.pk_transition
    simpa [Tables.transitionIds, Tables.withCopy, Tables.withTransitions, Tables.withStates,
      LifecycleTransitionRow.copy, Function.comp_def] using hids
  transitions_fit := fun r hr => h.transition _ (List.mem_append_right _ (List.mem_map_of_mem hr))
  ends := hends

/-- **The method returns** exactly when it accepts its arguments, and then it has written the copy. -/
theorem returns_duplicateLifecycle {code name : Option String} {result : String} :
    Returns (duplicateLifecycle o l code name) s result s' ↔ ∃ newName src, code = some result ∧
      name = some newName ∧ s.lifecycles.find? (·.id = l) = some src ∧
      Accepted s.toTables l result newName ∧ s'.toTables = s.withCopy o l result newName src := by
  -- what the loops read is the same after the lifecycle was inserted
  have hold : ∀ r ∈ o.order (s.statesOf l), r.id ∈ s.stateIds := fun r hr =>
    List.mem_map_of_mem (List.mem_of_mem_filter ((o.perm _).mem_iff.mp hr))
  simp only [duplicateLifecycle, returns_bind, returns_validateCode, returns_query, returns_orElseThrow,
    returns_execute, returns_pure, returns_copyTransitions, stateMap_isSome_iff, and_assoc,
    exists_and_left, exists_eq_left]
  constructor
  · rintro ⟨newCode, hcode, hkebab, src, hsrc, newName, hname, _, s₁, h₁, _, s₂, h₂, hends, _, s₃, h₃, rfl,
      rfl⟩
    have hsame : s₁.statesOf l = s.statesOf l ∧ s₁.stateIds = s.stateIds ∧
        s₁.transitionsOf l = s.transitionsOf l := by
      rw [h₁]
      exact ⟨rfl, rfl, rfl⟩
    rw [hsame.1, returns_copyStates (hsame.2.1 ▸ hold)] at h₂
    have htransitions : s₂.transitionsOf l = s.transitionsOf l := by
      rw [h₂]
      exact hsame.2.2
    have htables : s'.toTables = s.withCopy o l result newName src := by
      rw [h₃, htransitions, hsame.1, h₂, h₁]
      rfl
    refine ⟨hcode, newName, hname, src, hsrc, ?_, htables⟩
    refine accepted_of_valid hkebab ?_ ?_ (htables ▸ s'.valid)
    · have hid : src.id = l := by simpa using List.find?_some hsrc
      exact hid ▸ List.mem_map_of_mem (List.mem_of_find?_eq_some hsrc)
    · intro r hr
      have hends := hends r (htransitions ▸ hr)
      rwa [hsame.1, ((o.perm _).map _).mem_iff, ((o.perm _).map _).mem_iff] at hends
  · rintro ⟨rfl, newName, rfl, src, hsrc, hacc, h⟩
    let s₁ : Db := ⟨_, hacc.valid_lifecycle src⟩
    refine ⟨result, rfl, hacc.kebab, src, hsrc, newName, rfl, ⟨⟩, s₁, rfl, ⟨⟩,
      ⟨_, hacc.valid_states src⟩, (returns_copyStates (s := s₁) hold).mpr rfl, fun r hr => ?_, ⟨⟩, s', h,
      rfl, rfl⟩
    rw [((o.perm _).map _).mem_iff, ((o.perm _).map _).mem_iff]
    exact hacc.ends r hr

/-! ## When the copy is isomorphic -/

/-- Nothing is attached to the states and transitions of a lifecycle, and no metadata is left under a
code that a copy of one of its states would get, but for keys that this state has. -/
structure Bare (t : Tables) (l newCode : String) : Prop where
  stateActions : ∀ r ∈ t.statesOf l, t.stateActionsOf r.id = []
  guards : ∀ r ∈ t.transitionsOf l, t.guardsOf r.id = []
  signatureRequirements : ∀ r ∈ t.transitionsOf l, t.signatureRequirementsOf r.id = []
  metadata : ∀ r ∈ t.statesOf l, ∀ e ∈ t.getMetadata lifecycleState (newId newCode r.name),
    e.1 ∈ (t.getMetadata lifecycleState r.id).map Prod.fst

theorem mem_getMetadata {id : String} {e : String × Option String} :
    e ∈ t.getMetadata lifecycleState id ↔ ⟨lifecycleState, id, e.1, e.2⟩ ∈ t.entityMetadata := by
  simp only [Tables.getMetadata, Tables.metadataRows, List.mem_map, List.mem_filter, decide_eq_true_eq]
  constructor
  · rintro ⟨m, ⟨hm, htype, hid⟩, rfl⟩
    rw [← htype, ← hid]
    exact hm
  · exact fun h => ⟨_, ⟨h, rfl, rfl⟩, rfl⟩

/-- The copied metadata has no key twice. -/
theorem nodup_copiedMetadata {rows : List LifecycleStateRow}
    (hids : (rows.map fun r => newId newCode r.name).Nodup) :
    ((rows.flatMap (copiedMetadata s.toTables newCode)).map EntityMetadataRow.key).Nodup := by
  rw [List.map_flatMap, List.nodup_flatMap]
  constructor
  · intro r _
    -- back under the id of the source they are keys of the table
    refine List.Nodup.of_map (fun k => (k.1, r.id, k.2.2)) ?_
    have hkeys : ((s.metadataRows lifecycleState r.id).map EntityMetadataRow.key).Nodup :=
      nodup_map_filter s.valid.uq_entity_metadata
    rw [copiedMetadata, Tables.getMetadata, List.map_map, List.map_map, List.map_map]
    convert hkeys using 1
    refine List.map_congr_left fun m hm => ?_
    obtain ⟨htype, hid⟩ := of_decide_eq_true (List.mem_filter.mp hm).2
    simp [EntityMetadataRow.key, htype, hid]
  · refine (List.pairwise_map.mp hids).imp fun {r r'} hne k hk hk' => hne ?_
    simp only [copiedMetadata, List.map_map, List.mem_map] at hk hk'
    obtain ⟨e, -, rfl⟩ := hk
    obtain ⟨e', -, heq⟩ := hk'
    exact (congrArg (·.2.1) heq).symm

/-- **The metadata of a copy** is that of its source, and what was left under its code. -/
theorem mem_getMetadata_withStates {rows : List LifecycleStateRow} {r : LifecycleStateRow}
    {e : String × Option String} (hids : (rows.map fun r => newId newCode r.name).Nodup) (hr : r ∈ rows) :
    e ∈ (s.withStates newCode rows).getMetadata lifecycleState (newId newCode r.name) ↔
      e ∈ s.getMetadata lifecycleState r.id ∨
        (e ∈ s.getMetadata lifecycleState (newId newCode r.name) ∧
          e.1 ∉ (s.getMetadata lifecycleState r.id).map Prod.fst) := by
  -- what is copied under the code comes from this state
  have hcopied : ∀ k v, ⟨lifecycleState, newId newCode r.name, k, v⟩ ∈
      rows.flatMap (copiedMetadata s.toTables newCode) ↔ (k, v) ∈ s.getMetadata lifecycleState r.id := by
    intro k v
    simp only [List.mem_flatMap, copiedMetadata, List.mem_map]
    constructor
    · rintro ⟨r', hr', e', he', heq⟩
      obtain ⟨-, hid, rfl, rfl⟩ := EntityMetadataRow.mk.inj heq
      obtain rfl : r' = r := List.inj_on_of_nodup_map hids hr' hr hid
      exact he'
    · exact fun he => ⟨r, hr, (k, v), he, rfl⟩
  rw [mem_getMetadata]
  change _ ∈ upsertAll _ _ _ ↔ _
  rw [mem_upsertAll (nodup_copiedMetadata hids), hcopied, ← mem_getMetadata]
  refine or_congr Iff.rfl (and_congr Iff.rfl (not_congr ?_))
  simp only [List.mem_map]
  constructor
  · rintro ⟨⟨type, id, k, v⟩, hm, hkey⟩
    obtain ⟨rfl, rfl, rfl⟩ : type = lifecycleState ∧ id = newId newCode r.name ∧ k = e.1 := by
      simpa [EntityMetadataRow.key] using hkey
    exact ⟨_, (hcopied e.1 v).mp hm, rfl⟩
  · rintro ⟨⟨_, v⟩, he, rfl⟩
    exact ⟨_, (hcopied e.1 v).mpr he, rfl⟩

/-- The name a transition is given in the copy of its lifecycle. -/
def renamedTransition (t : Tables) (l newCode id : String) : String :=
  (((t.transitionsOf l).find? (·.id = id)).map fun r => newId newCode r.name).getD id

theorem renamedTransition_of_mem {r : LifecycleTransitionRow} (hr : r ∈ s.transitionsOf l) :
    renamedTransition s.toTables l newCode r.id = newId newCode r.name := by
  have hnodup : ((s.transitionsOf l).map (·.id)).Nodup := nodup_map_filter s.valid.pk_transition
  rw [renamedTransition, find?_key hnodup hr, Option.map_some, Option.getD_some]

section Copied

variable {src : LifecycleRow}

/-- The states of the new lifecycle are the copies. -/
theorem statesOf_withCopy (h : Accepted s.toTables l newCode newName) :
    (s.withCopy o l newCode newName src).statesOf newCode =
      (o.order (s.statesOf l)).map (·.copy newCode) := by
  have hold : s.states.filter (·.lifecycleId = newCode) = [] := by
    exact List.filter_eq_nil_iff.mpr fun r hr => by simpa using h.ne_of_old.1 r hr
  have hnew : ((o.order (s.statesOf l)).map (·.copy newCode)).filter (·.lifecycleId = newCode) =
      (o.order (s.statesOf l)).map (·.copy newCode) :=
    List.filter_eq_self.mpr (List.forall_mem_map.mpr fun r _ => decide_eq_true rfl)
  change (s.states ++ _).filter _ = _
  rw [List.filter_append, hold, hnew, List.nil_append]

theorem transitionsOf_withCopy (h : Accepted s.toTables l newCode newName) :
    (s.withCopy o l newCode newName src).transitionsOf newCode = (s.transitionsOf l).map fun r =>
      r.copy newCode (renamed o s.toTables l newCode r.fromStateId)
        (renamed o s.toTables l newCode r.toStateId) := by
  have hold : s.transitions.filter (·.lifecycleId = newCode) = [] := by
    exact List.filter_eq_nil_iff.mpr fun r hr => by simpa using h.ne_of_old.2 r hr
  change (s.transitions ++ _).filter _ = _
  rw [List.filter_append, hold, List.nil_append]
  exact List.filter_eq_self.mpr (List.forall_mem_map.mpr fun r _ => decide_eq_true rfl)

theorem mem_getMetadata_withCopy {r : LifecycleStateRow} {e : String × Option String}
    (h : Accepted s.toTables l newCode newName) (hr : r ∈ s.statesOf l) :
    e ∈ (s.withCopy o l newCode newName src).getMetadata lifecycleState (newId newCode r.name) ↔
      e ∈ s.getMetadata lifecycleState r.id ∨
        (e ∈ s.getMetadata lifecycleState (newId newCode r.name) ∧
          e.1 ∉ (s.getMetadata lifecycleState r.id).map Prod.fst) := by
  have hordered : r ∈ o.order (s.statesOf l) := (o.perm _).mem_iff.mpr hr
  refine mem_getMetadata_withStates (s := s) ?_ hordered
  rw [((o.perm _).map _).nodup_iff]
  exact h.states.of_append_right

/-- Nothing is attached to an id that is new. -/
theorem attached_of_fresh {id : String} :
    (id ∉ s.stateIds → s.stateActionsOf id = []) ∧
      (id ∉ s.transitionIds → s.guardsOf id = [] ∧ s.signatureRequirementsOf id = []) := by
  refine ⟨fun h => ?_, fun h => ⟨?_, ?_⟩⟩
  · refine List.filter_eq_nil_iff.mpr fun a ha => ?_
    rw [decide_eq_true_eq]
    rintro rfl
    exact h (s.valid.fk_state_action a ha)
  · refine List.filter_eq_nil_iff.mpr fun g hg => ?_
    rw [decide_eq_true_eq]
    rintro rfl
    exact h (s.valid.fk_transition_guard g hg)
  · refine List.filter_eq_nil_iff.mpr fun q hq => ?_
    rw [decide_eq_true_eq]
    rintro rfl
    exact h (s.valid.fk_signature_requirement q hq)

/-- What is attached in the copy is what was attached before: it can be the same as in the source only
where the source has nothing. -/
theorem IsomorphicCopy.bare {f g : String → String} (h : Accepted s.toTables l newCode newName)
    (hiso : IsomorphicCopy s.toTables (s.withCopy o l newCode newName src) l newCode f g) :
    Bare s.toTables l newCode where
  stateActions := by
    intro r hr
    have hperm := hiso.stateActions r hr
    change (s.stateActionsOf (f r.id)).Perm _ at hperm
    rw [attached_of_fresh.1 (hiso.states_fresh r hr), List.nil_perm, List.map_eq_nil_iff] at hperm
    exact hperm
  guards := by
    intro r hr
    have hperm := hiso.guards r hr
    change (s.guardsOf (g r.id)).Perm _ at hperm
    rw [(attached_of_fresh.2 (hiso.transitions_fresh r hr)).1, List.nil_perm,
      List.map_eq_nil_iff] at hperm
    exact hperm
  signatureRequirements := by
    intro r hr
    have hperm := hiso.signatureRequirements r hr
    change (s.signatureRequirementsOf (g r.id)).Perm _ at hperm
    rw [(attached_of_fresh.2 (hiso.transitions_fresh r hr)).2, List.nil_perm,
      List.map_eq_nil_iff] at hperm
    exact hperm
  metadata := by
    intro r hr e he
    -- the copy of a state is known by its name
    have hcopy : f r.id = newId newCode r.name := by
      have hmem := (hiso.states.mem_iff (a := { r with id := f r.id, lifecycleId := newCode })).mpr
        (List.mem_map_of_mem hr)
      rw [statesOf_withCopy h] at hmem
      obtain ⟨r', -, heq⟩ := List.mem_map.mp hmem
      have hname : r'.name = r.name := congrArg (·.name) heq
      rw [← hname]
      exact (congrArg (·.id) heq).symm
    by_contra hnot
    have hstays : e ∈ (s.withCopy o l newCode newName src).getMetadata lifecycleState
        (newId newCode r.name) := (mem_getMetadata_withCopy h hr).mpr (.inr ⟨he, hnot⟩)
    rw [← hcopy] at hstays
    exact hnot (List.mem_map_of_mem ((hiso.metadata r hr e).mp hstays))

/-- **A bare lifecycle** is copied isomorphically. -/
theorem Bare.isomorphicCopy (hbare : Bare s.toTables l newCode)
    (h : Accepted s.toTables l newCode newName) :
    IsomorphicCopy s.toTables (s.withCopy o l newCode newName src) l newCode
      (renamed o s.toTables l newCode) (renamedTransition s.toTables l newCode) where
  fresh := h.fresh
  stored := by simp [Tables.lifecycleIds, Tables.withCopy, Tables.withTransitions, Tables.withStates]
  states := by
    rw [statesOf_withCopy h]
    refine ((o.perm _).map _).trans (List.Perm.of_eq (List.map_congr_left fun r hr => ?_))
    rw [renamed_of_mem hr]
    rfl
  transitions := by
    rw [transitionsOf_withCopy h]
    refine List.Perm.of_eq (List.map_congr_left fun r hr => ?_)
    rw [renamedTransition_of_mem hr]
    rfl
  states_inj := by
    intro r hr r' hr' heq
    rw [renamed_of_mem hr, renamed_of_mem hr'] at heq
    exact List.inj_on_of_nodup_map h.states.of_append_right hr hr' heq
  transitions_inj := by
    intro r hr r' hr' heq
    rw [renamedTransition_of_mem hr, renamedTransition_of_mem hr'] at heq
    exact List.inj_on_of_nodup_map h.transitions.of_append_right hr hr' heq
  states_fresh := by
    intro r hr
    rw [renamed_of_mem hr]
    exact h.newId_not_mem.1 r hr
  transitions_fresh := by
    intro r hr
    rw [renamedTransition_of_mem hr]
    exact h.newId_not_mem.2 r hr
  ends := by
    have hend : ∀ id ∈ (s.statesOf l).map (·.id), ∃ x ∈ (s.withCopy o l newCode newName src).statesOf newCode,
        x.id = renamed o s.toTables l newCode id := by
      intro id hid
      obtain ⟨r, hr, rfl⟩ := List.mem_map.mp hid
      rw [statesOf_withCopy h, renamed_of_mem hr]
      exact ⟨_, List.mem_map_of_mem ((o.perm _).mem_iff.mpr hr), rfl⟩
    rw [transitionsOf_withCopy h, List.forall_mem_map]
    exact fun r hr => ⟨hend _ (h.ends r hr).1, hend _ (h.ends r hr).2⟩
  metadata := by
    intro r hr e
    rw [renamed_of_mem hr, mem_getMetadata_withCopy h hr, or_iff_left_iff_imp]
    exact fun he => absurd (hbare.metadata r hr e he.1) he.2
  stateActions := by
    intro r hr
    change (s.stateActionsOf _).Perm _
    rw [hbare.stateActions r hr, renamed_of_mem hr, attached_of_fresh.1 (h.newId_not_mem.1 r hr),
      List.map_nil]
  guards := by
    intro r hr
    change (s.guardsOf _).Perm _
    rw [hbare.guards r hr, renamedTransition_of_mem hr,
      (attached_of_fresh.2 (h.newId_not_mem.2 r hr)).1, List.map_nil]
  signatureRequirements := by
    intro r hr
    change (s.signatureRequirementsOf _).Perm _
    rw [hbare.signatureRequirements r hr, renamedTransition_of_mem hr,
      (attached_of_fresh.2 (h.newId_not_mem.2 r hr)).2, List.map_nil]
  others := by
    constructor
    · change (s.states ++ _).filter _ = _
      rw [List.filter_append, List.filter_eq_self.mpr, List.filter_eq_nil_iff.mpr, List.append_nil]
      · exact List.forall_mem_map.mpr fun r _ => by simp [LifecycleStateRow.copy]
      · exact fun r hr => by simpa using h.ne_of_old.1 r hr
    · change (s.transitions ++ _).filter _ = _
      rw [List.filter_append, List.filter_eq_self.mpr, List.filter_eq_nil_iff.mpr, List.append_nil]
      · exact List.forall_mem_map.mpr fun r _ => by simp [LifecycleTransitionRow.copy]
      · exact fun r hr => by simpa using h.ne_of_old.2 r hr

end Copied

/-- **A lifecycle is duplicated** as an isomorphic copy exactly when the arguments are accepted and the
source is bare. -/
theorem duplicate_is_isomorphic_iff (o : FetchOrder LifecycleStateRow.displayOrder) (s : Db) (l : String)
    (code name : Option String) :
    (∃ newCode s' f g, Returns (duplicateLifecycle o l code name) s newCode s' ∧
      IsomorphicCopy s.toTables s'.toTables l newCode f g) ↔
      ∃ newCode newName, code = some newCode ∧ name = some newName ∧
        Accepted s.toTables l newCode newName ∧ Bare s.toTables l newCode := by
  constructor
  · rintro ⟨newCode, s', f, g, h, hiso⟩
    obtain ⟨newName, src, hcode, hname, -, hacc, htables⟩ := returns_duplicateLifecycle.mp h
    rw [htables] at hiso
    exact ⟨newCode, newName, hcode, hname, hacc, hiso.bare hacc⟩
  · rintro ⟨newCode, newName, hcode, hname, hacc, hbare⟩
    obtain ⟨src, hsrc⟩ : ∃ src, s.lifecycles.find? (·.id = l) = some src := by
      obtain ⟨row, hrow, rfl⟩ := List.mem_map.mp hacc.source
      exact ⟨row, find?_key s.valid.pk_lifecycle hrow⟩
    exact ⟨newCode, ⟨_, hacc.valid src⟩, _, _, returns_duplicateLifecycle.mpr
      ⟨newName, src, hcode, hname, hsrc, hacc, rfl⟩, hbare.isomorphicCopy hacc⟩

end Statements

/-! ## A lifecycle with a signature -/

/-- Two states, and a transition that a reviewer signs. -/
def reviewFlow : Db := ⟨{ Tables.empty with
  lifecycles := [⟨"flow", "Flow", none⟩]
  states := [⟨"flow-draft", "flow", "Draft", 1, 0, none⟩, ⟨"flow-released", "flow", "Released", 0, 1, none⟩]
  transitions := [⟨"flow-release", "flow", "Release", "flow-draft", "flow-released", none, none, "REVISE"⟩]
  signatureRequirements := [⟨"flow-release", "REVIEWER", 0⟩] }, by decide⟩

theorem accepted_reviewFlow : Accepted reviewFlow.toTables "flow" "flow-two" "Flow two" :=
  ⟨by decide, by decide, by decide, by decide, by decide, by decide, by decide, by decide, by decide⟩

/-- The copy of a lifecycle with a signature requirement has none. -/
theorem duplicate_drops_signature_requirements : ¬ ∀ (o : FetchOrder LifecycleStateRow.displayOrder) (s : Db)
    (l : String) (code name : Option String) (newCode : String) (s' : Db),
    Returns (duplicateLifecycle o l code name) s newCode s' →
      ∃ f g, IsomorphicCopy s.toTables s'.toTables l newCode f g := by
  intro hall
  let src : LifecycleRow := ⟨"flow", "Flow", none⟩
  obtain ⟨f, g, hiso⟩ := hall (.stored _) reviewFlow "flow" (some "flow-two") (some "Flow two") "flow-two"
    ⟨_, accepted_reviewFlow.valid src⟩
    (returns_duplicateLifecycle.mpr ⟨_, src, rfl, rfl, by decide, accepted_reviewFlow, rfl⟩)
  have hnone := (hiso.bare accepted_reviewFlow).signatureRequirements _ List.mem_cons_self
  exact absurd hnone (by decide)

end PlmCore.Psa
