/-
What the walk of `createBaseline` records.

A row of the walk becomes an entry of the baseline, or nothing, and may lead on to another node.
So the walk unfolds the graph of these recordings, and a link that is met by two trails is
recorded twice.
-/
import PlmCore.Lib.Unfolding
import PlmCore.Psm.Store

set_option autoImplicit false

namespace PlmCore.Psm

open PlmCore.Lib

/-- A link of a structure, the key a baseline shows it with, and the node whose links come below. -/
structure Recording where
  link : LinkRow
  key : Option String
  below : Option Uuid
  deriving DecidableEq

/-- The entry of a recording, when it has a key. -/
def Recording.entry (baselineId : Uuid) (e : Recording) : Option BaselineEntryRow :=
  e.key.map fun key => ⟨baselineId, e.link.id, key⟩

/-- The key that pins a target to a version. -/
def resolvedKey (l : LinkRow) (v : VersionRow) : String := l.targetKey ++ "@" ++ toString v.versionNumber

namespace Tables

variable (env : Env) (t : Tables)

/-- What one row of the walk records. -/
def recordingOf (row : LinkRow × Option NodeRow) : Option Recording :=
  if isMasterLink env row.1 then
    row.2.bind fun n => (t.getLastCommittedVersion n.id).map fun v =>
      ⟨row.1, some (resolvedKey row.1 v), some n.id⟩
  else some ⟨row.1, some row.1.targetKey, none⟩

/-- What the walk records at a node. -/
def recordings (nodeId : Uuid) : List Recording := (t.baselineLinks nodeId).filterMap (t.recordingOf env)

/-- What the walk records from a node down. -/
def recordedFrom (depth : Nat) (nodeId : Uuid) : List (List Recording × Recording) :=
  unfolding (t.recordings env) Recording.below depth nodeId

/-- The entries of the walk. -/
def walkEntries (baselineId : Uuid) (depth : Nat) (nodeId : Uuid) : List BaselineEntryRow :=
  (t.recordedFrom env depth nodeId).filterMap fun p => p.2.entry baselineId

end Tables

variable {env : Env} {baselineId : Uuid}

/-- Every recording of the walk has a key. -/
theorem recording_key {t : Tables} {nodeId : Uuid} {e : Recording} (h : e ∈ t.recordings env nodeId) :
    ∃ key, e.key = some key := by
  obtain ⟨row, -, hrow⟩ := List.mem_filterMap.mp h
  unfold Tables.recordingOf at hrow
  split at hrow
  · obtain ⟨n, -, hn⟩ := Option.bind_eq_some_iff.mp hrow
    obtain ⟨v, -, rfl⟩ := Option.map_eq_some_iff.mp hn
    exact ⟨_, rfl⟩
  · obtain rfl := Option.some.inj hrow
    exact ⟨_, rfl⟩

/-- Entries of baselines are not read by the walk. -/
theorem recordings_congr {s s' : Db} (h : OnlyEntries s s') : s'.recordings env = s.recordings env := by
  obtain ⟨entries, hs'⟩ := h
  rw [hs']
  rfl

/-- The entries of one recording and of what comes below it. -/
def entriesOf (env : Env) (baselineId : Uuid) (t : Tables) (depth : Nat) (e : Recording) :
    List BaselineEntryRow :=
  (e.entry baselineId).toList ++ e.below.elim [] (t.walkEntries env baselineId depth)

theorem walkEntries_succ (t : Tables) (depth : Nat) (nodeId : Uuid) :
    t.walkEntries env baselineId (depth + 1) nodeId =
      (t.recordings env nodeId).flatMap (entriesOf env baselineId t depth) := by
  rw [Tables.walkEntries, Tables.recordedFrom, unfolding, List.filterMap_flatMap]
  refine List.flatMap_congr fun e _ => ?_
  rw [entriesOf, List.filterMap_cons, List.filterMap_map]
  have hbelow : (e.below.elim [] (unfolding (t.recordings env) Recording.below depth)).filterMap
      ((fun p => p.2.entry baselineId) ∘ fun p => (e :: p.1, p.2)) =
      e.below.elim [] (t.walkEntries env baselineId depth) := by
    cases e.below with
    | none => rfl
    | some b => rfl
  rw [hbelow]
  cases e.entry baselineId with
  | none => rfl
  | some x => rfl

/-- The entries a step adds. -/
def Adds (entries : List BaselineEntryRow) (s s' : Db) : Prop :=
  s'.toTables = { s.toTables with baselineEntries := s.baselineEntries ++ entries }

theorem Adds.append {entries₁ entries₂ : List BaselineEntryRow} {s₁ s₂ s₃ : Db} (h₁ : Adds entries₁ s₁ s₂)
    (h₂ : Adds entries₂ s₂ s₃) : Adds (entries₁ ++ entries₂) s₁ s₃ := by
  unfold Adds at *
  rw [h₂, h₁, List.append_assoc]

/-- One row of the walk adds the entries of its recording. -/
theorem recordLink_adds {depth : Nat} {row : LinkRow × Option NodeRow} {s s' : Db}
    (hdescend : ∀ nodeId s s', Returns (resolveAndRecord env baselineId depth nodeId) s () s' →
      EndsWithin (s.recordings env) Recording.below depth nodeId ∧
        Adds (s.walkEntries env baselineId depth nodeId) s s')
    (h : Returns (recordLink env baselineId (resolveAndRecord env baselineId depth) row) s () s') :
    (∀ e ∈ s.recordingOf env row, ∀ b, e.below = some b →
      EndsWithin (s.recordings env) Recording.below depth b) ∧
      Adds ((s.recordingOf env row).toList.flatMap (entriesOf env baselineId s.toTables depth)) s s' := by
  unfold recordLink at h
  unfold Tables.recordingOf
  by_cases hmaster : isMasterLink env row.1 = true
  · rw [if_pos hmaster] at h ⊢
    -- an unpinned SELF link: its target is resolved, recorded and walked on from
    unfold recordMaster at h
    cases htarget : row.2 with
    | none =>
      rw [htarget] at h
      -- no node is joined: nothing is recorded
      refine ⟨fun e he => (by cases he), ?_⟩
      rw [(returns_pure.mp h).2]
      simp [Adds]
    | some n =>
      rw [htarget] at h
      simp only [returns_bind, returns_query, and_assoc, exists_and_left, exists_eq_left] at h
      rw [Option.bind_some]
      cases hv : s.getLastCommittedVersion n.id with
      | none =>
        rw [hv] at h
        refine ⟨fun e he => (by cases he), ?_⟩
        rw [(returns_pure.mp h).2]
        simp [Adds]
      | some v =>
        rw [hv] at h
        simp only [returns_bind, returns_execute] at h
        obtain ⟨_, s₁, hins, hbelow⟩ := h
        -- one entry first, and then those of the walk below, of a graph that is still the same
        have hfirst : Adds [⟨baselineId, row.1.id, resolvedKey row.1 v⟩] s s₁ := hins
        obtain ⟨hends, hadds⟩ := hdescend _ _ _ hbelow
        rw [recordings_congr ⟨_, hfirst⟩] at hends
        constructor
        · rintro e he b hb
          obtain rfl := Option.some.inj he
          obtain rfl := Option.some.inj hb
          exact hends
        · have hsame : s₁.walkEntries env baselineId depth n.id = s.walkEntries env baselineId depth n.id := by
            rw [Tables.walkEntries, Tables.recordedFrom, recordings_congr ⟨_, hfirst⟩]
            rfl
          rw [hsame] at hadds
          simpa [entriesOf, Recording.entry] using hfirst.append hadds
  · rw [if_neg hmaster] at h ⊢
    -- any other link is recorded as it stands
    have hfirst : Adds [⟨baselineId, row.1.id, row.1.targetKey⟩] s s' := returns_execute.mp h
    constructor
    · rintro e he b hb
      obtain rfl := Option.some.inj he
      cases hb
    · simpa [entriesOf, Recording.entry] using hfirst

/-- The rows one after the other: each leaves the graph as it is. -/
theorem forM_recordLink_adds {depth : Nat}
    (hdescend : ∀ nodeId s s', Returns (resolveAndRecord env baselineId depth nodeId) s () s' →
      EndsWithin (s.recordings env) Recording.below depth nodeId ∧
        Adds (s.walkEntries env baselineId depth nodeId) s s')
    (rows : List (LinkRow × Option NodeRow)) {s s' : Db}
    (h : Returns (rows.forM (recordLink env baselineId (resolveAndRecord env baselineId depth))) s ⟨⟩ s') :
    (∀ e ∈ rows.filterMap (s.recordingOf env), ∀ b, e.below = some b →
      EndsWithin (s.recordings env) Recording.below depth b) ∧
      Adds ((rows.filterMap (s.recordingOf env)).flatMap (entriesOf env baselineId s.toTables depth))
        s s' := by
  induction rows generalizing s with
  | nil =>
    rw [returns_forM_nil] at h
    refine ⟨fun e he => (by cases he), ?_⟩
    rw [h]
    simp [Adds]
  | cons row rows ih =>
    obtain ⟨s₁, hrow, hrows⟩ := returns_forM_cons.mp h
    obtain ⟨hends, hadds⟩ := recordLink_adds hdescend hrow
    obtain ⟨hendsRows, haddsRows⟩ := ih hrows
    -- the entries added so far change neither graph nor recordings
    have hsame : s₁.recordings env = s.recordings env := recordings_congr ⟨_, hadds⟩
    have hrecording : s₁.recordingOf env = s.recordingOf env := by
      rw [hadds]
      rfl
    have hentries : entriesOf env baselineId s₁.toTables depth = entriesOf env baselineId s.toTables depth := by
      funext e
      rw [entriesOf, entriesOf]
      congr 2
      funext nodeId
      rw [Tables.walkEntries, Tables.recordedFrom, hsame]
      rfl
    rw [hsame, hrecording] at hendsRows
    rw [hrecording, hentries] at haddsRows
    have hcons : (row :: rows).filterMap (s.recordingOf env) =
        (s.recordingOf env row).toList ++ rows.filterMap (s.recordingOf env) := by
      rw [List.filterMap_cons]
      cases s.recordingOf env row with
      | none => rfl
      | some e => rfl
    rw [hcons, List.flatMap_append]
    refine ⟨fun e he b hb => ?_, hadds.append haddsRows⟩
    obtain he | he := List.mem_append.mp he
    · exact hends e (Option.mem_toList.mp he) b hb
    · exact hendsRows e he b hb

/-- **A walk that returns has come to an end**, and added the entries of the tree. -/
theorem resolveAndRecord_adds {depth : Nat} (nodeId : Uuid) (s s' : Db)
    (h : Returns (resolveAndRecord env baselineId depth nodeId) s () s') :
    EndsWithin (s.recordings env) Recording.below depth nodeId ∧
      Adds (s.walkEntries env baselineId depth nodeId) s s' := by
  induction depth generalizing nodeId s s' with
  | zero => exact absurd h returns_throw
  | succ depth ih =>
    simp only [resolveAndRecord, returns_bind, returns_query, and_assoc, exists_and_left,
      exists_eq_left] at h
    rw [walkEntries_succ]
    exact forM_recordLink_adds ih _ h

/-! ## The walk returns -/

/-- An entry of a baseline for a link can be inserted. -/
theorem insertBaselineEntry_valid {s : Db} {e : BaselineEntryRow}
    (hbaseline : e.baselineId ∈ s.baselines.map (·.id)) (hlink : e.nodeLinkId ∈ s.linkIds) :
    (s.insertBaselineEntry e).Valid :=
  { s.valid with
    fk_entry_baseline := by
      intro x hx
      obtain hx | hx := List.mem_append.mp hx
      · exact s.valid.fk_entry_baseline x hx
      · exact List.mem_singleton.mp hx ▸ hbaseline
    fk_entry_link := by
      intro x hx
      obtain hx | hx := List.mem_append.mp hx
      · exact s.valid.fk_entry_link x hx
      · exact List.mem_singleton.mp hx ▸ hlink }

theorem insertBaselineEntry_returns {s : Db} {e : BaselineEntryRow}
    (hbaseline : e.baselineId ∈ s.baselines.map (·.id)) (hlink : e.nodeLinkId ∈ s.linkIds) :
    ∃ s', Returns (execute (Tables.insertBaselineEntry e)) s () s' ∧ Adds [e] s s' := by
  have hvalid := insertBaselineEntry_valid hbaseline hlink
  exact ⟨⟨_, hvalid⟩, returns_execute.mpr rfl, rfl⟩

/-- One row of the walk returns, when the walk below its target does. -/
theorem recordLink_returns {depth : Nat} {row : LinkRow × Option NodeRow} {s : Db}
    (hbaseline : baselineId ∈ s.baselines.map (·.id)) (hlink : row.1 ∈ s.links)
    (hdescend : ∀ nodeId (s₁ : Db), OnlyEntries s s₁ →
      EndsWithin (s₁.recordings env) Recording.below depth nodeId →
        ∃ s', Returns (resolveAndRecord env baselineId depth nodeId) s₁ () s')
    (hends : ∀ e ∈ s.recordingOf env row, ∀ b, e.below = some b →
      EndsWithin (s.recordings env) Recording.below depth b) :
    ∃ s', Returns (recordLink env baselineId (resolveAndRecord env baselineId depth) row) s () s' := by
  unfold Tables.recordingOf at hends
  unfold recordLink
  by_cases hmaster : isMasterLink env row.1 = true
  · rw [if_pos hmaster] at hends ⊢
    -- the INSERT goes through, since baseline and link exist
    unfold recordMaster
    cases htarget : row.2 with
    | none => exact ⟨s, returns_pure.mpr ⟨rfl, rfl⟩⟩
    | some n =>
      simp only [returns_bind, returns_query, and_assoc, exists_and_left, exists_eq_left]
      rw [htarget, Option.bind_some] at hends
      cases hv : s.getLastCommittedVersion n.id with
      | none => exact ⟨s, returns_pure.mpr ⟨rfl, rfl⟩⟩
      | some v =>
        obtain ⟨s₁, hins, hadds⟩ := insertBaselineEntry_returns
          (e := ⟨baselineId, row.1.id, resolvedKey row.1 v⟩) hbaseline (List.mem_map_of_mem hlink)
        rw [hv] at hends
        have hbelow := hends _ rfl n.id rfl
        rw [← recordings_congr ⟨_, hadds⟩] at hbelow
        obtain ⟨s', hs'⟩ := hdescend n.id s₁ ⟨_, hadds⟩ hbelow
        exact ⟨s', returns_bind.mpr ⟨(), s₁, hins, hs'⟩⟩
  · rw [if_neg hmaster]
    obtain ⟨s', hins, -⟩ := insertBaselineEntry_returns
      (e := ⟨baselineId, row.1.id, row.1.targetKey⟩) hbaseline (List.mem_map_of_mem hlink)
    exact ⟨s', hins⟩

theorem forM_recordLink_returns {depth : Nat} (rows : List (LinkRow × Option NodeRow)) {s : Db}
    (hbaseline : baselineId ∈ s.baselines.map (·.id)) (hlinks : ∀ row ∈ rows, row.1 ∈ s.links)
    (hdescend : ∀ nodeId (s₁ : Db), OnlyEntries s s₁ →
      EndsWithin (s₁.recordings env) Recording.below depth nodeId →
        ∃ s', Returns (resolveAndRecord env baselineId depth nodeId) s₁ () s')
    (hends : ∀ e ∈ rows.filterMap (s.recordingOf env), ∀ b, e.below = some b →
      EndsWithin (s.recordings env) Recording.below depth b) :
    ∃ s', Returns (rows.forM (recordLink env baselineId (resolveAndRecord env baselineId depth)))
      s ⟨⟩ s' := by
  induction rows generalizing s with
  | nil => exact ⟨s, returns_forM_nil.mpr rfl⟩
  | cons row rows ih =>
    have hrowEnds : ∀ e ∈ s.recordingOf env row, ∀ b, e.below = some b →
        EndsWithin (s.recordings env) Recording.below depth b := by
      intro e he
      refine hends e ?_
      rw [List.mem_filterMap]
      exact ⟨row, List.mem_cons_self, he⟩
    obtain ⟨s₁, hrow⟩ := recordLink_returns hbaseline (hlinks row List.mem_cons_self) hdescend hrowEnds
    -- the rest of the rows is walked in a store with more entries, and the same otherwise
    have honly : OnlyEntries s s₁ := onlyEntries_recordLink onlyEntries_resolveAndRecord hrow
    have hrowsEnds : ∀ e ∈ rows.filterMap (s₁.recordingOf env), ∀ b, e.below = some b →
        EndsWithin (s₁.recordings env) Recording.below depth b := by
      rw [recordings_congr honly]
      intro e he
      refine hends e ?_
      obtain ⟨r, hr, hre⟩ := List.mem_filterMap.mp he
      obtain ⟨entries, hs₁⟩ := honly
      rw [hs₁] at hre
      exact List.mem_filterMap.mpr ⟨r, List.mem_cons_of_mem _ hr, hre⟩
    obtain ⟨s', hs'⟩ := ih (s := s₁) (by obtain ⟨_, hs₁⟩ := honly; rw [hs₁]; exact hbaseline)
      (by
        obtain ⟨_, hs₁⟩ := honly
        rw [hs₁]
        exact fun r hr => hlinks r (List.mem_cons_of_mem _ hr))
      (fun nodeId s₂ honly₂ => hdescend nodeId s₂ (honly.trans honly₂)) hrowsEnds
    exact ⟨s', returns_forM_cons.mpr ⟨s₁, hrow, hs'⟩⟩

/-- **A walk that comes to an end returns.** -/
theorem resolveAndRecord_returns {depth : Nat} {nodeId : Uuid} {s : Db}
    (hbaseline : baselineId ∈ s.baselines.map (·.id))
    (hends : EndsWithin (s.recordings env) Recording.below depth nodeId) :
    ∃ s', Returns (resolveAndRecord env baselineId depth nodeId) s () s' := by
  induction depth generalizing nodeId s with
  | zero => exact hends.elim
  | succ depth ih =>
    simp only [resolveAndRecord, returns_bind, returns_query, and_assoc, exists_and_left,
      exists_eq_left]
    refine forM_recordLink_returns _ hbaseline ?_ ?_ hends
    · intro row hrow
      obtain ⟨l, hl, hrow⟩ := List.mem_flatMap.mp hrow
      have hsame : row.1 = l := by
        split at hrow
        · rw [List.mem_singleton.mp hrow]
        · obtain ⟨n, -, rfl⟩ := List.mem_map.mp hrow
          rfl
      rw [hsame]
      exact List.mem_of_mem_filter hl
    · rintro nodeId s₁ ⟨_, hs₁⟩ hends₁
      refine ih ?_ hends₁
      rw [hs₁]
      exact hbaseline

end PlmCore.Psm
