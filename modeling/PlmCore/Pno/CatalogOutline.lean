/-
The registration cut down to the shape of the scopes, which `Scopes` follows, is the registration
with the descriptions and the value sources left out: both accept the same batches and leave tables
that correspond.
-/
import PlmCore.Pno.Catalog
import PlmCore.Pno.ScopeForest

set_option autoImplicit false

namespace PlmCore.Pno.Catalog

open PlmCore.Lib

/-- The record of a row. -/
def ScopeRow.record (row : ScopeRow) (code : String) : ScopeRecord :=
  ⟨code, row.parent_scope_code, row.definition_hash, row.owner_service, row.keys.map (·.name)⟩

/-- The records have the scopes of the tables, in their shape. -/
def Outlines (rs : Records) (t : ScopeTables) : Prop :=
  ∀ code, rs.get code = (t.permission_scope code).map (·.record code)

variable {sha256 : String → String} {service_code instance_id : String} {now : Nat}
  {rs : Records} {t : ScopeTables} {registered : String → Bool} {resolved : List String}
  {scopes : List ScopeRegistration}

/-! ## The sort -/

theorem topological_pass_outline (hres : ∀ c, c ∈ resolved ↔ registered c = true) :
    (topological_pass resolved (scopes.map (·.outline))).2 =
        ((sortPass (·.scope_code) (·.parent_scope_code) registered scopes).2.1.map (·.outline),
          (sortPass (·.scope_code) (·.parent_scope_code) registered scopes).2.2.map (·.outline)) ∧
      ∀ c, c ∈ (topological_pass resolved (scopes.map (·.outline))).1 ↔
        (sortPass (·.scope_code) (·.parent_scope_code) registered scopes).1 c = true := by
  induction scopes generalizing resolved registered with
  | nil => exact ⟨rfl, hres⟩
  | cons s rest ih =>
    have hneed : s.outline.parent_scope_code.all (· ∈ resolved) = s.parent_scope_code.all registered := by
      cases hp : s.parent_scope_code with
      | none => simp [ScopeRegistration.outline, hp]
      | some p => simp [ScopeRegistration.outline, hp, hres]
    rw [List.map_cons]
    unfold topological_pass sortPass
    rw [hneed]
    by_cases hready : s.parent_scope_code.all registered = true
    · rw [if_pos hready, if_pos hready]
      have hres' : ∀ c, c ∈ s.outline.scope_code :: resolved ↔
          (decide (c = s.scope_code) || registered c) = true := by
        intro c
        rw [List.mem_cons, hres, Bool.or_eq_true, decide_eq_true_eq]
        rfl
      obtain ⟨hlists, hcodes⟩ := ih hres'
      refine ⟨?_, hcodes⟩
      dsimp only
      rw [congrArg Prod.fst hlists, congrArg Prod.snd hlists]
      rfl
    · rw [if_neg hready, if_neg hready]
      obtain ⟨hlists, hcodes⟩ := ih hres
      refine ⟨?_, hcodes⟩
      dsimp only
      rw [congrArg Prod.fst hlists, congrArg Prod.snd hlists]
      rfl

/-- The sort of some outlines by the result of their first pass. -/
theorem topological_sort_succ {passes : Nat} {outlines : List Pno.ScopeRegistration}
    (hne : outlines ≠ []) :
    Pno.topological_sort (passes + 1) resolved outlines =
      if (topological_pass resolved outlines).2.1 = [] then
        .error (.unresolvedParents ((topological_pass resolved outlines).2.2.map (·.scope_code)))
      else (Pno.topological_sort passes (topological_pass resolved outlines).1
        (topological_pass resolved outlines).2.2).map ((topological_pass resolved outlines).2.1 ++ ·) := by
  cases outlines with
  | nil => exact absurd rfl hne
  | cons s rest =>
    simp only [Pno.topological_sort]
    generalize topological_pass resolved (s :: rest) = result
    obtain ⟨resolved', taken, left⟩ := result
    cases taken with
    | nil => rfl
    | cons first taken => rw [if_neg (List.cons_ne_nil first taken)]

/-- Both sorts end alike. -/
theorem topological_sort_outline {passes : Nat} (hres : ∀ c, c ∈ resolved ↔ registered c = true) :
    Pno.topological_sort passes resolved (scopes.map (·.outline)) =
      match dependencySort (·.scope_code) (·.parent_scope_code) passes registered scopes with
      | .ok ordered => .ok (ordered.map (·.outline))
      | .error remaining => .error (.unresolvedParents (remaining.map (·.scope_code))) := by
  induction passes generalizing resolved registered scopes with
  | zero =>
    cases scopes with
    | nil => rfl
    | cons s rest =>
      simp only [Pno.topological_sort, dependencySort, List.map_cons, List.map_map]
      rfl
  | succ passes ih =>
    by_cases hne : scopes = []
    · rw [hne, dependencySort_nil]
      rfl
    obtain ⟨hlists, hcodes⟩ := @topological_pass_outline registered resolved scopes hres
    rw [topological_sort_succ (by simpa using hne), dependencySort_succ hne,
      congrArg Prod.fst hlists, congrArg Prod.snd hlists]
    dsimp only
    rw [ih hcodes]
    by_cases htaken : (sortPass (·.scope_code) (·.parent_scope_code) registered scopes).2.1 = []
    · rw [if_pos (List.map_eq_nil_iff.mpr htaken), if_pos htaken, List.map_map]
      rfl
    · rw [if_neg fun hnil => htaken (List.map_eq_nil_iff.mp hnil), if_neg htaken]
      cases dependencySort (fun s : ScopeRegistration => s.scope_code) (·.parent_scope_code) passes
          (sortPass (·.scope_code) (·.parent_scope_code) registered scopes).1
          (sortPass (·.scope_code) (·.parent_scope_code) registered scopes).2.2 with
      | error remaining => rfl
      | ok later => exact congrArg Except.ok (List.map_append).symm

/-! ## The loop -/

/-- The batches under way correspond. -/
structure Batch.Outlined (b : Batch) (outline : Pno.Batch) : Prop where
  catalog : Outlines outline.catalog b.tables
  conflicts : outline.conflicts = b.conflicts.map (·.scope_code)
  any_change : outline.any_change = b.any_change

/-- The record of a row that is written is the row's. -/
theorem Outlines.insert (h : Outlines rs t) (code : String) (row : ScopeRow) :
    Outlines (rs.insert (row.record code)) (t.set_scope code (some row)) := by
  intro c
  have hwritten : (t.set_scope code (some row)).permission_scope c =
      if c = code then some row else t.permission_scope c := Function.update_apply ..
  rw [Records.get_insert, h c, hwritten]
  by_cases hc : c = code
  · rw [if_pos hc, hc]
    exact if_pos rfl
  · rw [if_neg hc]
    exact if_neg hc

/-- Value sources are not in the outline. -/
theorem Batch.Outlined.refresh {b : Batch} {outline : Pno.Batch} (h : b.Outlined outline)
    (s : ScopeRegistration) :
    (Batch.refresh service_code instance_id now b s).Outlined
      { outline with any_change := outline.any_change || !s.outline.value_sources.isEmpty } := by
  rw [Batch.refresh_eq]
  refine ⟨h.catalog, h.conflicts, ?_⟩
  rw [← h.any_change]
  simp [ScopeRegistration.outline, List.isEmpty_map]

/-- **One scope** is registered alike. -/
theorem Batch.Outlined.register {b : Batch} {outline : Pno.Batch} (h : b.Outlined outline)
    (s : ScopeRegistration) :
    (∀ b', b.register sha256 service_code instance_id now s = .ok b' →
      ∃ outline', outline.register sha256 service_code s.outline = .ok outline' ∧
        b'.Outlined outline') ∧
    ∀ e, b.register sha256 service_code instance_id now s = .error e →
      ∃ e', outline.register sha256 service_code s.outline = .error e' := by
  have hkeys : s.outline.keys = s.keys.map (·.name) := rfl
  have hrow := h.catalog s.scope_code
  have hget : outline.catalog.get s.outline.scope_code =
      (b.tables.permission_scope s.scope_code).map (·.record s.scope_code) := hrow
  -- both read the row at the code of the scope, and take the same branch of it
  unfold Batch.register Pno.Batch.register
  rw [hget]
  cases hexisting : b.tables.permission_scope s.scope_code with
  | none =>
    dsimp only
    rw [Option.map_none]
    dsimp only
    -- a new scope: its keys are inserted in both, or in neither
    unfold ScopeTables.insert_scope
    rw [hkeys]
    by_cases hnodup : (s.keys.map (·.name)).Nodup
    · rw [if_pos hnodup, if_pos hnodup]
      refine ⟨fun b' hb' => ?_, fun e he => by cases he⟩
      cases hb'
      refine ⟨_, rfl, ?_⟩
      have hinsert := h.catalog.insert s.scope_code
        ⟨s.parent_scope_code, s.description, definition_hash sha256 s, service_code, now, s.keys⟩
      have hnew : Batch.Outlined ⟨_, b.conflicts, true⟩ ⟨_, outline.conflicts, true⟩ :=
          ⟨hinsert, h.conflicts, rfl⟩
      exact hnew.refresh s
    · rw [if_neg hnodup, if_neg hnodup]
      exact ⟨fun b' hb' => absurd hb' (by simp), fun e _ => ⟨_, rfl⟩⟩
  | some row =>
    dsimp only
    rw [Option.map_some]
    dsimp only
    have hhash : (row.record s.scope_code).definition_hash = row.definition_hash := rfl
    have howner : (row.record s.scope_code).owner_service = row.owner_service := rfl
    rw [hhash, howner]
    by_cases hsame : row.definition_hash = definition_hash sha256 s
    · have hsame' : row.definition_hash = Pno.definition_hash sha256 s.outline := hsame
      rw [if_neg (not_not_intro hsame), if_pos hsame']
      refine ⟨fun b' hb' => ?_, fun e he => by cases he⟩
      cases hb'
      exact ⟨_, rfl, h.refresh s⟩
    · have hsame' : ¬ row.definition_hash = Pno.definition_hash sha256 s.outline := hsame
      rw [if_pos hsame, if_neg hsame']
      -- the owner writes it again, anybody else adds a conflict
      by_cases hmine : row.owner_service = service_code
      · rw [if_pos hmine, if_pos hmine]
        unfold ScopeTables.update_scope
        rw [hkeys]
        by_cases hnodup : (s.keys.map (·.name)).Nodup
        · rw [if_pos hnodup, if_pos hnodup, hexisting]
          refine ⟨fun b' hb' => ?_, fun e he => by cases he⟩
          cases hb'
          refine ⟨_, rfl, ?_⟩
          have hinsert := h.catalog.insert s.scope_code ⟨s.parent_scope_code, s.description,
            definition_hash sha256 s, row.owner_service, row.registered_at, s.keys⟩
          have hnew : Batch.Outlined ⟨_, b.conflicts, true⟩ ⟨_, outline.conflicts, true⟩ :=
          ⟨hinsert, h.conflicts, rfl⟩
          rw [← hmine]
          exact hnew.refresh s
        · rw [if_neg hnodup, if_neg hnodup]
          exact ⟨fun b' hb' => absurd hb' (by simp), fun e _ => ⟨_, rfl⟩⟩
      · rw [if_neg hmine, if_neg hmine]
        refine ⟨fun b' hb' => ?_, fun e he => by cases he⟩
        cases hb'
        refine ⟨_, rfl, h.catalog, ?_, h.any_change⟩
        dsimp only
        rw [h.conflicts, List.map_append]
        rfl

/-- The loops end alike. -/
theorem Batch.Outlined.foldlM {b : Batch} {outline : Pno.Batch} (h : b.Outlined outline)
    {ordered : List ScopeRegistration} :
    (∀ b', ordered.foldlM (Batch.register sha256 service_code instance_id now) b = .ok b' →
      ∃ outline', (ordered.map (·.outline)).foldlM (Pno.Batch.register sha256 service_code) outline =
        .ok outline' ∧ b'.Outlined outline') ∧
    ∀ e, ordered.foldlM (Batch.register sha256 service_code instance_id now) b = .error e →
      ∃ e', (ordered.map (·.outline)).foldlM (Pno.Batch.register sha256 service_code) outline =
        .error e' := by
  induction ordered generalizing b outline with
  | nil =>
    refine ⟨fun b' hb' => ?_, fun e he => by cases he⟩
    cases hb'
    exact ⟨outline, rfl, h⟩
  | cons s rest ih =>
    rw [List.map_cons, List.foldlM_cons, List.foldlM_cons]
    obtain ⟨hok, herror⟩ :=
      @Batch.Outlined.register sha256 service_code instance_id now b outline h s
    cases hs : b.register sha256 service_code instance_id now s with
    | error e =>
      obtain ⟨e', he'⟩ := herror e hs
      rw [he']
      refine ⟨fun b' hb' => ?_, fun e _ => ⟨e', rfl⟩⟩
      cases hb'
    | ok b' =>
      obtain ⟨outline', ho, h'⟩ := hok b' hs
      rw [ho]
      exact ih h'

/-- **The outline of a registration**: a batch is accepted with its descriptions and value sources
exactly when it is without them, with the same answer, and what it leaves still corresponds. -/
theorem register_all_outline (h : Outlines rs t) :
    (∀ t' c, register_all sha256 service_code instance_id now t scopes = .ok (t', c) →
      ∃ rs', Pno.register_all sha256 rs service_code (scopes.map (·.outline)) = .ok (rs', c) ∧
        Outlines rs' t') ∧
    ∀ e, register_all sha256 service_code instance_id now t scopes = .error e →
      ∃ e', Pno.register_all sha256 rs service_code (scopes.map (·.outline)) = .error e' := by
  have hres : ∀ c, c ∈ rs.map (·.code) ↔ (t.permission_scope c).isSome = true := by
    intro c
    have hget : (rs.get c).isSome = true ↔ c ∈ rs.map (·.code) := by
      simp [Records.get, List.mem_map]
    rw [← hget, h c, Option.isSome_map]
  have hstart : Batch.Outlined ⟨t, [], false⟩ ⟨rs, [], false⟩ := ⟨h, rfl, rfl⟩
  unfold register_all Pno.register_all topological_sort
  -- both sort by code and parent, so in the same order
  rw [List.length_map, topological_sort_outline hres]
  cases dependencySort (fun s : ScopeRegistration => s.scope_code) (·.parent_scope_code) scopes.length
      (fun code => (t.permission_scope code).isSome) scopes with
  | error remaining => exact ⟨fun t' c hw => absurd hw (by simp), fun e _ => ⟨_, rfl⟩⟩
  | ok ordered =>
    dsimp only
    obtain ⟨hok, herror⟩ :=
      @Batch.Outlined.foldlM sha256 service_code instance_id now _ _ hstart ordered
    cases hloop : ordered.foldlM (Batch.register sha256 service_code instance_id now) ⟨t, [], false⟩ with
    | error e =>
      obtain ⟨e', he'⟩ := herror e hloop
      rw [he']
      exact ⟨fun t' c hw => absurd hw (by simp), fun e _ => ⟨e', rfl⟩⟩
    | ok b =>
      obtain ⟨outline, ho, hb⟩ := hok b hloop
      rw [ho]
      dsimp only
      rw [hb.conflicts, hb.any_change]
      -- a conflict makes both fail after the loop
      by_cases hnone : b.conflicts = []
      · rw [if_pos hnone, hnone]
        refine ⟨fun t' c hw => ?_, fun e he => by cases he⟩
        cases hw
        exact ⟨_, rfl, hb.catalog⟩
      · rw [if_neg hnone, if_neg fun hnil => hnone (List.map_eq_nil_iff.mp hnil)]
        exact ⟨fun t' c hw => absurd hw (by simp), fun e _ => ⟨_, rfl⟩⟩

end PlmCore.Pno.Catalog
