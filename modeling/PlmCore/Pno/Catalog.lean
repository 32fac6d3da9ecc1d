/-
The registration of scopes with all it writes (`scopes.rs`): the rows of `permission_scope` with
their descriptions and keys, those of `permission_scope_value_source`, and what the handler does
when something changed. `Scopes` has the same registration cut down to the shape of the scopes.

A table is a function from its primary key. The surrogate id of a value source is left out, and the
rows of `permission_scope_key` stand in the row of their scope.
-/
import Mathlib.Logic.Function.Basic
import PlmCore.Lib.DependencySort
import PlmCore.Pno.Scopes

set_option autoImplicit false

namespace PlmCore.Pno.Catalog

open PlmCore.Lib

/-! ## The wire -/

structure ScopeKeyDefinition where
  name : String
  description : Option String
  deriving DecidableEq

structure ScopeValueSourceDefinition where
  key_name : String
  endpoint_path : String
  deriving DecidableEq

structure ScopeRegistration where
  scope_code : String
  parent_scope_code : Option String
  description : Option String
  keys : List ScopeKeyDefinition
  value_sources : List ScopeValueSourceDefinition
  deriving DecidableEq

structure ScopeRegistrationRequest where
  service_code : String
  instance_id : String
  scopes : List ScopeRegistration
  deriving DecidableEq

structure ScopeConflict where
  scope_code : String
  existing_definition_hash : String
  submitted_definition_hash : String
  existing_owner_service : String
  deriving DecidableEq

/-- The errors of a registration; the last one is a failed statement. -/
inductive ApiError where
  | badRequest (message : String)
  | conflict (message : String)
  | internal
  deriving DecidableEq

/-! ## The tables -/

/-- A row of `permission_scope` with its keys in `key_position` order. -/
structure ScopeRow where
  parent_scope_code : Option String
  description : Option String
  definition_hash : String
  owner_service : String
  registered_at : Nat
  keys : List ScopeKeyDefinition
  deriving DecidableEq

structure ValueSourceRow where
  endpoint_path : String
  instance_id : String
  last_seen_at : Nat
  deriving DecidableEq

/-- Both tables, by `scope_code` and by `(scope_code, key_name, service_code)`. -/
@[ext]
structure ScopeTables where
  permission_scope : String → Option ScopeRow
  permission_scope_value_source : String → String → String → Option ValueSourceRow

/-! ## The statements -/

/-- What the definition hash is made of. -/
def ScopeRegistration.outline (s : ScopeRegistration) : Pno.ScopeRegistration :=
  ⟨s.scope_code, s.parent_scope_code, s.keys.map (·.name), s.value_sources.map (·.key_name)⟩

namespace ScopeTables

variable (t : ScopeTables)

/-- The row of a scope is written. -/
def set_scope (code : String) (row : Option ScopeRow) : ScopeTables :=
  ⟨Function.update t.permission_scope code row, t.permission_scope_value_source⟩

/-- `uq_permission_scope_key_name` refuses a key name twice. -/
def insert_scope (s : ScopeRegistration) (owner_service hash : String) (now : Nat) :
    Except ApiError ScopeTables :=
  if (s.keys.map (·.name)).Nodup then
    .ok (t.set_scope s.scope_code
      (some ⟨s.parent_scope_code, s.description, hash, owner_service, now, s.keys⟩))
  else .error .internal

/-- The owner and the time of the first registration stay. -/
def update_scope (s : ScopeRegistration) (hash : String) : Except ApiError ScopeTables :=
  if (s.keys.map (·.name)).Nodup then
    .ok (t.set_scope s.scope_code ((t.permission_scope s.scope_code).map fun row =>
      ⟨s.parent_scope_code, s.description, hash, row.owner_service, row.registered_at, s.keys⟩))
  else .error .internal

/-- The UPDATE, or the INSERT when it met no row: either way the row has these columns. -/
def upsert_value_source (scope_code : String) (vs : ScopeValueSourceDefinition)
    (service_code instance_id : String) (now : Nat) : ScopeTables :=
  { t with permission_scope_value_source := fun scope key service =>
      if scope = scope_code ∧ key = vs.key_name ∧ service = service_code then
        some ⟨vs.endpoint_path, instance_id, now⟩
      else t.permission_scope_value_source scope key service }

end ScopeTables

/-- `topological_sort`; `registered` are the codes in `permission_scope`. -/
def topological_sort (registered : String → Bool) (scopes : List ScopeRegistration) :
    Except ApiError (List ScopeRegistration) :=
  match dependencySort (·.scope_code) (·.parent_scope_code) scopes.length registered scopes with
  | .ok ordered => .ok ordered
  | .error remaining => .error (.badRequest ("Scope registration: unresolved parent dependencies for "
      ++ ", ".intercalate (remaining.map (·.scope_code))))

/-! ## The registration -/

section Registration

variable (sha256 : String → String) (service_code instance_id : String) (now : Nat)

def definition_hash (s : ScopeRegistration) : String := Pno.definition_hash sha256 s.outline

/-- A batch under way in its transaction. -/
structure Batch where
  tables : ScopeTables
  conflicts : List ScopeConflict
  any_change : Bool

/-- The value sources of a scope, refreshed or new. -/
def Batch.refresh (b : Batch) (s : ScopeRegistration) : Batch :=
  if s.value_sources.isEmpty then b
  else
    ⟨s.value_sources.foldl
        (fun t vs => t.upsert_value_source s.scope_code vs service_code instance_id now) b.tables,
      b.conflicts, true⟩

/-- One turn of the loop of `register_all`. -/
def Batch.register (b : Batch) (s : ScopeRegistration) : Except ApiError Batch :=
  let submitted_hash := definition_hash sha256 s
  match b.tables.permission_scope s.scope_code with
  | none =>
    match b.tables.insert_scope s service_code submitted_hash now with
    | .error e => .error e
    | .ok t => .ok (Batch.refresh service_code instance_id now ⟨t, b.conflicts, true⟩ s)
  | some existing =>
    if existing.definition_hash ≠ submitted_hash then
      if existing.owner_service = service_code then
        match b.tables.update_scope s submitted_hash with
        | .error e => .error e
        | .ok t => .ok (Batch.refresh service_code instance_id now ⟨t, b.conflicts, true⟩ s)
      else
        .ok ⟨b.tables, b.conflicts ++ [⟨s.scope_code, existing.definition_hash, submitted_hash,
          existing.owner_service⟩], b.any_change⟩
    else .ok (Batch.refresh service_code instance_id now b s)

/-- `register_all`: the tables after its commit and whether anything changed. -/
def register_all (t : ScopeTables) (scopes : List ScopeRegistration) :
    Except ApiError (ScopeTables × Bool) :=
  match topological_sort (fun code => (t.permission_scope code).isSome) scopes with
  | .error e => .error e
  | .ok ordered =>
    match ordered.foldlM (Batch.register sha256 service_code instance_id now) ⟨t, [], false⟩ with
    | .error e => .error e
    | .ok b =>
      if b.conflicts = [] then .ok (b.tables, b.any_change)
      else .error (.conflict ("Scope registration conflicts: " ++ toString b.conflicts.length))

end Registration

/-! ## One scope, accepted -/

section Accepted

variable (sha256 : String → String) (service_code instance_id : String) (now : Nat)

/-- The row that a scope leaves, and whether it was written, unless the scope is refused. -/
def decide_row (s : ScopeRegistration) : Option ScopeRow → Option (ScopeRow × Bool)
  | none =>
    if (s.keys.map (·.name)).Nodup then
      some (⟨s.parent_scope_code, s.description, definition_hash sha256 s, service_code, now, s.keys⟩,
        true)
    else none
  | some row =>
    if row.definition_hash = definition_hash sha256 s then some (row, false)
    else if row.owner_service = service_code ∧ (s.keys.map (·.name)).Nodup then
      some (⟨s.parent_scope_code, s.description, definition_hash sha256 s, row.owner_service,
        row.registered_at, s.keys⟩, true)
    else none

/-- The value sources that a scope leaves at its code. -/
def refresh_sources (s : ScopeRegistration) (sources : String → String → Option ValueSourceRow) :
    String → String → Option ValueSourceRow :=
  s.value_sources.foldl (fun sources vs key service =>
    if key = vs.key_name ∧ service = service_code then some ⟨vs.endpoint_path, instance_id, now⟩
    else sources key service) sources

/-- What a scope that is not refused leaves, and whether anything changed: it reads and writes
what the tables have at its code. -/
def accept (w : ScopeTables × Bool) (s : ScopeRegistration) : Option (ScopeTables × Bool) :=
  (decide_row sha256 service_code now s (w.1.permission_scope s.scope_code)).map fun d =>
    (⟨Function.update w.1.permission_scope s.scope_code (some d.1),
      Function.update w.1.permission_scope_value_source s.scope_code
        (refresh_sources service_code instance_id now s
          (w.1.permission_scope_value_source s.scope_code))⟩,
      w.2 || d.2 || !s.value_sources.isEmpty)

/-- A list of scopes none of which is refused. -/
def accept_all (w : ScopeTables × Bool) (scopes : List ScopeRegistration) : Option (ScopeTables × Bool) :=
  scopes.foldl (fun w s => w.bind fun w => accept sha256 service_code instance_id now w s) (some w)

variable {sha256 service_code instance_id now} {b b' : Batch} {s : ScopeRegistration}

/-- The upserts write at one code. -/
theorem foldl_upsert {sources : List ScopeValueSourceDefinition} {code : String} (t : ScopeTables) :
    sources.foldl (fun t vs => t.upsert_value_source code vs service_code instance_id now) t =
      ⟨t.permission_scope, Function.update t.permission_scope_value_source code
        (sources.foldl (fun at_code vs key service =>
          if key = vs.key_name ∧ service = service_code then some ⟨vs.endpoint_path, instance_id, now⟩
          else at_code key service) (t.permission_scope_value_source code))⟩ := by
  induction sources generalizing t with
  | nil => rw [List.foldl_nil, List.foldl_nil, Function.update_eq_self]
  | cons vs sources ih =>
    have hone : (t.upsert_value_source code vs service_code instance_id now).permission_scope_value_source =
        Function.update t.permission_scope_value_source code fun key service =>
          if key = vs.key_name ∧ service = service_code then some ⟨vs.endpoint_path, instance_id, now⟩
          else t.permission_scope_value_source code key service := by
      funext scope key service
      by_cases hscope : scope = code
      · rw [hscope, Function.update_self]
        simp [ScopeTables.upsert_value_source]
      · rw [Function.update_of_ne hscope]
        simp [ScopeTables.upsert_value_source, hscope]
    rw [List.foldl_cons, List.foldl_cons, ih, hone, Function.update_self, Function.update_idem]
    rfl

/-- The refresh of a batch, by code. -/
theorem Batch.refresh_eq : Batch.refresh service_code instance_id now b s =
    ⟨⟨b.tables.permission_scope, Function.update b.tables.permission_scope_value_source s.scope_code
      (refresh_sources service_code instance_id now s
        (b.tables.permission_scope_value_source s.scope_code))⟩,
      b.conflicts, b.any_change || !s.value_sources.isEmpty⟩ := by
  unfold Batch.refresh refresh_sources
  by_cases hempty : s.value_sources = []
  · rw [hempty]
    simp
  · rw [if_neg (by simpa using hempty), foldl_upsert]
    simp [hempty]

/-- What a scope can have decided of it: it is new, it is there with its hash, or it is there with
another hash and its owner may write it. -/
theorem decide_row_cases {existing : Option ScopeRow} {d : ScopeRow × Bool}
    (h : decide_row sha256 service_code now s existing = some d) :
    (existing = none ∧ (s.keys.map (·.name)).Nodup ∧
      d = (⟨s.parent_scope_code, s.description, definition_hash sha256 s, service_code, now, s.keys⟩,
        true)) ∨
    (∃ row, existing = some row ∧ row.definition_hash = definition_hash sha256 s ∧ d = (row, false)) ∨
    ∃ row, existing = some row ∧ row.definition_hash ≠ definition_hash sha256 s ∧
      row.owner_service = service_code ∧ (s.keys.map (·.name)).Nodup ∧
      d = (⟨s.parent_scope_code, s.description, definition_hash sha256 s, row.owner_service,
        row.registered_at, s.keys⟩, true) := by
  unfold decide_row at h
  cases existing with
  | none =>
    obtain ⟨hkeys, hd⟩ := Option.ite_none_right_eq_some.mp h
    exact .inl ⟨rfl, hkeys, (Option.some.inj hd).symm⟩
  | some row =>
    dsimp only at h
    by_cases hsame : row.definition_hash = definition_hash sha256 s
    · rw [if_pos hsame] at h
      exact .inr (.inl ⟨row, rfl, hsame, (Option.some.inj h).symm⟩)
    · rw [if_neg hsame] at h
      obtain ⟨⟨howner, hkeys⟩, hd⟩ := Option.ite_none_right_eq_some.mp h
      exact .inr (.inr ⟨row, rfl, hsame, howner, hkeys, (Option.some.inj hd).symm⟩)

/-- **A scope that is accepted** is registered as `accept` says. -/
theorem register_of_accept {w : ScopeTables × Bool}
    (h : accept sha256 service_code instance_id now (b.tables, b.any_change) s = some w) :
    b.register sha256 service_code instance_id now s = .ok ⟨w.1, b.conflicts, w.2⟩ := by
  obtain ⟨d, hd, rfl⟩ := Option.map_eq_some_iff.mp h
  unfold Batch.register
  obtain ⟨hrow, hkeys, rfl⟩ | ⟨row, hrow, hsame, rfl⟩ | ⟨row, hrow, hother, howner, hkeys, rfl⟩ :=
    decide_row_cases hd
  -- a new scope
  · rw [hrow]
    unfold ScopeTables.insert_scope
    dsimp only
    rw [if_pos hkeys]
    dsimp only
    rw [Batch.refresh_eq]
    simp [ScopeTables.set_scope]
  -- a scope that stays as it is
  · rw [hrow]
    dsimp only
    rw [if_neg (not_not_intro hsame), Batch.refresh_eq, ← hrow, Function.update_eq_self]
    simp
  -- a scope that its owner writes again
  · rw [hrow]
    unfold ScopeTables.update_scope
    dsimp only
    rw [if_pos hother, if_pos howner, if_pos hkeys]
    dsimp only
    rw [Batch.refresh_eq, hrow]
    simp [ScopeTables.set_scope]

/-- **A scope that is not accepted** ends the batch or is one more conflict. -/
theorem register_of_refused
    (h : accept sha256 service_code instance_id now (b.tables, b.any_change) s = none) :
    b.register sha256 service_code instance_id now s = .error .internal ∨
      ∃ c, b.register sha256 service_code instance_id now s =
        .ok ⟨b.tables, b.conflicts ++ [c], b.any_change⟩ := by
  have hd := Option.map_eq_none_iff.mp h
  dsimp only at hd
  unfold Batch.register
  cases hrow : b.tables.permission_scope s.scope_code with
  | none =>
    rw [hrow] at hd
    unfold decide_row at hd
    dsimp only at hd ⊢
    unfold ScopeTables.insert_scope
    by_cases hkeys : (s.keys.map (·.name)).Nodup
    · rw [if_pos hkeys] at hd
      cases hd
    · rw [if_neg hkeys]
      exact .inl rfl
  | some row =>
    rw [hrow] at hd
    unfold decide_row at hd
    dsimp only at hd ⊢
    by_cases hsame : row.definition_hash = definition_hash sha256 s
    · rw [if_pos hsame] at hd
      cases hd
    · rw [if_neg hsame] at hd
      rw [if_pos hsame]
      by_cases howner : row.owner_service = service_code
      · rw [if_pos howner]
        unfold ScopeTables.update_scope
        by_cases hkeys : (s.keys.map (·.name)).Nodup
        · rw [if_pos ⟨howner, hkeys⟩] at hd
          cases hd
        · rw [if_neg hkeys]
          exact .inl rfl
      · rw [if_neg howner]
        exact .inr ⟨_, rfl⟩

end Accepted

/-- What `register` leaves: the tables, and whether it loads the mirror anew and publishes
`AUTHORIZATION_CHANGED`. -/
@[ext]
structure Registered where
  tables : ScopeTables
  reloads : Bool
  broadcasts : Bool

/-- `register`. -/
def register (sha256 : String → String) (now : Nat) (t : ScopeTables) (req : ScopeRegistrationRequest) :
    Except ApiError Registered :=
  if req.scopes.isEmpty then .ok ⟨t, false, false⟩
  else
    match register_all sha256 req.service_code req.instance_id now t req.scopes with
    | .error e => .error e
    | .ok (t', changed) => .ok ⟨t', changed, changed⟩

end PlmCore.Pno.Catalog
