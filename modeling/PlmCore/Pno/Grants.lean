/-
The grants of pno-api (`authorization.rs`): the tables `authorization_policy` and
`authorization_policy_key`, the validation and the fingerprint of a submitted grant, and the
rows a snapshot carries.
-/
import PlmCore.Platform.Authz
import PlmCore.Pno.Scopes
import PlmCore.Spe.Gateway

set_option autoImplicit false

namespace PlmCore.Pno

open PlmCore.Platform (PolicyRow)

/-- A submitted key map, a `BTreeMap<String, String>` in the order of its keys. -/
abbrev KeyMap := List (String × String)

def KeyMap.get (keys : KeyMap) (name : String) : Option String :=
  (keys.find? fun e => e.1 = name).map (·.2)

/-- What a request to add or remove a grant names. -/
structure GrantRequest where
  permission_code : String
  scope_code : String
  role_id : String
  project_space_id : String
  keys : KeyMap
  deriving DecidableEq

/-- A row of `authorization_policy` with its rows of `authorization_policy_key`. -/
structure Grant where
  id : Nat
  permission_code : String
  scope_code : String
  role_id : String
  project_space_id : String
  keys_fingerprint : String
  keys : KeyMap
  deriving DecidableEq

/-- Why `validate` answers 400. -/
inductive ValidationError where
  | unknownScope (scope : String)
  | wrongKeys (scope : String) (expected got : List String)
  | missingKey (scope name : String)
  | stackOverflow
  deriving DecidableEq

/-- `validate` against the mirror. -/
def validate (registry : Records) (depth : Nat) (scope_code : String) (keys : KeyMap) :
    Except ValidationError Unit :=
  match registry.get scope_code with
  | none => .error (.unknownScope scope_code)
  | some _ =>
    match registry.effective_keys depth scope_code with
    | none => .error .stackOverflow
    | some expected =>
      if expected.length ≠ keys.length then
        .error (.wrongKeys scope_code expected (keys.map (·.1)))
      else
        match expected.find? fun name => (keys.get name).all fun v => Spe.trim v.toList = [] with
        | some name => .error (.missingKey scope_code name)
        | none => .ok ()

/-- `compute_fingerprint`; `sha256` gives the digest in hex. -/
def compute_fingerprint (sha256 : String → String) (registry : Records) (depth : Nat)
    (scope_code : String) (keys : KeyMap) : Option String :=
  (registry.effective_keys depth scope_code).map fun ordered =>
    if ordered = [] then String.ofList (List.replicate 64 '0')
    else sha256 ("|".intercalate (ordered.map fun n => n ++ "=" ++ (keys.get n).getD ""))

/-- What `add_grant` and `remove_grant` begin with. -/
def admission (sha256 : String → String) (registry : Records) (depth : Nat) (g : GrantRequest) :
    Option String :=
  match validate registry depth g.scope_code g.keys with
  | .error _ => none
  | .ok () => compute_fingerprint sha256 registry depth g.scope_code g.keys

/-- The columns of `uq_authorization_policy`. -/
def Grant.matches (g : Grant) (r : GrantRequest) (fingerprint : String) : Bool :=
  g.permission_code = r.permission_code ∧ g.scope_code = r.scope_code ∧ g.role_id = r.role_id
    ∧ g.project_space_id = r.project_space_id ∧ g.keys_fingerprint = fingerprint

/-- The row inserted for a grant, before its keys are. -/
def GrantRequest.row (r : GrantRequest) (id : Nat) (fingerprint : String) : Grant :=
  ⟨id, r.permission_code, r.scope_code, r.role_id, r.project_space_id, fingerprint, []⟩

/-- One INSERT into `authorization_policy_key`. -/
def insertKey (grants : List Grant) (id : Nat) (e : String × String) : List Grant :=
  grants.map fun g => if g.id = id then { g with keys := g.keys ++ [e] } else g

/-- One entry of `list_all_grants`. -/
def Grant.toRow (g : Grant) : PolicyRow where
  role_id := some g.role_id
  permission_code := some g.permission_code
  scope := some g.scope_code
  project_space_id := some g.project_space_id
  keys := g.keys.map fun e => (e.1, some e.2)

/-- `list_all_grants`. -/
def list_all_grants (grants : List Grant) : List PolicyRow := grants.map Grant.toRow

/-- The grant has a row for exactly these keys. -/
def Grant.HasKeys (g : Grant) (names : List String) : Prop :=
  ∀ name, name ∈ names ↔ name ∈ g.keys.map (·.1)

/-- The grant carries the keys that the catalog gives its scope. -/
def Grant.Whole (g : Grant) (catalog : Records) (names : List String) : Prop :=
  catalog.Collects g.scope_code names ∧ g.HasKeys names

end PlmCore.Pno
