/-
The context of a user, `get_user_context` of `users.rs`, and `my_global_permissions` of
`authorization.rs`.

The roles are those assigned in the project space that is asked for, and the service codes those
granted in it. The permission codes are read by role alone, and an administrator has those of the
whole catalog.
-/
import Mathlib.Data.List.Dedup
import PlmCore.Pno.Grants

set_option autoImplicit false

namespace PlmCore.Pno

/-- A row of `pno_user`. -/
structure PnoUser where
  id : String
  username : Option String
  active : Bool
  is_admin : Bool
  default_project_space_id : Option String
  deriving DecidableEq

/-- A row of `user_role`. -/
structure UserRole where
  user_id : String
  role_id : String
  project_space_id : String
  deriving DecidableEq

/-- A row of `permission`. -/
structure PermissionRow where
  permission_code : String
  scope : String
  deriving DecidableEq

/-- The tables the two requests read. -/
structure PnoTables where
  users : List PnoUser
  user_roles : List UserRole
  permissions : List PermissionRow
  grants : List Grant
  deriving DecidableEq

/-- The answer of `get_user_context`. -/
structure UserContextView where
  user_id : String
  username : Option String
  is_admin : Bool
  role_ids : List String
  allowed_service_codes : List String
  default_project_space_id : Option String
  global_permissions : List String
  deriving DecidableEq

/-- `is_blank`. -/
def isBlank (s : Option String) : Bool := s.all fun v => Spe.trim v.toList = []

namespace PnoTables

variable (t : PnoTables)

/-- The roles a user holds, in one space or in any. -/
def role_ids (user_id : String) (project_space_id : Option String) : List String :=
  let held := t.user_roles.filter fun ur => ur.user_id = user_id ∧
    (isBlank project_space_id = true ∨ some ur.project_space_id = project_space_id)
  held.map (·.role_id)

/-- The GLOBAL permissions of the catalog. -/
def catalog_codes : List String :=
  (t.permissions.filter fun p => p.scope = "GLOBAL").map (·.permission_code)

/-- `list_permission_codes_for_roles`, without the order of the codes. -/
def list_permission_codes_for_roles (role_ids : List String) (is_admin : Bool) : List String :=
  if is_admin then t.catalog_codes
  else if role_ids = [] then []
  else ((t.grants.filter fun g => g.scope_code = "GLOBAL" ∧ g.role_id ∈ role_ids).map
    (·.permission_code)).dedup

/-- `resolve_allowed_service_codes`, without the order of the codes. -/
def resolve_allowed_service_codes (role_ids : List String) (is_admin : Bool)
    (project_space_id : Option String) : List String :=
  if is_admin = true ∨ role_ids = [] then []
  else
    let access := t.grants.filter fun g => g.permission_code = "SERVICE_ACCESS" ∧
      g.scope_code = "SERVICE" ∧ g.role_id ∈ role_ids ∧
      (isBlank project_space_id = true ∨ some g.project_space_id = project_space_id)
    ((access.flatMap fun g => g.keys.filter (·.1 = "service_code")).map (·.2)).dedup

/-- `get_user_context`; `none` is 404. -/
def get_user_context (user_id : String) (project_space_id : Option String) :
    Option UserContextView :=
  (t.users.find? fun u => u.id = user_id && u.active).map fun u =>
    let role_ids := t.role_ids user_id project_space_id
    { user_id := user_id
      username := u.username
      is_admin := u.is_admin
      role_ids := role_ids
      allowed_service_codes := t.resolve_allowed_service_codes role_ids u.is_admin project_space_id
      default_project_space_id := u.default_project_space_id
      global_permissions := t.list_permission_codes_for_roles role_ids u.is_admin }

/-- `my_global_permissions` for the roles and the flag of the caller's token; its queries are those
of `list_permission_codes_for_roles`. -/
def my_global_permissions : Option (List String × Bool) → List String
  | none => []
  | some (role_ids, is_admin) => t.list_permission_codes_for_roles role_ids is_admin

/-- A grant in the GLOBAL scope gives a code to one of the roles. -/
def Gives (g : Grant) (role_ids : List String) (code : String) : Prop :=
  g.scope_code = "GLOBAL" ∧ g.role_id ∈ role_ids ∧ g.permission_code = code

/-- Each GLOBAL grant of the roles is recorded for the space as well, as `add_grant_all_spaces`
leaves them. -/
def RecordedFor (space : String) (role_ids : List String) : Prop :=
  ∀ g ∈ t.grants, g.scope_code = "GLOBAL" → g.role_id ∈ role_ids →
    ∃ g' ∈ t.grants, g'.project_space_id = space ∧ Gives g' role_ids g.permission_code

/-- `t'` has the user, the roles assigned to the user in the space, the grants of these roles and
the catalog that `t` has. -/
structure AgreeFor (user_id space : String) (t' : PnoTables) : Prop where
  user : (t'.users.find? fun u => u.id = user_id && u.active) =
    t.users.find? fun u => u.id = user_id && u.active
  roles : (t'.user_roles.filter fun ur => ur.user_id = user_id ∧ ur.project_space_id = space) =
    t.user_roles.filter fun ur => ur.user_id = user_id ∧ ur.project_space_id = space
  grants : (t'.grants.filter fun g => g.role_id ∈ t.role_ids user_id (some space)) =
    t.grants.filter fun g => g.role_id ∈ t.role_ids user_id (some space)
  catalog : t'.permissions = t.permissions

variable {t} {t' : PnoTables} {role_ids : List String} {code user_id space : String}
  {view : UserContextView}

/-- A user that is no administrator has the codes of the GLOBAL grants of the roles. -/
theorem mem_list_permission_codes :
    code ∈ t.list_permission_codes_for_roles role_ids false ↔
      ∃ g ∈ t.grants, Gives g role_ids code := by
  unfold list_permission_codes_for_roles
  rw [if_neg (by decide)]
  split
  · rename_i hnil
    simp [Gives, hnil]
  · simp [Gives, and_assoc]

/-- In a space, the roles assigned there. -/
theorem role_ids_of_space (hspace : isBlank (some space) = false) :
    t.role_ids user_id (some space) =
      (t.user_roles.filter fun ur => ur.user_id = user_id ∧ ur.project_space_id = space).map
        (·.role_id) := by
  simp [role_ids, hspace]

theorem mem_role_ids (hspace : isBlank (some space) = false) {role : String} :
    role ∈ t.role_ids user_id (some space) ↔ ⟨user_id, role, space⟩ ∈ t.user_roles := by
  rw [role_ids_of_space hspace, List.mem_map]
  constructor
  · rintro ⟨ur, hur, rfl⟩
    obtain ⟨hmem, hheld⟩ := List.mem_filter.mp hur
    obtain ⟨rfl, rfl⟩ := of_decide_eq_true hheld
    exact hmem
  · intro hmem
    exact ⟨_, List.mem_filter.mpr ⟨hmem, by simp⟩, rfl⟩

/-- What a service code needs in a space. -/
theorem mem_resolve_allowed_service_codes (hspace : isBlank (some space) = false) {is_admin : Bool}
    (h : code ∈ t.resolve_allowed_service_codes role_ids is_admin (some space)) :
    ∃ g ∈ t.grants, g.project_space_id = space ∧ g.permission_code = "SERVICE_ACCESS" ∧
      g.scope_code = "SERVICE" ∧ g.role_id ∈ role_ids ∧ ("service_code", code) ∈ g.keys := by
  unfold resolve_allowed_service_codes at h
  split at h
  · cases h
  · obtain ⟨⟨name, value⟩, hkey, rfl⟩ := List.mem_map.mp (List.mem_dedup.mp h)
    obtain ⟨g, hg, hkey⟩ := List.mem_flatMap.mp hkey
    obtain ⟨hg, haccess⟩ := List.mem_filter.mp hg
    obtain ⟨hcode, hscope, hrole, hwhere⟩ := of_decide_eq_true haccess
    obtain ⟨hkey, hname⟩ := List.mem_filter.mp hkey
    obtain rfl : name = "service_code" := of_decide_eq_true hname
    have hps : g.project_space_id = space := by
      obtain hblank | hps := hwhere
      · rw [hspace] at hblank
        cases hblank
      · exact Option.some.inj hps
    exact ⟨g, hg, hps, hcode, hscope, hrole, hkey⟩

/-- The grants of some roles decide what is read for them. -/
theorem filter_of_roles {gs gs' : List Grant}
    (h : (gs'.filter fun g => g.role_id ∈ role_ids) = gs.filter fun g => g.role_id ∈ role_ids)
    (p : Grant → Prop) [DecidablePred p] (hp : ∀ g, p g → g.role_id ∈ role_ids) :
    (gs'.filter fun g => p g) = gs.filter fun g => p g := by
  have hsplit : ∀ l : List Grant, (l.filter fun g => p g) =
      (l.filter fun g => g.role_id ∈ role_ids).filter fun g => p g := by
    intro l
    rw [List.filter_filter]
    refine List.filter_congr fun g _ => ?_
    by_cases hg : p g
    · simp [hg, hp g hg]
    · simp [hg]
  rw [hsplit gs', hsplit gs, h]

/-- **The answer for a space** depends on the user, the roles held there, their grants and the
catalog alone. -/
theorem AgreeFor.get_user_context (h : t.AgreeFor user_id space t')
    (hspace : isBlank (some space) = false) :
    t'.get_user_context user_id (some space) = t.get_user_context user_id (some space) := by
  have hroles : t'.role_ids user_id (some space) = t.role_ids user_id (some space) := by
    rw [role_ids_of_space hspace, role_ids_of_space hspace, h.roles]
  have hcodes : ∀ is_admin,
      t'.list_permission_codes_for_roles (t.role_ids user_id (some space)) is_admin =
        t.list_permission_codes_for_roles (t.role_ids user_id (some space)) is_admin := by
    intro is_admin
    unfold list_permission_codes_for_roles catalog_codes
    rw [h.catalog, filter_of_roles h.grants _ fun g hg => hg.2]
  have hservices : ∀ is_admin,
      t'.resolve_allowed_service_codes (t.role_ids user_id (some space)) is_admin (some space) =
        t.resolve_allowed_service_codes (t.role_ids user_id (some space)) is_admin (some space) := by
    intro is_admin
    unfold resolve_allowed_service_codes
    rw [filter_of_roles h.grants _ fun g hg => hg.2.2.1]
  unfold PnoTables.get_user_context
  rw [h.user, hroles]
  simp only [hcodes, hservices]

/-- **Project-space confinement.** For a space the answer depends on nothing else than the user,
the roles held there, their grants and the catalog. A user that is no administrator gets codes of
GLOBAL grants of these roles, recorded for the space when each of these grants is, and service codes
granted in the space; an administrator gets the GLOBAL codes of the catalog. The codes of
`my_global_permissions` are those for the roles of the token. -/
theorem user_context_confined (t : PnoTables) (user_id space : String)
    (hspace : isBlank (some space) = false) {view : UserContextView}
    (h : t.get_user_context user_id (some space) = some view) :
    (∀ t', t.AgreeFor user_id space t' → t'.get_user_context user_id (some space) = some view) ∧
    (∀ role, role ∈ view.role_ids ↔ ⟨user_id, role, space⟩ ∈ t.user_roles) ∧
    (view.is_admin = true → view.global_permissions = t.catalog_codes) ∧
    (view.is_admin = false →
      (∀ code ∈ view.global_permissions, ∃ g ∈ t.grants, Gives g view.role_ids code) ∧
      (t.RecordedFor space view.role_ids → ∀ code ∈ view.global_permissions,
        ∃ g ∈ t.grants, g.project_space_id = space ∧ Gives g view.role_ids code)) ∧
    (∀ code ∈ view.allowed_service_codes, ∃ g ∈ t.grants, g.project_space_id = space ∧
      g.permission_code = "SERVICE_ACCESS" ∧ g.scope_code = "SERVICE" ∧
      g.role_id ∈ view.role_ids ∧ ("service_code", code) ∈ g.keys) ∧
    t.my_global_permissions (some (view.role_ids, view.is_admin)) = view.global_permissions := by
  obtain ⟨u, -, rfl⟩ := Option.map_eq_some_iff.mp h
  refine ⟨fun t' hagree => (hagree.get_user_context hspace).trans h,
    fun role => mem_role_ids hspace, ?_, ?_, ?_, rfl⟩
  · rintro hadmin
    dsimp only at hadmin ⊢
    rw [list_permission_codes_for_roles, if_pos hadmin]
  · intro hadmin
    dsimp only at hadmin ⊢
    rw [hadmin]
    refine ⟨fun code hcode => mem_list_permission_codes.mp hcode, fun hrecorded code hcode => ?_⟩
    obtain ⟨g, hg, hscope, hrole, rfl⟩ := mem_list_permission_codes.mp hcode
    exact hrecorded g hg hscope hrole
  · exact fun code hcode => mem_resolve_allowed_service_codes hspace hcode

section Runs

def contextTables : PnoTables where
  users := [⟨"alice", some "alice", true, false, none⟩, ⟨"root", some "root", true, true, none⟩]
  user_roles := [⟨"alice", "designer", "ps-a"⟩, ⟨"alice", "importer", "ps-b"⟩]
  permissions := [⟨"READ", "GLOBAL"⟩, ⟨"CAD_IMPORT", "GLOBAL"⟩]
  grants := [⟨0, "READ", "GLOBAL", "designer", "ps-a", "", []⟩,
    ⟨1, "CAD_IMPORT", "GLOBAL", "importer", "ps-b", "", []⟩]

theorem user_context_confined_of_alice :
    (∃ view, contextTables.get_user_context "alice" (some "ps-a") = some view ∧
      view.global_permissions = ["READ"] ∧ "importer" ∉ view.role_ids) := by
  refine ⟨_, rfl, by decide, fun hrole => ?_⟩
  have hconfined := user_context_confined contextTables "alice" "ps-a" (by decide) rfl
  exact absurd ((hconfined.2.1 "importer").mp hrole) (by decide)

/-- A code granted to the role in `ps-b` only is an answer for `ps-a`, and an administrator has
codes that nobody granted. -/
theorem user_context_not_confined :
    (∃ t : PnoTables, (∀ g ∈ t.grants, g.project_space_id = "ps-b") ∧
      (t.get_user_context "alice" (some "ps-a")).map (·.global_permissions) = some ["CAD_IMPORT"]) ∧
    (contextTables.get_user_context "root" (some "ps-a")).map (·.global_permissions) =
      some ["READ", "CAD_IMPORT"] := by
  refine ⟨⟨{ contextTables with grants := [⟨1, "CAD_IMPORT", "GLOBAL", "designer", "ps-b", "", []⟩] },
    by decide, by decide⟩, by decide⟩

end Runs

end PnoTables

end PlmCore.Pno
