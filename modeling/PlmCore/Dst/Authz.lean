/-
The permission gate of the file store (`authz.zig`, `auth.zig`, `handlers.zig`).

The gate lets a caller through on the permissions of the token, or on the grants of the scope
DATA that it keeps by role from the authorization snapshot of pno. A grant of the snapshot is
for a project space; the map by role has no place for it. `DefaultPolicyEnforcer`, with the same
snapshot loaded, compares the project space too.
-/
import Mathlib.Data.List.Nodup
import PlmCore.Lib.Run
import PlmCore.Platform.Authz

set_option autoImplicit false

namespace PlmCore.Dst

open PlmCore.Lib PlmCore.Platform

/-! ## The map by role -/

/-- The scopes and grants of an authorization snapshot. -/
structure AuthzSnapshot where
  scopes : List ScopeDef
  policies : List PolicyRow

/-- `DataAuthz.map`: permissions by role, each role once. -/
abbrev RolePerms := List (String × List String)

/-- The role and the permission of a DATA grant; other items are passed over. -/
def dataGrant (row : PolicyRow) : Option (String × String) :=
  if row.scope = some "DATA" then
    match row.role_id, row.permission_code with
    | some rid, some pc => some (rid, pc)
    | _, _ => none
  else none

/-- `builder.getOrPut` and `append`. -/
def append (builder : RolePerms) (g : String × String) : RolePerms :=
  if builder.any (·.1 = g.1) then
    builder.map fun e => if e.1 = g.1 then (e.1, e.2 ++ [g.2]) else e
  else builder ++ [(g.1, [g.2])]

/-- The builder after all items. -/
def build (policies : List PolicyRow) : RolePerms := (policies.filterMap dataGrant).foldl append []

structure DataAuthz where
  map : RolePerms
  populated : Bool

/-- `anyRoleGrants`. -/
def DataAuthz.anyRoleGrants (d : DataAuthz) (role_ids : List String) (code : String) : Bool :=
  role_ids.any fun rid =>
    match d.map.find? (·.1 = rid) with
    | none => false
    | some perms => perms.2.contains code

/-! ## The gate -/

/-- `Principal`. -/
structure Principal where
  user_id : String
  project_space : String
  username : String
  is_admin : Bool
  perms : List String
  role_ids : List String

/-- `hasPerm`. -/
def Principal.hasPerm (p : Principal) (code : String) : Bool := p.is_admin || p.perms.contains code

/-- `gate`, for an authenticated caller. -/
def gate (d : DataAuthz) (p : Principal) (perm : String) : Bool :=
  p.hasPerm perm || d.anyRoleGrants p.role_ids perm

/-! ## Fetching -/

/-- What a fetch comes to. -/
inductive Fetch
  /-- no response, a status from 400 on, or a body that is no JSON -/
  | failed
  /-- a body that is no object, or has no list of policies -/
  | malformed
  /-- a snapshot; `fault` roles were put when an allocation failed -/
  | snapshot (snap : AuthzSnapshot) (fault : Option Nat)

/-- The gate with the snapshot applied last, which nothing reads. -/
structure Store where
  authz : DataAuthz
  applied : AuthzSnapshot

/-- `fetch` and `rebuild`. The old map is cleared before the new one is complete. -/
def Store.fetch (s : Store) : Fetch → Store
  | .failed => s
  | .malformed => s
  | .snapshot snap none => ⟨⟨build snap.policies, true⟩, snap⟩
  | .snapshot snap (some puts) => { s with authz := { s.authz with map := (build snap.policies).take puts } }

/-- Before the first snapshot. -/
def Store.init : Store := ⟨⟨[], false⟩, ⟨[], []⟩⟩

/-! ## What the map holds -/

/-- A map grants a permission to a role. -/
def Grants (map : RolePerms) (rid code : String) : Prop := ∃ e ∈ map, e.1 = rid ∧ code ∈ e.2

theorem grants_append {map : RolePerms} {g : String × String} {rid code : String} :
    Grants (append map g) rid code ↔ Grants map rid code ∨ (rid, code) = g := by
  unfold append
  by_cases hany : map.any (·.1 = g.1) = true
  · rw [if_pos hany]
    obtain ⟨e₀, he₀, hrole⟩ := List.any_eq_true.mp hany
    have hrole := of_decide_eq_true hrole
    constructor
    · rintro ⟨e', he', rfl, hcode⟩
      obtain ⟨e, he, rfl⟩ := List.mem_map.mp he'
      -- the code joins the list of its role; the other roles keep theirs
      by_cases heq : e.1 = g.1
      · simp only [heq, ↓reduceIte] at hcode ⊢
        rcases List.mem_append.mp hcode with hold | hnew
        · exact Or.inl ⟨e, he, heq, hold⟩
        · rw [List.mem_singleton.mp hnew]
          exact Or.inr rfl
      · simp only [heq, ↓reduceIte] at hcode ⊢
        exact Or.inl ⟨e, he, rfl, hcode⟩
    · rintro (⟨e, he, rfl, hcode⟩ | rfl)
      · refine ⟨_, List.mem_map_of_mem he, ?_⟩
        by_cases heq : e.1 = g.1
        · rw [if_pos heq]
          exact ⟨rfl, List.mem_append_left _ hcode⟩
        · rw [if_neg heq]
          exact ⟨rfl, hcode⟩
      · refine ⟨_, List.mem_map_of_mem he₀, ?_⟩
        rw [if_pos hrole]
        exact ⟨hrole, List.mem_append_right _ (List.mem_singleton_self _)⟩
  -- a role that had no list gets one
  · rw [if_neg hany]
    constructor
    · rintro ⟨e, he, rfl, hcode⟩
      rcases List.mem_append.mp he with hold | hnew
      · exact Or.inl ⟨e, hold, rfl, hcode⟩
      · rw [List.mem_singleton.mp hnew] at hcode ⊢
        rw [List.mem_singleton.mp hcode]
        exact Or.inr rfl
    · rintro (⟨e, he, rfl, hcode⟩ | rfl)
      · exact ⟨e, List.mem_append_left _ he, rfl, hcode⟩
      · exact ⟨_, List.mem_append_right _ (List.mem_singleton_self _), rfl, List.mem_singleton_self _⟩

/-- Each role stays once. -/
theorem roles_append_nodup {map : RolePerms} {g : String × String} (h : (map.map (·.1)).Nodup) :
    ((append map g).map (·.1)).Nodup := by
  unfold append
  by_cases hany : map.any (·.1 = g.1) = true
  · have hroles : (map.map fun e => if e.1 = g.1 then (e.1, e.2 ++ [g.2]) else e).map (·.1)
        = map.map (·.1) := by
      rw [List.map_map]
      refine List.map_congr_left fun e _ => ?_
      simp only [Function.comp_apply]
      split <;> rfl
    rw [if_pos hany, hroles]
    exact h
  · rw [if_neg hany, List.map_append]
    refine List.nodup_append.mpr ⟨h, List.nodup_singleton _, ?_⟩
    rintro a ha b hb rfl
    obtain ⟨e, he, hrole⟩ := List.mem_map.mp ha
    apply hany
    refine List.any_eq_true.mpr ⟨e, he, decide_eq_true ?_⟩
    rw [hrole, List.mem_singleton.mp hb]

/-- The map built from the items: each role once, with the permissions of its DATA grants. -/
theorem build_spec (policies : List PolicyRow) :
    ((build policies).map (·.1)).Nodup ∧ ∀ rid code, Grants (build policies) rid code ↔
      (rid, code) ∈ policies.filterMap dataGrant := by
  suffices hgo : ∀ (gs : List (String × String)) (map : RolePerms), (map.map (·.1)).Nodup →
      ((gs.foldl append map).map (·.1)).Nodup ∧ ∀ rid code, Grants (gs.foldl append map) rid code ↔
        Grants map rid code ∨ (rid, code) ∈ gs by
    obtain ⟨hnodup, hgrants⟩ := hgo (policies.filterMap dataGrant) [] List.nodup_nil
    refine ⟨hnodup, fun rid code => (hgrants rid code).trans (or_iff_right ?_)⟩
    rintro ⟨e, he, -⟩
    cases he
  intro gs
  induction gs with
  | nil => exact fun map h => ⟨h, fun rid code => by simp⟩
  | cons g gs ih =>
    intro map h
    obtain ⟨hnodup, hgrants⟩ := ih (append map g) (roles_append_nodup h)
    refine ⟨hnodup, fun rid code => (hgrants rid code).trans ?_⟩
    rw [grants_append, List.mem_cons, or_assoc]

/-- The role's entry is the first one found. -/
theorem anyRoleGrants_iff {d : DataAuthz} (h : (d.map.map (·.1)).Nodup) {role_ids : List String}
    {code : String} : d.anyRoleGrants role_ids code = true ↔ ∃ rid ∈ role_ids, Grants d.map rid code := by
  unfold DataAuthz.anyRoleGrants
  rw [List.any_eq_true]
  refine exists_congr fun rid => and_congr_right fun _ => ?_
  cases hfind : d.map.find? (·.1 = rid) with
  | none =>
    simp only [Bool.false_eq_true, false_iff]
    rintro ⟨e, he, hrole, -⟩
    exact absurd (decide_eq_true hrole) (List.find?_eq_none.mp hfind e he)
  | some e =>
    have hmem := List.mem_of_find?_eq_some hfind
    have hrole : e.1 = rid := by simpa using List.find?_some hfind
    simp only [List.contains_iff_mem]
    constructor
    · exact fun hcode => ⟨e, hmem, hrole, hcode⟩
    · rintro ⟨e', he', hrole', hcode⟩
      rw [List.inj_on_of_nodup_map h hmem he' (hrole.trans hrole'.symm)]
      exact hcode

/-! ## Both sides -/

/-- A DATA grant of the permission to a role of the caller. -/
structure Granting (p : Principal) (perm : String) (row : PolicyRow) : Prop where
  scope : row.scope = some "DATA"
  permission : row.permission_code = some perm
  role : ∃ rid ∈ p.role_ids, row.role_id = some rid

/-- The caller as platform-lib sees it. -/
def Principal.context (p : Principal) : AuthzContext :=
  ⟨p.user_id, p.role_ids, p.is_admin, some p.project_space⟩

/-- `DefaultPolicyEnforcer`, with the snapshot loaded. -/
def AuthzSnapshot.enforcer (snap : AuthzSnapshot) : Enforcer :=
  ⟨snap.scopes, loadPolicy snap.scopes snap.policies⟩

/-- `DefaultPolicyEnforcer` lets the caller through for a permission of the scope DATA, which is
asked without keys. -/
def policyAllows (snap : AuthzSnapshot) (p : Principal) (perm : String) : Bool :=
  isGranted snap.enforcer snap.enforcer (some p.context) "DATA" perm []

/-- The gate agrees with the policy: it lets the caller through on the token or on a DATA grant
for the active project space, and but for the token as `DefaultPolicyEnforcer` does. -/
structure GateAgrees (d : DataAuthz) (snap : AuthzSnapshot) (p : Principal) (perm : String) : Prop where
  granted : gate d p perm = true ↔ perm ∈ p.perms ∨ ∃ row ∈ snap.policies, Granting p perm row
    ∧ row.project_space_id = some p.project_space
  allowed : perm ∉ p.perms → (gate d p perm = true ↔ policyAllows snap p perm = true)

/-- The key values of the grant are written as no keys are, as in a scope without keys. -/
def WithoutKeys (snap : AuthzSnapshot) (row : PolicyRow) : Prop :=
  (encode snap.scopes "DATA" row.keys).1.getD "" = ""
    ∧ (encode snap.scopes "DATA" row.keys).2 = (encode snap.scopes "DATA" []).2

/-- The policy has a grant for the active project space. -/
def GrantedHere (snap : AuthzSnapshot) (p : Principal) (perm : String) : Prop :=
  snap.scopes ≠ [] ∧ isBlank p.project_space = false ∧ ∃ row ∈ snap.policies, Granting p perm row
    ∧ row.project_space_id = some p.project_space ∧ WithoutKeys snap row

theorem encode_nil_fst (scopes : ScopeDefinitionCache) : (encode scopes "DATA" []).1 = some "" := by
  unfold encode
  split
  · rfl
  · split <;> rfl

/-- A rule projected from a row is the request of a role. -/
theorem enforce_iff {snap : AuthzSnapshot} {rid space perm : String} :
    enforce snap.enforcer.rules rid space "DATA" perm (encode snap.enforcer.scopes "DATA" []).1
        (encode snap.enforcer.scopes "DATA" []).2 = true
      ↔ ∃ row ∈ snap.policies, row.role_id = some rid ∧ row.permission_code = some perm
        ∧ row.scope = some "DATA" ∧ row.project_space_id.getD "" = space ∧ WithoutKeys snap row := by
  have hscopes : snap.enforcer.scopes = snap.scopes := rfl
  rw [hscopes, encode_nil_fst]
  unfold enforce
  rw [List.any_eq_true]
  simp only [decide_eq_true_eq, Option.some.injEq]
  constructor
  · rintro ⟨rule, hrule, rfl, rfl, hscope, rfl, hobject, hattrs⟩
    obtain ⟨row, hrow, hproject⟩ := List.mem_filterMap.mp hrule
    unfold projectRow at hproject
    split at hproject
    · rename_i role permission scope hrole hperm hrowscope
      cases hproject
      dsimp only at hscope hobject hattrs ⊢
      subst hscope
      exact ⟨row, hrow, hrole, hperm, hrowscope, rfl, hobject, hattrs⟩
    · cases hproject
  · rintro ⟨row, hrow, hrole, hperm, hscope, hspace, hobject, hattrs⟩
    refine ⟨⟨rid, space, "DATA", perm, "", (encode snap.scopes "DATA" []).2⟩,
      List.mem_filterMap.mpr ⟨row, hrow, ?_⟩, rfl, rfl, rfl, rfl, rfl, rfl⟩
    simp only [projectRow, hrole, hperm, hscope, hspace, hobject, hattrs]

/-- **When `DefaultPolicyEnforcer` lets a caller through.** -/
theorem policyAllows_iff {snap : AuthzSnapshot} {p : Principal} {perm : String}
    (hadmin : p.is_admin = false) : policyAllows snap p perm = true ↔ GrantedHere snap p perm := by
  have hpopulated : snap.enforcer.scopes.isPopulated = true ↔ snap.scopes ≠ [] := by
    simp [AuthzSnapshot.enforcer, ScopeDefinitionCache.isPopulated]
  unfold policyAllows isGranted canScope
  dsimp only [Principal.context]
  rw [hadmin, if_neg Bool.false_ne_true]
  by_cases hroles : p.role_ids = []
  · rw [if_pos hroles]
    simp only [Bool.false_eq_true, false_iff]
    rintro ⟨-, -, row, -, ⟨-, -, rid, hrid, -⟩, -⟩
    rw [hroles] at hrid
    cases hrid
  rw [if_neg hroles, ite_self]
  by_cases hscopes : snap.enforcer.scopes.isPopulated = true
  swap
  · rw [Bool.not_eq_true] at hscopes
    simp only [hscopes, Bool.not_false, ↓reduceIte, Bool.false_eq_true, false_iff]
    rintro ⟨hne, -⟩
    rw [← hpopulated, hscopes] at hne
    cases hne
  have hne := hpopulated.mp hscopes
  simp only [hscopes, Bool.not_true, Bool.false_eq_true, ↓reduceIte]
  cases hblank : isBlank p.project_space with
  | true =>
    -- the enforcer throws without a project space
    rw [if_pos (show nullOrBlank (some p.project_space) = true from hblank)]
    simp only [Bool.false_eq_true, false_iff]
    rintro ⟨-, hspace, -⟩
    rw [hblank] at hspace
    cases hspace
  | false =>
    have hspace : nullOrBlank (some p.project_space) ≠ true := by
      rw [show nullOrBlank (some p.project_space) = false from hblank]
      exact Bool.false_ne_true
    rw [if_neg hspace]
    dsimp only [Option.getD_some]
    rw [List.any_eq_true]
    constructor
    · rintro ⟨rid, hrid, henforce⟩
      obtain ⟨row, hrow, hrole, hperm, hscope, hspace, hkeys⟩ := enforce_iff.mp henforce
      refine ⟨hne, hblank, row, hrow, ⟨hscope, hperm, rid, hrid, hrole⟩, ?_, hkeys⟩
      -- a grant without a project space is for the blank one
      cases hps : row.project_space_id with
      | none =>
        rw [hps] at hspace
        rw [← hspace] at hblank
        cases hblank
      | some space =>
        rw [hps] at hspace
        exact congrArg some hspace
    · rintro ⟨-, -, row, hrow, ⟨hscope, hperm, rid, hrid, hrole⟩, hspace, hkeys⟩
      refine ⟨rid, hrid, enforce_iff.mpr ⟨row, hrow, hrole, hperm, hscope, ?_, hkeys⟩⟩
      rw [hspace]
      rfl

theorem mem_dataGrant {policies : List PolicyRow} {rid code : String} :
    (rid, code) ∈ policies.filterMap dataGrant ↔ ∃ row ∈ policies, row.scope = some "DATA"
      ∧ row.permission_code = some code ∧ row.role_id = some rid := by
  rw [List.mem_filterMap]
  refine exists_congr fun row => and_congr_right fun _ => ?_
  unfold dataGrant
  by_cases hscope : row.scope = some "DATA"
  · rw [if_pos hscope]
    split
    · rename_i rid' pc hrid hpc
      simp [hscope, hrid, hpc, and_comm]
    · rename_i hno
      simp only [reduceCtorEq, false_iff]
      rintro ⟨-, hpc, hrid⟩
      exact hno rid code hrid hpc
  · simp [hscope]

/-- **When the gate lets a caller through**: the token has the permission, or some DATA grant of
the snapshot, for whatever project space. -/
theorem gate_iff {snap : AuthzSnapshot} {d : DataAuthz} (hmap : d.map = build snap.policies)
    {p : Principal} (hadmin : p.is_admin = false) {perm : String} :
    gate d p perm = true ↔ perm ∈ p.perms ∨ ∃ row ∈ snap.policies, Granting p perm row := by
  obtain ⟨hnodup, hgrants⟩ := build_spec snap.policies
  rw [← hmap] at hnodup hgrants
  unfold gate Principal.hasPerm
  rw [hadmin, Bool.false_or, Bool.or_eq_true, List.contains_iff_mem, anyRoleGrants_iff hnodup]
  refine or_congr_right ?_
  constructor
  · rintro ⟨rid, hrid, hgrant⟩
    obtain ⟨row, hrow, hscope, hperm, hrole⟩ := mem_dataGrant.mp ((hgrants rid perm).mp hgrant)
    exact ⟨row, hrow, hscope, hperm, rid, hrid, hrole⟩
  · rintro ⟨row, hrow, hscope, hperm, rid, hrid, hrole⟩
    exact ⟨rid, hrid, (hgrants rid perm).mpr (mem_dataGrant.mpr ⟨row, hrow, hscope, hperm, hrole⟩)⟩

/-! ## Runs of fetches -/

/-- Every allocation succeeds while a snapshot is applied. -/
def Allocates (_ : Store) : Fetch → Prop
  | .snapshot _ fault => fault = none
  | _ => True

/-- The map is that of one whole snapshot, the one applied last. -/
def Store.Whole (s : Store) : Prop := s.authz.map = build s.applied.policies

theorem whole_of_fetches {es : List Fetch} (hes : Along Store.fetch Allocates .init es) :
    (run Store.fetch .init es).Whole := by
  refine Along.invariant ?_ rfl hes
  intro s e hs hgood
  cases e with
  | failed => exact hs
  | malformed => exact hs
  | snapshot snap fault =>
    obtain rfl : fault = none := hgood
    rfl

/-- **When the gate agrees with the policy.** After any fetches in which no allocation failed, it
agrees with the snapshot applied last exactly for the callers whose token has the permission, who
have no DATA grant of it, or who have one for the active project space. -/
theorem gate_agrees_iff {es : List Fetch} (hes : Along Store.fetch Allocates .init es) {p : Principal}
    (hadmin : p.is_admin = false) (perm : String) :
    GateAgrees (run Store.fetch .init es).authz (run Store.fetch .init es).applied p perm ↔
      perm ∈ p.perms ∨ (∀ row ∈ (run Store.fetch .init es).applied.policies, ¬ Granting p perm row)
        ∨ GrantedHere (run Store.fetch .init es).applied p perm := by
  -- the invariant of the fetches: the map has the codes of all rows of the snapshot
  have hmap := whole_of_fetches hes
  generalize run Store.fetch .init es = s at hmap ⊢
  have hgate : gate _ p perm = true ↔ _ := gate_iff hmap hadmin
  constructor
  · intro h
    -- the code of the token decides alone, in the gate and by the policy
    by_cases hperm : perm ∈ p.perms
    · exact Or.inl hperm
    refine Or.inr (or_iff_not_imp_left.mpr fun hsome => ?_)
    simp only [not_forall, not_not, exists_prop] at hsome
    exact (policyAllows_iff hadmin).mp ((h.allowed hperm).mp (hgate.mpr (Or.inr hsome)))
  · intro h
    constructor
    · rw [hgate]
      constructor
      · rintro (hperm | ⟨row, hrow, hgrant⟩)
        · exact Or.inl hperm
        · rcases h with hperm | hnone | ⟨-, -, row', hrow', hgrant', hspace, -⟩
          · exact Or.inl hperm
          · exact absurd hgrant (hnone row hrow)
          · exact Or.inr ⟨row', hrow', hgrant', hspace⟩
      · rintro (hperm | ⟨row, hrow, hgrant, -⟩)
        · exact Or.inl hperm
        · exact Or.inr ⟨row, hrow, hgrant⟩
    · intro hno
      rw [hgate, policyAllows_iff hadmin]
      constructor
      · rintro (hperm | ⟨row, hrow, hgrant⟩)
        · exact absurd hperm hno
        · rcases h with hperm | hnone | hhere
          · exact absurd hperm hno
          · exact absurd hgrant (hnone row hrow)
          · exact hhere
      · rintro ⟨-, -, row, hrow, hgrant, -⟩
        exact Or.inr ⟨row, hrow, hgrant⟩

/-- A snapshot in which readers may read in one project space. -/
def readersSnapshot : AuthzSnapshot where
  scopes := [⟨"DATA", none, []⟩]
  policies := [⟨some "role-reader", some "READ_DATA", some "DATA", some "ps-open", []⟩]

/-- A reader with an active project space. -/
def readerIn (project_space : String) : Principal :=
  ⟨"reader", project_space, "Reader", false, [], ["role-reader"]⟩

/-- A reader in the project space of the grant. -/
theorem gate_agrees_in_granted_space :
    GateAgrees (run Store.fetch .init [.snapshot readersSnapshot none, .failed]).authz
      (run Store.fetch .init [.snapshot readersSnapshot none, .failed]).applied (readerIn "ps-open")
      "READ_DATA" := by
  have hes : Along Store.fetch Allocates .init [.snapshot readersSnapshot none, .failed] :=
    ⟨rfl, trivial, trivial⟩
  refine (gate_agrees_iff hes rfl "READ_DATA").mpr (Or.inr (Or.inr ?_))
  exact ⟨by decide, by decide, _, List.mem_singleton_self _, ⟨rfl, rfl, _, List.mem_singleton_self _, rfl⟩,
    rfl, rfl, rfl⟩

/-- A reader in another project space is let through, which the policy does not allow. -/
theorem gate_open_in_other_space :
    gate (run Store.fetch .init [.snapshot readersSnapshot none]).authz (readerIn "ps-secret") "READ_DATA" = true
      ∧ policyAllows readersSnapshot (readerIn "ps-secret") "READ_DATA" = false
      ∧ ¬ GateAgrees (run Store.fetch .init [.snapshot readersSnapshot none]).authz readersSnapshot
          (readerIn "ps-secret") "READ_DATA" := by
  have hopen : gate (run Store.fetch .init [.snapshot readersSnapshot none]).authz (readerIn "ps-secret")
      "READ_DATA" = true := by decide
  have hclosed : policyAllows readersSnapshot (readerIn "ps-secret") "READ_DATA" = false := by decide
  refine ⟨hopen, hclosed, fun h => ?_⟩
  rw [(h.allowed (by decide)).mp hopen] at hclosed
  cases hclosed

end PlmCore.Dst
