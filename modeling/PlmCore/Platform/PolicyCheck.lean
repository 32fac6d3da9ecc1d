/-
A check against the policies of the snapshot that a service has loaded
(`PermissionPolicySnapshotClient`, `DefaultPolicyEnforcer.canScope`).

Rules and requests are compared as text. A missing key is written as an empty value on both sides,
and the values behind the first stand one after the other without an escape, so a policy can be taken
for one that grants the query: where a key is missing, or where the values can be cut elsewhere.
-/
import PlmCore.Lib.Cuts
import PlmCore.Platform.Encoding

set_option autoImplicit false

namespace PlmCore.Platform

open PlmCore.Lib

/-! ## The snapshot -/

/-- A key of a scope as the snapshot lists it: a text, or an object with a name. -/
inductive SnapshotKey where
  | text (name : String)
  | object (name : Option String)
  deriving DecidableEq

/-- A scope of the snapshot. -/
structure SnapshotScope where
  code : Option String
  parent : Option String
  keys : List SnapshotKey
  deriving DecidableEq

/-- What `/internal/authorization/snapshot` answers. -/
structure AuthorizationSnapshot where
  scopes : List SnapshotScope
  policies : List PolicyRow

/-- The definitions and the policies that one reload installs. -/
structure LoadedSnapshot where
  scopes : ScopeDefinitionCache
  policies : List PolicyRow

/-- The name of a key; an object without a name is passed over. -/
def SnapshotKey.keyName : SnapshotKey → Option String
  | .text name => some name
  | .object name => name

/-- The definition of a scope. The map of `ScopeDefinitionCache.reload` refuses a null code. -/
def SnapshotScope.scopeDef (s : SnapshotScope) : Option ScopeDef :=
  s.code.map fun code => ⟨code, s.parent, s.keys.filterMap (·.keyName)⟩

/-- What a snapshot installs; none where the cache throws on a scope without a code. -/
def AuthorizationSnapshot.loaded (s : AuthorizationSnapshot) : Option LoadedSnapshot :=
  (s.scopes.mapM SnapshotScope.scopeDef).map fun scopes => ⟨scopes, s.policies⟩

/-- The cache and the policy model after a reload. -/
def LoadedSnapshot.enforcer (s : LoadedSnapshot) : Enforcer := ⟨s.scopes, loadPolicy s.scopes s.policies⟩

/-- `PermissionPolicySnapshotClient.reload`: a fetch that answers nothing, and every error, leaves the
enforcer as it was. -/
def Enforcer.reload (e : Enforcer) (fetched : Option AuthorizationSnapshot) : Enforcer :=
  match fetched.bind (·.loaded) with
  | some s => s.enforcer
  | none => e

/-- The enforcer of a service that has made these fetches since its start. -/
def Enforcer.afterFetches (fetches : List (Option AuthorizationSnapshot)) : Enforcer :=
  fetches.foldl Enforcer.reload ⟨[], []⟩

/-- The snapshot loaded last. -/
def lastLoaded (fetches : List (Option AuthorizationSnapshot)) : LoadedSnapshot :=
  (fetches.filterMap (·.bind (·.loaded))).getLastD ⟨[], []⟩

/-- The snapshot that a check goes by: with no scope in the cache the check fetches once more. -/
def snapshotOfCheck (fetches : List (Option AuthorizationSnapshot)) (next : Option AuthorizationSnapshot) :
    LoadedSnapshot :=
  if (lastLoaded fetches).scopes.isPopulated then lastLoaded fetches else lastLoaded (fetches ++ [next])

variable {fetches : List (Option AuthorizationSnapshot)} {next : Option AuthorizationSnapshot}

theorem lastLoaded_append (fetched : Option AuthorizationSnapshot) :
    lastLoaded (fetches ++ [fetched]) = (fetched.bind (·.loaded)).getD (lastLoaded fetches) := by
  unfold lastLoaded
  rw [List.filterMap_append]
  cases hloaded : fetched.bind (·.loaded) with
  | none => simp [hloaded]
  | some s => simp [hloaded]

/-- **A service goes by one snapshot**, whatever was fetched before it. -/
theorem afterFetches_eq : Enforcer.afterFetches fetches = (lastLoaded fetches).enforcer := by
  induction fetches using List.reverseRecOn with
  | nil => rfl
  | append_singleton fetches fetched ih =>
    have hlast : Enforcer.afterFetches (fetches ++ [fetched]) =
        (Enforcer.afterFetches fetches).reload fetched := by
      rw [Enforcer.afterFetches, List.foldl_append]
      rfl
    rw [hlast, ih, lastLoaded_append, Enforcer.reload]
    cases fetched.bind (·.loaded) with
    | none => rfl
    | some s => rfl

/-! ## What is asked and what is granted -/

/-- `Map.get`. -/
def Keys.get (keys : Keys) (name : String) : Option String :=
  (keys.find? fun e => e.1 = name).bind (·.2)

/-- Both have a value for every name, and the same. -/
def Keys.AgreeOn (names : List String) (keys keys' : Keys) : Prop :=
  ∀ n ∈ names, ∃ v, keys.get n = some v ∧ keys'.get n = some v

/-- A policy for a role of the caller, the current project space, the scope and the permission. -/
def PolicyRow.AskedFor (row : PolicyRow) (ctx : Option AuthzContext) (scopeCode permissionCode : String) :
    Prop :=
  ∃ c, ctx = some c ∧ (∃ role ∈ c.roleIds, row.role_id = some role) ∧
    (∃ space, c.projectSpaceId = some space ∧ row.project_space_id = some space) ∧
    row.scope = some scopeCode ∧ row.permission_code = some permissionCode

/-- The snapshot has a policy for the query. -/
def LoadedSnapshot.Grants (s : LoadedSnapshot) (ctx : Option AuthzContext)
    (scopeCode permissionCode : String) (keys : Keys) : Prop :=
  ∃ row ∈ s.policies, row.AskedFor ctx scopeCode permissionCode ∧
    keys.AgreeOn (s.scopes.keysOf scopeCode) row.keys

/-- The check goes on to the policies: there are definitions, and the caller has a project space. -/
def LoadedSnapshot.Answers (s : LoadedSnapshot) (ctx : Option AuthzContext) : Prop :=
  s.scopes.isPopulated = true ∧ ∀ c, ctx = some c → nullOrBlank c.projectSpaceId = false

/-! ## Policies that are taken for others -/

/-- The keys behind the first, each with its mark. -/
def Keys.fields (keys : Keys) (names : List String) : List (List Char × List Char) :=
  names.map fun n => ('|' :: (n.toList ++ ['=']), (keys.value n).toList)

/-- The values are the same, a missing one counting as empty, and one is missing. -/
def Keys.SameButMissing (names : List String) (keys keys' : Keys) : Prop :=
  (∀ n ∈ names, keys.value n = keys'.value n) ∧
    ∃ n ∈ names, keys.get n = none ∨ keys'.get n = none

/-- The values behind the first differ, and read the same when each is written behind its mark. -/
def Keys.CutElsewhere (names : List String) (keys keys' : Keys) : Prop :=
  (∀ first ∈ names.head?, keys.value first = keys'.value first) ∧
    (∃ n ∈ names.tail, keys.value n ≠ keys'.value n) ∧
    marked (keys.fields names.tail) = marked (keys'.fields names.tail)

/-- A policy with other values reads as the query does. A query with a null for the first key is none
of any policy. -/
def Keys.MistakenFor (names : List String) (keys keys' : Keys) : Prop :=
  (∀ first ∈ names.head?, keys.getOrDefault first "" ≠ none) ∧
    (keys.SameButMissing names keys' ∨ keys.CutElsewhere names keys')

variable {keys keys' : Keys} {names : List String}

theorem Keys.value_eq (keys : Keys) (n : String) : keys.value n = (keys.get n).getD "" := by
  unfold Keys.value Keys.getOrDefault Keys.get
  cases keys.find? fun e => e.1 = n with
  | none => rfl
  | some e => rfl

theorem Keys.getOrDefault_of_get {n v : String} (h : keys.get n = some v) :
    keys.getOrDefault n "" = some v := by
  unfold Keys.get at h
  unfold Keys.getOrDefault
  cases hfind : keys.find? fun e => e.1 = n with
  | none =>
    rw [hfind] at h
    cases h
  | some e =>
    rw [hfind] at h
    exact h

theorem Keys.agreeOn_of_values (hvalues : ∀ n ∈ names, keys.value n = keys'.value n)
    (hthere : ∀ n ∈ names, keys.get n ≠ none ∧ keys'.get n ≠ none) : keys.AgreeOn names keys' := by
  intro n hn
  obtain ⟨v, hv⟩ := Option.ne_none_iff_exists'.mp (hthere n hn).1
  obtain ⟨v', hv'⟩ := Option.ne_none_iff_exists'.mp (hthere n hn).2
  have hvalue := hvalues n hn
  rw [Keys.value_eq, Keys.value_eq, hv, hv'] at hvalue
  obtain rfl : v = v' := hvalue
  exact ⟨v, hv, hv'⟩

theorem Keys.AgreeOn.values (h : keys.AgreeOn names keys') :
    ∀ n ∈ names, keys.value n = keys'.value n := by
  intro n hn
  obtain ⟨v, hv, hv'⟩ := h n hn
  rw [Keys.value_eq, Keys.value_eq, hv, hv']

theorem Keys.fields_eq_iff : keys.fields names = keys'.fields names ↔
    ∀ n ∈ names, keys.value n = keys'.value n := by
  simp [Keys.fields, String.toList_inj]

/-- The attributes as values behind their marks, up to the bar in front of the first. -/
theorem attrsChars_cons (keys : Keys) (n : String) (rest : List String) :
    '|' :: attrsChars keys (n :: rest) = marked (keys.fields (n :: rest)) := by
  have hfields : ∀ n rest, keys.fields (n :: rest) =
      ('|' :: (n.toList ++ ['=']), (keys.value n).toList) :: keys.fields rest := fun _ _ => rfl
  induction rest generalizing n with
  | nil => simp [attrsChars, marked, Keys.fields]
  | cons m rest ih => rw [hfields, marked_cons, ← ih m, attrsChars]; simp

theorem encodeAttrs_eq_iff : encodeAttrs keys names = encodeAttrs keys' names ↔
    marked (keys.fields names) = marked (keys'.fields names) := by
  rw [← String.toList_inj, toList_encodeAttrs, toList_encodeAttrs]
  cases names with
  | nil => exact iff_of_true rfl rfl
  | cons n rest => rw [← attrsChars_cons, ← attrsChars_cons, List.cons_inj_right]

/-- **What reads as the query** has its values or is taken for it. -/
theorem encode_matches_iff {scopes : ScopeDefinitionCache} {code : String} :
    (some ((encode scopes code keys').1.getD "") = (encode scopes code keys).1 ∧
        (encode scopes code keys').2 = (encode scopes code keys).2) ↔
      keys.AgreeOn (scopes.keysOf code) keys' ∨ keys.MistakenFor (scopes.keysOf code) keys' := by
  have hempty : Keys.AgreeOn [] keys keys' := fun n hn => absurd hn List.not_mem_nil
  unfold encode ScopeDefinitionCache.keysOf
  -- a scope without keys has neither object nor attributes to match
  cases scopes.get code with
  | none => exact iff_of_true ⟨rfl, rfl⟩ (.inl hempty)
  | some d =>
    dsimp only [Option.map_some, Option.getD_some]
    cases hkeys : d.keys with
    | nil => exact iff_of_true ⟨rfl, rfl⟩ (.inl hempty)
    | cons first others =>
      -- the object of the rule is a text, so a query whose first key is null reads as no rule
      have hfirst : some (keys'.value first) = keys.getOrDefault first "" ↔
          keys.getOrDefault first "" ≠ none ∧ keys.value first = keys'.value first := by
        unfold Keys.value
        cases keys.getOrDefault first "" with
        | none => simp
        | some v => simp [eq_comm]
      dsimp only
      rw [eq_comm (a := encodeAttrs keys' others), encodeAttrs_eq_iff, ← Keys.value, hfirst]
      constructor
      · rintro ⟨⟨hnull, hvalue⟩, htext⟩
        -- texts that are equal are of equal values, or of values with bars in them
        by_cases hvalues : ∀ n ∈ first :: others, keys.value n = keys'.value n
        -- a missing key reads as the empty text, so it is not told apart from one
        · by_cases hmissing : ∃ n ∈ first :: others, keys.get n = none ∨ keys'.get n = none
          · exact .inr ⟨by simpa using hnull, .inl ⟨hvalues, hmissing⟩⟩
          · push Not at hmissing
            exact .inl (Keys.agreeOn_of_values hvalues hmissing)
        · refine .inr ⟨by simpa using hnull, .inr ⟨by simpa using hvalue, ?_, htext⟩⟩
          push Not at hvalues
          obtain ⟨n, hn, hne⟩ := hvalues
          obtain rfl | hn := List.mem_cons.mp hn
          · exact absurd hvalue hne
          · exact ⟨n, hn, hne⟩
      · have hsame : (∀ n ∈ first :: others, keys.value n = keys'.value n) →
            keys.value first = keys'.value first ∧
              marked (keys.fields others) = marked (keys'.fields others) := by
          intro hvalues
          obtain ⟨hvalue, hrest⟩ := List.forall_mem_cons.mp hvalues
          exact ⟨hvalue, congrArg marked (Keys.fields_eq_iff.mpr hrest)⟩
        -- equal values give equal texts; the third case has the texts by definition
        rintro (hagree | ⟨hnull, ⟨hvalues, -⟩ | ⟨hvalue, -, htext⟩⟩)
        · obtain ⟨v, hv, -⟩ := hagree first List.mem_cons_self
          have hnull : keys.getOrDefault first "" ≠ none := by
            rw [Keys.getOrDefault_of_get hv]
            exact Option.some_ne_none v
          exact ⟨⟨hnull, (hsame hagree.values).1⟩, (hsame hagree.values).2⟩
        · exact ⟨⟨hnull first rfl, (hsame hvalues).1⟩, (hsame hvalues).2⟩
        · exact ⟨⟨hnull first rfl, hvalue first rfl⟩, htext⟩

/-! ## The check -/

/-- The rule of a policy has the six fields of the request of a role. -/
theorem enforce_loadPolicy {s : LoadedSnapshot} {role space scopeCode permissionCode : String} :
    enforce s.enforcer.rules role space scopeCode permissionCode
        (encode s.scopes scopeCode keys).1 (encode s.scopes scopeCode keys).2 = true ↔
      ∃ row ∈ s.policies, row.role_id = some role ∧ row.project_space_id.getD "" = space ∧
        row.scope = some scopeCode ∧ row.permission_code = some permissionCode ∧
        (keys.AgreeOn (s.scopes.keysOf scopeCode) row.keys ∨
          keys.MistakenFor (s.scopes.keysOf scopeCode) row.keys) := by
  simp only [← encode_matches_iff]
  unfold enforce LoadedSnapshot.enforcer loadPolicy
  rw [List.any_eq_true]
  constructor
  · rintro ⟨rule, hrule, hmatch⟩
    obtain ⟨row, hrow, hproject⟩ := List.mem_filterMap.mp hrule
    obtain ⟨rfl, rfl, rfl, rfl, hobject, hattrs⟩ := of_decide_eq_true hmatch
    unfold projectRow at hproject
    split at hproject
    · rename_i role permission scope hrole hpermission hscope
      cases hproject
      exact ⟨row, hrow, hrole, rfl, hscope, hpermission, hobject, hattrs⟩
    · cases hproject
  · rintro ⟨row, hrow, hrole, rfl, hscope, hpermission, hobject, hattrs⟩
    refine ⟨_, List.mem_filterMap.mpr ⟨row, hrow, by rw [projectRow, hrole, hpermission, hscope]⟩,
      decide_eq_true ⟨rfl, rfl, rfl, rfl, hobject, hattrs⟩⟩

/-- **A check lets through** whom a policy for what is asked has the values of, or is taken for. -/
theorem canScope_iff {ctx : Option AuthzContext} {scopeCode permissionCode : String}
    (hadmin : ∀ c, ctx = some c → c.isAdmin = false) :
    canScope (.afterFetches fetches) ((Enforcer.afterFetches fetches).reload next) ctx scopeCode
        permissionCode keys = .ok true ↔
      (snapshotOfCheck fetches next).Answers ctx ∧
        ∃ row ∈ (snapshotOfCheck fetches next).policies, row.AskedFor ctx scopeCode permissionCode ∧
          (keys.AgreeOn ((snapshotOfCheck fetches next).scopes.keysOf scopeCode) row.keys ∨
            keys.MistakenFor ((snapshotOfCheck fetches next).scopes.keysOf scopeCode) row.keys) := by
  -- the enforcer that is asked is that of the snapshot the check goes by
  have hnext : (Enforcer.afterFetches fetches).reload next = (lastLoaded (fetches ++ [next])).enforcer := by
    rw [← afterFetches_eq, Enforcer.afterFetches, Enforcer.afterFetches, List.foldl_append]
    rfl
  have henforcer : (if (Enforcer.afterFetches fetches).scopes.isPopulated then
      Enforcer.afterFetches fetches else (Enforcer.afterFetches fetches).reload next) =
        (snapshotOfCheck fetches next).enforcer := by
    rw [hnext, afterFetches_eq, snapshotOfCheck]
    exact (apply_ite LoadedSnapshot.enforcer _ _ _).symm
  unfold canScope PolicyRow.AskedFor LoadedSnapshot.Answers
  cases ctx with
  | none => simp
  | some c =>
    dsimp only
    rw [henforcer, hadmin c rfl]
    generalize snapshotOfCheck fetches next = s
    have hscopes : s.enforcer.scopes = s.scopes := rfl
    rw [hscopes]
    by_cases hroles : c.roleIds = []
    · simp [hroles]
    · by_cases hpopulated : s.scopes.isPopulated = true
      · by_cases hblank : nullOrBlank c.projectSpaceId = true
        · simp [hroles, hpopulated, hblank]
        · obtain ⟨space, hspace⟩ : ∃ space, c.projectSpaceId = some space := by
            cases hnone : c.projectSpaceId with
            | none => simp [hnone, nullOrBlank] at hblank
            | some space => exact ⟨space, rfl⟩
          rw [hspace, Bool.not_eq_true] at hblank
          have hfilled : space ≠ "" := by
            rintro rfl
            exact absurd hblank (by decide)
          -- a policy without a project space is written with an empty one
          have hsame : ∀ row : PolicyRow, row.project_space_id.getD "" = space ↔
              row.project_space_id = some space := by
            intro row
            cases row.project_space_id with
            | none => simpa using hfilled.symm
            | some other => simp
          simp only [Bool.false_eq_true, if_false, hroles, hpopulated, Bool.not_true, hspace, hblank,
            Except.ok.injEq, List.any_eq_true, enforce_loadPolicy, Option.getD_some, hsame,
            Option.some.injEq, exists_eq_left', true_and, forall_eq']
          constructor
          · rintro ⟨role, hrole, row, hrow, hsub, hps, hscope, hact, hvalues⟩
            exact ⟨row, hrow, ⟨⟨role, hrole, hsub⟩, hps, hscope, hact⟩, hvalues⟩
          · rintro ⟨row, hrow, ⟨⟨role, hrole, hsub⟩, hps, hscope, hact⟩, hvalues⟩
            exact ⟨role, hrole, row, hrow, hsub, hps, hscope, hact, hvalues⟩
      · simp [hroles, hpopulated]

/-- **When a check is a look for a policy.** For a caller who is no admin: the check lets through
exactly whom the snapshot grants what is asked, if and only if it does not give up before the policies
on a granted query, and no policy asked for is taken for one that grants a query none grants. -/
theorem canScope_iff_grants (fetches : List (Option AuthorizationSnapshot))
    (next : Option AuthorizationSnapshot) (ctx : Option AuthzContext)
    (hadmin : ∀ c, ctx = some c → c.isAdmin = false) (scopeCode permissionCode : String) (keys : Keys) :
    (canScope (.afterFetches fetches) ((Enforcer.afterFetches fetches).reload next) ctx scopeCode
          permissionCode keys = .ok true ↔
        (snapshotOfCheck fetches next).Grants ctx scopeCode permissionCode keys) ↔
      ((snapshotOfCheck fetches next).Grants ctx scopeCode permissionCode keys →
          (snapshotOfCheck fetches next).Answers ctx) ∧
        ((snapshotOfCheck fetches next).Answers ctx →
          ¬ (snapshotOfCheck fetches next).Grants ctx scopeCode permissionCode keys →
          ∀ row ∈ (snapshotOfCheck fetches next).policies, row.AskedFor ctx scopeCode permissionCode →
            ¬ keys.MistakenFor ((snapshotOfCheck fetches next).scopes.keysOf scopeCode) row.keys) := by
  rw [canScope_iff hadmin]
  generalize snapshotOfCheck fetches next = s
  constructor
  · intro hexact
    refine ⟨fun hgrants => (hexact.mpr hgrants).1, fun hanswers hnot row hrow hasked hmistaken => ?_⟩
    exact hnot (hexact.mp ⟨hanswers, row, hrow, hasked, .inr hmistaken⟩)
  · rintro ⟨hgives, hmistaken⟩
    constructor
    · rintro ⟨hanswers, row, hrow, hasked, hvalues⟩
      obtain hagree | htaken := hvalues
      · exact ⟨row, hrow, hasked, hagree⟩
      · by_contra hnot
        exact hmistaken hanswers hnot row hrow hasked htaken
    · intro hgrants
      obtain ⟨row, hrow, hasked, hagree⟩ := hgrants
      exact ⟨hgives ⟨row, hrow, hasked, hagree⟩, row, hrow, hasked, .inl hagree⟩

/-! ## A policy that is taken for another -/

section Example

def designer : AuthzContext := ⟨"u1", ["designer"], false, some "ps1"⟩

/-- NODE has the keys nodeType, site and plant, and designers may read what has these values. -/
def nodeSnapshot (keys : Keys) : AuthorizationSnapshot :=
  ⟨[⟨some "NODE", none, [.text "nodeType", .object (some "site"), .object (some "plant")]⟩],
    [⟨some "designer", some "READ_NODE", some "NODE", some "ps1", keys⟩]⟩

def partOfLyon : Keys := [("nodeType", some "part"), ("site", some "Lyon"), ("plant", some "A")]

theorem keysOf_nodeSnapshot (keys : Keys) :
    (snapshotOfCheck [some (nodeSnapshot keys)] none).scopes.keysOf "NODE" = ["nodeType", "site", "plant"] :=
  rfl

theorem canScope_iff_grants_part_of_Lyon :
    canScope (.afterFetches [some (nodeSnapshot partOfLyon)])
        ((Enforcer.afterFetches [some (nodeSnapshot partOfLyon)]).reload none) (some designer) "NODE"
        "READ_NODE" partOfLyon = .ok true := by
  have hgrants : (snapshotOfCheck [some (nodeSnapshot partOfLyon)] none).Grants (some designer) "NODE"
      "READ_NODE" partOfLyon := by
    refine ⟨_, List.mem_singleton_self _, ⟨designer, rfl, ⟨"designer", by decide, rfl⟩,
      ⟨"ps1", rfl, rfl⟩, rfl, rfl⟩, ?_⟩
    intro n hn
    rw [keysOf_nodeSnapshot] at hn
    obtain rfl | rfl | rfl : n = "nodeType" ∨ n = "site" ∨ n = "plant" := by simpa using hn
    · exact ⟨"part", rfl, rfl⟩
    · exact ⟨"Lyon", rfl, rfl⟩
    · exact ⟨"A", rfl, rfl⟩
  have hanswers : (snapshotOfCheck [some (nodeSnapshot partOfLyon)] none).Answers (some designer) := by
    refine ⟨rfl, ?_⟩
    rintro c hc
    cases hc
    decide
  refine (canScope_iff_grants [some (nodeSnapshot partOfLyon)] none (some designer) ?_ "NODE" "READ_NODE"
    partOfLyon).mpr ⟨fun _ => hanswers, fun _ hnot => absurd hgrants hnot⟩ |>.mpr hgrants
  rintro c hc
  cases hc
  rfl

/-- A bar in the site of the query, and one in its plant where the policy reads the same. -/
def barInSite : Keys := [("nodeType", some "part"), ("site", some "Lyon|plant=A"), ("plant", some "B")]

def barInPlant : Keys := [("nodeType", some "part"), ("site", some "Lyon"), ("plant", some "A|plant=B")]

/-- A policy without keys, stored before the scope had any, lets through a query without keys; and a
policy lets through a query with another site. -/
theorem canScope_beyond_grants :
    (canScope (.afterFetches [some (nodeSnapshot [])])
          ((Enforcer.afterFetches [some (nodeSnapshot [])]).reload none) (some designer) "NODE"
          "READ_NODE" [] = .ok true ∧
        ¬ (snapshotOfCheck [some (nodeSnapshot [])] none).Grants (some designer) "NODE" "READ_NODE" []) ∧
      canScope (.afterFetches [some (nodeSnapshot barInPlant)])
          ((Enforcer.afterFetches [some (nodeSnapshot barInPlant)]).reload none) (some designer) "NODE"
          "READ_NODE" barInSite = .ok true ∧
        ¬ (snapshotOfCheck [some (nodeSnapshot barInPlant)] none).Grants (some designer) "NODE" "READ_NODE"
          barInSite := by
  refine ⟨⟨by decide, ?_⟩, by decide, ?_⟩
  · rintro ⟨row, -, -, hagree⟩
    obtain ⟨v, hv, -⟩ := hagree "nodeType" (by decide)
    cases hv
  · rintro ⟨row, hrow, -, hagree⟩
    obtain rfl := List.mem_singleton.mp hrow
    obtain ⟨v, hv, hv'⟩ := hagree "site" (by decide)
    exact absurd (hv.trans hv'.symm) (by decide)

end Example

end PlmCore.Platform
