/-
pno-api and the services that check against its grants.

The requests of pno-api, the pulls of the services and their checks are tasks. A task is at
one of its program points, and one step of it is one statement on the tables or one access to
what tasks share: the mirror of the scope catalog, and a service's scope definitions, rows and
rules. Any task may take the next step.
-/
import PlmCore.Lib.Run
import PlmCore.Pno.Grants
import Mathlib.Logic.Function.Basic

set_option autoImplicit false

namespace PlmCore.Pno

open PlmCore.Platform (PolicyRow ScopeDef ScopeDefinitionCache AuthzContext Keys Rule Enforcer)

/-! ## Services -/

/-- What a service shares between its threads: `ScopeDefinitionCache`, the rows of
`DynamicPolicyAdapter` and the rules of the `Enforcer`. `loadedWith` records the definitions
the last `loadPolicy` read; nothing reads it. -/
structure Consumer where
  scopes : ScopeDefinitionCache
  snapshot : List PolicyRow
  rules : List Rule
  loadedWith : ScopeDefinitionCache

/-- The response to `GET /internal/authorization/snapshot`. -/
structure Snapshot where
  scopes : List ScopeDef
  policies : List PolicyRow

/-- A call of `canScope`: the service and the thread's context, and the arguments. -/
structure Check (κ : Type) where
  consumer : κ
  ctx : Option AuthzContext
  scopeCode : String
  permissionCode : String
  keys : Keys

/-! ## Tasks -/

/-- `effective_keys` of a listed scope under way in `snapshot`. -/
structure Effective where
  code : String
  parent : Option String
  walk : Walk

def ScopeRecord.effective (r : ScopeRecord) : Effective := ⟨r.code, r.parent, ⟨some r.code, []⟩⟩

/-- A task by what it does next. -/
inductive Task (κ : Type) where
  | idle
  /-- `register`: the transaction of `register_all`. -/
  | register (service_code : String) (scopes : List ScopeRegistration)
  /-- `load`: SELECT from `permission_scope`. -/
  | loadScopes
  /-- SELECT from `permission_scope_key`. -/
  | loadKeys (next : Records)
  /-- `scopes_by_code.clear()`. -/
  | loadClear (next : Records)
  /-- `scopes_by_code.insert` of one of the records left. -/
  | loadInsert (next : Records)
  /-- `add_grant`: `validate` and `compute_fingerprint`. -/
  | addAdmit (g : GrantRequest)
  /-- SELECT of an identical row. -/
  | addSelect (g : GrantRequest) (fingerprint : String)
  /-- INSERT into `authorization_policy`. -/
  | addInsert (g : GrantRequest) (fingerprint : String)
  /-- INSERT of the next key row. -/
  | addKeys (id : Nat) (left : KeyMap)
  /-- `remove_grant`: `validate` and `compute_fingerprint`. -/
  | removeAdmit (g : GrantRequest)
  /-- DELETE from `authorization_policy`. -/
  | removeDelete (g : GrantRequest) (fingerprint : String)
  /-- `reload` of a service, in `snapshot` of pno-api: `list_all_grants`. -/
  | pullGrants (c : κ)
  /-- `scopes.snapshot()`. -/
  | pullScopes (c : κ) (policies : List PolicyRow)
  /-- `effective_keys`, one read at a time. -/
  | pullKeys (c : κ) (policies : List PolicyRow) (done : List ScopeDef) (current : Effective)
      (todo : List Effective)
  /-- The response has come: `scopes.reload`. -/
  | swapScopes (c : κ) (snap : Snapshot)
  /-- `adapter.setSnapshot`. -/
  | setSnapshot (c : κ) (snap : Snapshot)
  /-- `enforcer.loadPolicy`. -/
  | loadPolicy (c : κ) (snap : Snapshot)
  /-- `canScope` up to `encode`; `retried` after the reload that an empty cache causes. -/
  | canScope (q : Check κ) (retried : Bool)
  /-- `enforcer.enforce` for the next role. -/
  | enforce (q : Check κ) (object : Option String) (attrs : String) (roles : List String)
  | answered (q : Check κ) (granted : Bool)

/-- What a task can begin with. -/
inductive Request (κ : Type) where
  | register (service_code : String) (scopes : List ScopeRegistration)
  | load
  | add_grant (g : GrantRequest)
  | remove_grant (g : GrantRequest)
  | reload (c : κ)
  | canScope (q : Check κ)

def Request.task {κ : Type} : Request κ → Task κ
  | .register service_code scopes => .register service_code scopes
  | .load => .loadScopes
  | .add_grant g => .addAdmit g
  | .remove_grant g => .removeAdmit g
  | .reload c => .pullGrants c
  | .canScope q => .canScope q false

/-! ## Steps -/

variable {ι κ : Type} [DecidableEq ι] [DecidableEq κ]

structure Net (ι κ : Type) where
  /-- `permission_scope` and `permission_scope_key`. -/
  catalog : Records
  /-- `ScopeRegistry.scopes_by_code`. -/
  registry : Records
  /-- `authorization_policy` and `authorization_policy_key`. -/
  grants : List Grant
  nextId : Nat
  consumers : κ → Consumer
  tasks : ι → Task κ

inductive Event (ι κ : Type) where
  | start (i : ι) (r : Request κ)
  /-- The next step of a task; `pick` is the record that the iteration over a map comes to. -/
  | advance (i : ι) (pick : Nat)
  /-- A task ends where it is: its answer is sent, a statement or a call fails. -/
  | stop (i : ι)

/-- At the start the tables hold what the migrations put there, and nothing is loaded. -/
def Net.boot (catalog : Records) (grants : List Grant) (nextId : Nat) : Net ι κ where
  catalog
  registry := []
  grants
  nextId
  consumers := fun _ => ⟨[], [], [], []⟩
  tasks := fun _ => .idle

def Net.setTask (s : Net ι κ) (i : ι) (t : Task κ) : Net ι κ :=
  { s with tasks := Function.update s.tasks i t }

def Net.setConsumer (s : Net ι κ) (c : κ) (v : Consumer) : Net ι κ :=
  { s with consumers := Function.update s.consumers c v }

/-- `canScope` between the thread's context and the loop over the roles. -/
def Check.begin (q : Check κ) (scopes : ScopeDefinitionCache) (retried : Bool) : Task κ :=
  match q.ctx with
  | none => .answered q false
  | some ctx =>
    if ctx.isAdmin then .answered q true
    else if ctx.roleIds = [] then .answered q false
    else if !scopes.isPopulated then
      if retried then .answered q false else .canScope q true
    else if Lib.nullOrBlank ctx.projectSpaceId then .idle
    else
      let (object, attrs) := Platform.encode scopes q.scopeCode q.keys
      .enforce q object attrs ctx.roleIds

/-- The project space a check is made in. -/
def Check.projectSpaceId (q : Check κ) : String := ((q.ctx.bind (·.projectSpaceId)).getD "")

/-- One role of `canScope`. -/
def Check.tryRole (q : Check κ) (rules : List Rule) (object : Option String) (attrs : String) :
    List String → Task κ
  | [] => .answered q false
  | role :: roles =>
    if Platform.enforce rules role q.projectSpaceId q.scopeCode q.permissionCode object attrs then
      .answered q true
    else .enforce q object attrs roles

variable (sha256 : String → String) (depth : Nat)

/-- One step of a task. -/
def Net.advance (s : Net ι κ) (i : ι) (pick : Nat) : Net ι κ :=
  match s.tasks i with
  | .idle => s
  | .register service_code scopes =>
    match register_all sha256 s.catalog service_code scopes with
    | .error _ => s.setTask i .idle
    | .ok (catalog, any_change) =>
      { s with catalog }.setTask i (if any_change then .loadScopes else .idle)
  | .loadScopes => s.setTask i (.loadKeys (s.catalog.map fun r => { r with keys := [] }))
  | .loadKeys next =>
    -- the keys of scopes the first SELECT did not see are passed over
    s.setTask i (.loadClear (next.map fun r =>
      { r with keys := ((s.catalog.get r.code).map (·.keys)).getD [] }))
  | .loadClear next => { s with registry := [] }.setTask i (.loadInsert next)
  | .loadInsert next =>
    match next[pick % next.length]? with
    | none => s.setTask i .idle
    | some r =>
      { s with registry := s.registry.insert r }.setTask i
        (.loadInsert (next.eraseIdx (pick % next.length)))
  | .addAdmit g =>
    match admission sha256 s.registry depth g with
    | none => s.setTask i .idle
    | some fingerprint => s.setTask i (.addSelect g fingerprint)
  | .addSelect g fingerprint =>
    if s.grants.any (·.matches g fingerprint) then s.setTask i .idle
    else s.setTask i (.addInsert g fingerprint)
  | .addInsert g fingerprint =>
    -- uq_authorization_policy
    if s.grants.any (·.matches g fingerprint) then s.setTask i .idle
    else
      { s with grants := s.grants ++ [g.row s.nextId fingerprint], nextId := s.nextId + 1 }.setTask i
        (.addKeys s.nextId g.keys)
  | .addKeys _ [] => s.setTask i .idle
  | .addKeys id (e :: left) =>
    -- the foreign key fails when the grant has been removed meanwhile
    if s.grants.any (·.id = id) then
      { s with grants := insertKey s.grants id e }.setTask i (.addKeys id left)
    else s.setTask i .idle
  | .removeAdmit g =>
    match admission sha256 s.registry depth g with
    | none => s.setTask i .idle
    | some fingerprint => s.setTask i (.removeDelete g fingerprint)
  | .removeDelete g fingerprint =>
    { s with grants := s.grants.filter fun h => !h.matches g fingerprint }.setTask i .idle
  | .pullGrants c => s.setTask i (.pullScopes c (list_all_grants s.grants))
  | .pullScopes c policies =>
    match s.registry.map ScopeRecord.effective with
    | [] => s.setTask i (.swapScopes c ⟨[], policies⟩)
    | e :: todo => s.setTask i (.pullKeys c policies [] e todo)
  | .pullKeys c policies done e todo =>
    match s.registry.climb e.walk with
    | some walk => s.setTask i (.pullKeys c policies done { e with walk } todo)
    | none =>
      let done := done ++ [⟨e.code, e.parent, e.walk.keys⟩]
      match todo with
      | [] => s.setTask i (.swapScopes c ⟨done, policies⟩)
      | e :: todo => s.setTask i (.pullKeys c policies done e todo)
  | .swapScopes c snap =>
    (s.setConsumer c { s.consumers c with scopes := snap.scopes }).setTask i (.setSnapshot c snap)
  | .setSnapshot c snap =>
    (s.setConsumer c { s.consumers c with snapshot := snap.policies }).setTask i (.loadPolicy c snap)
  | .loadPolicy c _ =>
    let v := s.consumers c
    (s.setConsumer c { v with
      rules := Platform.loadPolicy v.scopes v.snapshot, loadedWith := v.scopes }).setTask i .idle
  | .canScope q retried => s.setTask i (q.begin (s.consumers q.consumer).scopes retried)
  | .enforce q object attrs roles =>
    s.setTask i (q.tryRole (s.consumers q.consumer).rules object attrs roles)
  | .answered _ _ => s

def Net.step (s : Net ι κ) : Event ι κ → Net ι κ
  | .start i r =>
    match s.tasks i with
    | .idle => s.setTask i r.task
    | _ => s
  | .advance i pick => s.advance sha256 depth i pick
  | .stop i => s.setTask i .idle

/-! ## A check on its own -/

variable {s : Net ι κ} {i : ι}

omit [DecidableEq κ] in
@[simp] theorem Net.setTask_setTask (s : Net ι κ) (i : ι) (t t' : Task κ) :
    (s.setTask i t).setTask i t' = s.setTask i t' := by
  simp [Net.setTask]

omit [DecidableEq κ] in
@[simp] theorem Net.setTask_tasks (s : Net ι κ) (i : ι) (t : Task κ) :
    (s.setTask i t).tasks i = t := by
  simp [Net.setTask]

/-- What a service checks against. -/
def Net.enforcer (s : Net ι κ) (c : κ) : Enforcer := ⟨(s.consumers c).scopes, (s.consumers c).rules⟩

/-- The loop over the roles asks for one after the other. -/
theorem Net.run_enforce {q : Check κ} {object : Option String} {attrs : String}
    {roles : List String} (h : s.tasks i = .enforce q object attrs roles) :
    ∃ n, Lib.run (Net.step sha256 depth) s (List.replicate n (.advance i 0))
      = s.setTask i (.answered q (roles.any fun role =>
          Platform.enforce (s.enforcer q.consumer).rules role q.projectSpaceId q.scopeCode
            q.permissionCode object attrs)) := by
  induction roles generalizing s with
  | nil =>
    refine ⟨1, ?_⟩
    simp [Net.step, Net.advance, h, Check.tryRole]
  | cons role roles ih =>
    by_cases hrole : Platform.enforce (s.enforcer q.consumer).rules role q.projectSpaceId
        q.scopeCode q.permissionCode object attrs = true
    · refine ⟨1, ?_⟩
      simp only [Net.enforcer] at hrole
      simp [Net.step, Net.advance, h, Check.tryRole, Net.enforcer, hrole]
    · have hstep : s.step sha256 depth (.advance i 0) = s.setTask i (.enforce q object attrs roles) := by
        simp only [Net.enforcer] at hrole
        simp [Net.step, Net.advance, h, Check.tryRole, hrole]
      obtain ⟨n, hn⟩ := ih (s := s.setTask i (.enforce q object attrs roles)) (by simp)
      refine ⟨n + 1, ?_⟩
      rw [List.replicate_succ, Lib.run_cons, hstep, hn, Net.setTask_setTask, List.any_cons,
        Bool.eq_false_iff.mpr hrole, Bool.false_or]
      rfl

/-- **A check that nothing comes between is `canScope`.** Where that throws, the task ends
without an answer. -/
theorem Net.run_canScope {q : Check κ} (h : s.tasks i = .canScope q false) :
    ∃ n, Lib.run (Net.step sha256 depth) s (List.replicate n (.advance i 0))
      = s.setTask i (match Platform.canScope (s.enforcer q.consumer) (s.enforcer q.consumer) q.ctx
          q.scopeCode q.permissionCode q.keys with
        | .ok granted => .answered q granted
        | .error _ => .idle) := by
  have hstep : ∀ retried, s.tasks i = .canScope q retried → s.step sha256 depth (.advance i 0)
      = s.setTask i (q.begin (s.enforcer q.consumer).scopes retried) := by
    intro retried ht
    simp [Net.step, Net.advance, ht, Net.enforcer]
  cases hctx : q.ctx with
  | none =>
    refine ⟨1, ?_⟩
    simp [hstep false h, Check.begin, hctx, Platform.canScope]
  | some ctx =>
    by_cases hadmin : ctx.isAdmin = true
    · refine ⟨1, ?_⟩
      simp [hstep false h, Check.begin, hctx, Platform.canScope, hadmin]
    by_cases hroles : ctx.roleIds = []
    · refine ⟨1, ?_⟩
      simp [hstep false h, Check.begin, hctx, Platform.canScope, hadmin, hroles]
    cases hpop : (s.enforcer q.consumer).scopes.isPopulated with
    | false =>
      -- the second look at the cache denies
      refine ⟨2, ?_⟩
      have hsecond : (s.setTask i (.canScope q true)).step sha256 depth (.advance i 0)
          = s.setTask i (.answered q false) := by
        have hpop' : ((s.setTask i (.canScope q true)).consumers q.consumer).scopes.isPopulated
            = false := hpop
        simp [Net.step, Net.advance, Check.begin, hctx, hadmin, hroles, hpop']
      simp [hstep false h, Check.begin, hctx, Platform.canScope, hadmin, hroles, hpop, hsecond]
    | true =>
      cases hspace : Lib.nullOrBlank ctx.projectSpaceId with
      | true =>
        refine ⟨1, ?_⟩
        simp [hstep false h, Check.begin, hctx, Platform.canScope, hadmin, hroles, hpop, hspace]
      | false =>
        obtain ⟨object, attrs, hencode⟩ : ∃ object attrs,
            Platform.encode (s.enforcer q.consumer).scopes q.scopeCode q.keys = (object, attrs) :=
          ⟨_, _, rfl⟩
        have hbegin : s.step sha256 depth (.advance i 0)
            = s.setTask i (.enforce q object attrs ctx.roleIds) := by
          simp [hstep false h, Check.begin, hctx, hadmin, hroles, hpop, hspace, hencode]
        obtain ⟨n, hn⟩ := Net.run_enforce sha256 depth
          (s := s.setTask i (.enforce q object attrs ctx.roleIds)) (i := i)
          (s.setTask_tasks i _)
        refine ⟨n + 1, ?_⟩
        rw [List.replicate_succ, Lib.run_cons, hbegin, hn, Net.setTask_setTask]
        simp [Platform.canScope, hctx, hadmin, hroles, hpop, hspace, hencode, Check.projectSpaceId]
        rfl

end PlmCore.Pno
