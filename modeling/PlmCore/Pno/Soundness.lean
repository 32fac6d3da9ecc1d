/-
What a granted check says of the grant table.

A rule of a service stands for a grant that the table held when a snapshot was read, with
exactly the keys of its scope, as long as four things meet: the grants of the snapshot are
whole, the mirror answers as the catalog while the snapshot collects keys, the definitions and
the rows of one snapshot are made into rules together, and a check is written with the
definitions behind the rules it is compared with.
-/
import PlmCore.Lib.Run
import PlmCore.Platform.Encoding
import PlmCore.Pno.Net

set_option autoImplicit false

namespace PlmCore.Pno

open PlmCore.Lib
open PlmCore.Platform (PolicyRow ScopeDef ScopeDefinitionCache AuthzContext Keys Rule Enforcer
  projectRow Unambiguous)

variable {ι κ : Type}

/-! ## The condition -/

/-- The rows of a snapshot whose scopes are still being collected. -/
def Task.collecting : Task κ → List PolicyRow
  | .pullScopes _ policies => policies
  | .pullKeys _ policies _ _ _ => policies
  | _ => []

/-- Some of the rows is a grant in the scope. -/
def Concerns (policies : List PolicyRow) (code : String) : Prop :=
  ∃ row ∈ policies, row.scope = some code

/-- What the next step of a task must find. -/
def Net.Careful (sha256 : String → String) (s : Net ι κ) : Event ι κ → Prop
  | .start _ _ => True
  | .stop _ => True
  | .advance i _ =>
    match s.tasks i with
    | .register service_code scopes =>
      ∀ catalog changed, register_all sha256 s.catalog service_code scopes = .ok (catalog, changed) →
        ∀ j code, Concerns (s.tasks j).collecting code → s.catalog.SameAbove catalog code
    | .pullGrants _ => ∀ g ∈ s.grants, ∃ names, g.Whole s.catalog names
    | .pullScopes _ policies =>
      ∀ code, Concerns policies code → s.registry.get code = none → s.catalog.get code = none
    | .pullKeys _ policies _ e _ =>
      Concerns policies e.code → s.registry.climb e.walk = s.catalog.climb e.walk
    | .loadPolicy c snap =>
      (s.consumers c).scopes = snap.scopes ∧ (s.consumers c).snapshot = snap.policies
    | .enforce q object attrs _ =>
      Platform.encode (s.consumers q.consumer).loadedWith q.scopeCode q.keys = (object, attrs)
        ∧ Unambiguous ((s.consumers q.consumer).loadedWith.keysOf q.scopeCode) q.keys
    | _ => True

/-! ## What a check is granted for -/

/-- The grant, with the keys of its scope, is one for what is asked. -/
structure Grant.For (g : Grant) (names : List String) (q : Check κ) : Prop where
  permission : g.permission_code = q.permissionCode
  scope : g.scope_code = q.scopeCode
  holder : ∃ ctx, q.ctx = some ctx ∧ g.role_id ∈ ctx.roleIds
    ∧ ctx.projectSpaceId = some g.project_space_id
  keys : ∀ n ∈ names, g.toRow.keys.value n = q.keys.value n

section Invariant

variable (held : Grant → List String → Prop)

/-- Each row is a grant that was held with the keys its scope has in the catalog. -/
def Rows (catalog : Records) (policies : List PolicyRow) : Prop :=
  ∀ row ∈ policies, ∃ g names, row = g.toRow ∧ held g names ∧ catalog.Collects g.scope_code names

/-- Each row is a grant that was held with the keys that the definitions name. -/
def Named (scopes : ScopeDefinitionCache) (policies : List PolicyRow) : Prop :=
  ∀ row ∈ policies, ∃ g names, row = g.toRow ∧ held g names ∧ scopes.keysOf g.scope_code = names

/-- A snapshot that collects the keys of its scopes: those that are done, and those under way
or to come. -/
structure Collecting (catalog : Records) (policies : List PolicyRow) (done : List ScopeDef)
    (pending : List Effective) : Prop where
  rows : Rows held catalog policies
  defined : ∀ d ∈ done, Concerns policies d.code → catalog.Collects d.code d.keys
  walking : ∀ e ∈ pending, Concerns policies e.code →
    ComesTo catalog.climb ⟨some e.code, []⟩ e.walk
  listed : ∀ code, Concerns policies code →
    (∃ d ∈ done, d.code = code) ∨ (∃ e ∈ pending, e.code = code) ∨ catalog.get code = none

/-- Each rule is the projection of a grant that was held. -/
def RulesOk (v : Consumer) : Prop :=
  ∀ rule ∈ v.rules, ∃ g names, held g names ∧ v.loadedWith.keysOf g.scope_code = names
    ∧ projectRow v.loadedWith g.toRow = some rule

/-- A grant for what is asked was held. -/
def Covered (q : Check κ) : Prop := ∃ g names, held g names ∧ g.For names q

def TaskOk (catalog : Records) : Task κ → Prop
  | .pullScopes _ policies => Rows held catalog policies
  | .pullKeys _ policies done e todo => Collecting held catalog policies done (e :: todo)
  | .swapScopes _ snap => Named held snap.scopes snap.policies
  | .setSnapshot _ snap => Named held snap.scopes snap.policies
  | .loadPolicy _ snap => Named held snap.scopes snap.policies
  | .enforce q _ _ roles => ∃ ctx, q.ctx = some ctx ∧ roles ⊆ ctx.roleIds
    ∧ nullOrBlank ctx.projectSpaceId = false
  | .answered q granted => granted = true → (∃ ctx, q.ctx = some ctx ∧ ctx.isAdmin = false) →
    Covered held q
  | _ => True

structure Net.Backed (s : Net ι κ) : Prop where
  consumers : ∀ c, RulesOk held (s.consumers c)
  tasks : ∀ i, TaskOk held s.catalog (s.tasks i)

variable {held}

/-! ## Snapshots -/

theorem Rows.sameAbove {catalog catalog' : Records} {policies : List PolicyRow}
    (h : Rows held catalog policies)
    (hsame : ∀ code, Concerns policies code → catalog.SameAbove catalog' code) :
    Rows held catalog' policies := by
  intro row hrow
  obtain ⟨g, names, rfl, hheld, hkeys⟩ := h row hrow
  have hconcerns : Concerns policies g.scope_code := ⟨_, hrow, rfl⟩
  exact ⟨g, names, rfl, hheld, (hsame _ hconcerns).collects hkeys⟩

theorem Collecting.sameAbove {catalog catalog' : Records} {policies : List PolicyRow}
    {done : List ScopeDef} {pending : List Effective}
    (h : Collecting held catalog policies done pending)
    (hsame : ∀ code, Concerns policies code → catalog.SameAbove catalog' code) :
    Collecting held catalog' policies done pending where
  rows := h.rows.sameAbove hsame
  defined d hd hc := (hsame _ hc).collects (h.defined d hd hc)
  walking e he hc := (hsame _ hc).comesTo (h.walking e he hc)
  listed code hc := by
    rcases h.listed code hc with hdone | hpending | hnone
    · exact Or.inl hdone
    · exact Or.inr (Or.inl hpending)
    · exact Or.inr (Or.inr ((hsame _ hc).get_none hnone))

/-- The listing begins every scope the catalog has. -/
theorem Rows.list {catalog registry : Records} {policies : List PolicyRow}
    (h : Rows held catalog policies)
    (hseen : ∀ code, Concerns policies code → registry.get code = none → catalog.get code = none) :
    Collecting held catalog policies [] (registry.map ScopeRecord.effective) where
  rows := h
  defined d hd := absurd hd List.not_mem_nil
  walking e he _ := by
    obtain ⟨r, -, rfl⟩ := List.mem_map.mp he
    exact ComesTo.refl
  listed code hc := by
    cases hget : registry.get code with
    | none => exact Or.inr (Or.inr (hseen code hc hget))
    | some r =>
      have hr : r ∈ registry ∧ r.code = code := by
        have hfind := List.find?_some hget
        exact ⟨List.mem_of_find?_eq_some hget, of_decide_eq_true hfind⟩
      exact Or.inr (Or.inl ⟨r.effective, List.mem_map_of_mem hr.1, hr.2⟩)

/-- A read that answers as the catalog goes on. -/
theorem Collecting.climb {catalog : Records} {policies : List PolicyRow} {done : List ScopeDef}
    {e : Effective} {todo : List Effective} {walk : Walk}
    (h : Collecting held catalog policies done (e :: todo))
    (hclimb : Concerns policies e.code → catalog.climb e.walk = some walk) :
    Collecting held catalog policies done ({ e with walk } :: todo) where
  rows := h.rows
  defined := h.defined
  walking e' he' hc := by
    rcases List.mem_cons.mp he' with rfl | he'
    · exact (h.walking e List.mem_cons_self hc).tail (hclimb hc)
    · exact h.walking e' (List.mem_cons_of_mem _ he') hc
  listed code hc := by
    rcases h.listed code hc with hdone | ⟨e', he', hcode⟩ | hnone
    · exact Or.inl hdone
    · rcases List.mem_cons.mp he' with rfl | he'
      · exact Or.inr (Or.inl ⟨_, List.mem_cons_self, hcode⟩)
      · exact Or.inr (Or.inl ⟨e', List.mem_cons_of_mem _ he', hcode⟩)
    · exact Or.inr (Or.inr hnone)

/-- The end of a walk is the definition of the scope. -/
theorem Collecting.finish {catalog : Records} {policies : List PolicyRow} {done : List ScopeDef}
    {e : Effective} {todo : List Effective}
    (h : Collecting held catalog policies done (e :: todo))
    (hclimb : Concerns policies e.code → catalog.climb e.walk = none) :
    Collecting held catalog policies (done ++ [⟨e.code, e.parent, e.walk.keys⟩]) todo where
  rows := h.rows
  defined d hd hc := by
    rcases List.mem_append.mp hd with hd | hd
    · exact h.defined d hd hc
    · obtain rfl := List.mem_singleton.mp hd
      exact ⟨e.walk, ⟨h.walking e List.mem_cons_self hc, hclimb hc⟩, rfl⟩
  walking e' he' hc := h.walking e' (List.mem_cons_of_mem _ he') hc
  listed code hc := by
    rcases h.listed code hc with ⟨d, hd, hcode⟩ | ⟨e', he', hcode⟩ | hnone
    · exact Or.inl ⟨d, List.mem_append_left _ hd, hcode⟩
    · rcases List.mem_cons.mp he' with rfl | he'
      · exact Or.inl ⟨_, List.mem_append_right _ (List.mem_singleton_self _), hcode⟩
      · exact Or.inr (Or.inl ⟨e', he', hcode⟩)
    · exact Or.inr (Or.inr hnone)

theorem scopes_get_eq_some {scopes : ScopeDefinitionCache} {code : String}
    {d : ScopeDef} (h : scopes.get code = some d) : d ∈ scopes ∧ d.code = code := by
  have hmem := List.mem_of_getLast? h
  rw [List.mem_filter] at hmem
  exact ⟨hmem.1, of_decide_eq_true hmem.2⟩

theorem scopes_get_eq_none {scopes : ScopeDefinitionCache} {code : String}
    (h : scopes.get code = none) : ∀ d ∈ scopes, d.code ≠ code := by
  intro d hd hcode
  have hnil := List.getLast?_eq_none_iff.mp h
  exact (List.filter_eq_nil_iff.mp hnil) d hd (decide_eq_true hcode)

/-- **Collected definitions name the keys the grants have.** -/
theorem Collecting.named {catalog : Records} {policies : List PolicyRow} {done : List ScopeDef}
    (h : Collecting held catalog policies done []) : Named held done policies := by
  intro row hrow
  obtain ⟨g, names, rfl, hheld, hkeys⟩ := h.rows row hrow
  have hconcerns : Concerns policies g.scope_code := ⟨_, hrow, rfl⟩
  refine ⟨g, names, rfl, hheld, ?_⟩
  unfold Platform.ScopeDefinitionCache.keysOf
  cases hget : Platform.ScopeDefinitionCache.get done g.scope_code with
  | some d =>
    obtain ⟨hd, hcode⟩ := scopes_get_eq_some hget
    have hcollects := h.defined d hd (hcode ▸ hconcerns)
    rw [hcode] at hcollects
    exact hcollects.unique hkeys
  | none =>
    -- a scope that is not defined has no record, and then no keys
    have hnone : catalog.get g.scope_code = none := by
      rcases h.listed _ hconcerns with ⟨d, hd, hcode⟩ | ⟨e, he, -⟩ | hnone
      · exact absurd hcode (scopes_get_eq_none hget d hd)
      · exact absurd he List.not_mem_nil
      · exact hnone
    exact (Records.collects_nil_of_get hnone).unique hkeys

/-! ## Services and checks -/

/-- Rules made of the definitions and the rows of one snapshot stand for its grants. -/
theorem Named.rules {v : Consumer} (h : Named held v.scopes v.snapshot) :
    RulesOk held { v with rules := Platform.loadPolicy v.scopes v.snapshot, loadedWith := v.scopes } := by
  intro rule hrule
  obtain ⟨row, hrow, hproject⟩ := List.mem_filterMap.mp hrule
  obtain ⟨g, names, rfl, hheld, hkeys⟩ := h row hrow
  exact ⟨g, names, hheld, hkeys, hproject⟩

/-- **A rule that matches stands for a grant of what is asked.** -/
theorem RulesOk.covered {v : Consumer} {q : Check κ} {ctx : AuthzContext} {role : String}
    {object : Option String} {attrs : String} (h : RulesOk held v) (hctx : q.ctx = some ctx)
    (hrole : role ∈ ctx.roleIds) (hspace : nullOrBlank ctx.projectSpaceId = false)
    (hencode : Platform.encode v.loadedWith q.scopeCode q.keys = (object, attrs))
    (hfree : Unambiguous (v.loadedWith.keysOf q.scopeCode) q.keys)
    (henforce : Platform.enforce v.rules role q.projectSpaceId q.scopeCode q.permissionCode
      object attrs = true) : Covered held q := by
  obtain ⟨rule, hrule, hmatch⟩ := List.any_eq_true.mp henforce
  obtain ⟨hsub, hps, hscope, hact, hobject, hattrs⟩ := of_decide_eq_true hmatch
  obtain ⟨g, names, hheld, hnames, hproject⟩ := h rule hrule
  -- the six fields of the rule are those of the grant
  simp only [projectRow, Grant.toRow, Option.getD_some, Option.some.injEq] at hproject
  subst hproject
  dsimp only at hsub hps hscope hact hobject hattrs
  refine ⟨g, names, hheld, ⟨hact, hscope, ⟨ctx, hctx, hsub ▸ hrole, ?_⟩, ?_⟩⟩
  · cases hp : ctx.projectSpaceId with
    | none => simp [nullOrBlank, hp] at hspace
    | some ps => simp [hps, Check.projectSpaceId, hctx, hp]
  · rw [hscope] at hobject hattrs hnames
    subst hnames
    intro n hn
    refine (Platform.values_of_encode hfree ?_ ?_ n hn).symm
    · rw [hencode, ← hobject]
      rfl
    · rw [hencode]
      exact hattrs.symm

variable [DecidableEq ι] [DecidableEq κ] {s : Net ι κ}

omit [DecidableEq κ] in
theorem Net.Backed.setTask {i : ι} {t : Task κ} (h : s.Backed held)
    (ht : TaskOk held s.catalog t) : (s.setTask i t).Backed held where
  consumers := h.consumers
  tasks j := by
    by_cases hj : j = i
    · subst hj
      simpa [Net.setTask] using ht
    · simpa [Net.setTask, hj] using h.tasks j

omit [DecidableEq ι] in
theorem Net.Backed.setConsumer {c : κ} {v : Consumer} (h : s.Backed held) (hv : RulesOk held v) :
    (s.setConsumer c v).Backed held where
  consumers c' := by
    by_cases hc : c' = c
    · subst hc
      simpa [Net.setConsumer] using hv
    · simpa [Net.setConsumer, hc] using h.consumers c'
  tasks := h.tasks

omit [DecidableEq ι] [DecidableEq κ] in
/-- What is collected goes on under a catalog that has the same records above its scopes. -/
theorem Net.Backed.setCatalog {catalog : Records} (h : s.Backed held)
    (hsame : ∀ j code, Concerns (s.tasks j).collecting code → s.catalog.SameAbove catalog code) :
    Net.Backed held { s with catalog } where
  consumers := h.consumers
  tasks j := by
    have hj := h.tasks j
    have hsame := hsame j
    dsimp only
    cases ht : s.tasks j with
    | pullScopes c policies =>
      rw [ht] at hj hsame
      exact Rows.sameAbove hj hsame
    | pullKeys c policies done e todo =>
      rw [ht] at hj hsame
      exact Collecting.sameAbove hj hsame
    | _ =>
      rw [ht] at hj
      exact hj

omit [DecidableEq κ] in
theorem Check.begin_ok (q : Check κ) (scopes : ScopeDefinitionCache) (retried : Bool)
    (catalog : Records) : TaskOk held catalog (q.begin scopes retried) := by
  unfold Check.begin
  cases hctx : q.ctx with
  | none => intro h; cases h
  | some ctx =>
    dsimp only
    by_cases hadmin : ctx.isAdmin = true
    · -- an admin is answered without a grant
      rw [if_pos hadmin]
      rintro - ⟨ctx', hctx', hno⟩
      rw [hctx] at hctx'
      cases hctx'
      rw [hadmin] at hno
      cases hno
    · rw [if_neg hadmin]
      by_cases hroles : ctx.roleIds = []
      · rw [if_pos hroles]
        intro h
        cases h
      · rw [if_neg hroles]
        cases hpop : scopes.isPopulated with
        | false =>
          cases retried with
          | false => trivial
          | true => intro h; cases h
        | true =>
          cases hspace : nullOrBlank ctx.projectSpaceId with
          | true => trivial
          | false => exact ⟨ctx, hctx, List.Subset.refl _, hspace⟩

variable (sha256 : String → String) (depth : Nat)

/-- **A careful step keeps rules and answers backed.** -/
theorem Net.Backed.step (h : s.Backed held)
    (hheld : ∀ g ∈ s.grants, ∀ names, g.Whole s.catalog names → held g names)
    {e : Event ι κ} (hcareful : s.Careful sha256 e) :
    (s.step sha256 depth e).Backed held := by
  cases e with
  | start i r =>
    simp only [Net.step]
    split
    · apply h.setTask
      cases r <;> trivial
    · exact h
  | stop i => exact h.setTask trivial
  | advance i pick =>
    -- one case for each task, in the order in which a task moves through its phases
    have hi := h.tasks i
    simp only [Net.Careful] at hcareful
    simp only [Net.step, Net.advance]
    cases ht : s.tasks i with
    | idle => exact h
    | register service_code scopes =>
      rw [ht] at hcareful
      dsimp only at hcareful ⊢
      cases hreg : register_all sha256 s.catalog service_code scopes with
      | error err => exact h.setTask trivial
      | ok r =>
        obtain ⟨catalog, any_change⟩ := r
        refine (h.setCatalog (hcareful catalog any_change hreg)).setTask ?_
        cases any_change <;> trivial
    | loadScopes => exact h.setTask trivial
    | loadKeys next => exact h.setTask trivial
    -- registry and grants of pno are no part of what the consumers hold
    | loadClear next => exact Net.Backed.setTask (s := { s with registry := [] }) ⟨h.1, h.2⟩ trivial
    | loadInsert next =>
      dsimp only
      split
      · exact h.setTask trivial
      · next r _ =>
        exact Net.Backed.setTask (s := { s with registry := s.registry.insert r }) ⟨h.1, h.2⟩ trivial
    | addAdmit g =>
      dsimp only
      split <;> exact h.setTask trivial
    | addSelect g fingerprint =>
      dsimp only
      split <;> exact h.setTask trivial
    | addInsert g fingerprint =>
      dsimp only
      split
      · exact h.setTask trivial
      · exact Net.Backed.setTask (s := { s with grants := _, nextId := _ }) ⟨h.1, h.2⟩ trivial
    | addKeys id left =>
      cases left with
      | nil => exact h.setTask trivial
      | cons e left =>
        dsimp only
        split
        · exact Net.Backed.setTask (s := { s with grants := _ }) ⟨h.1, h.2⟩ trivial
        · exact h.setTask trivial
    | removeAdmit g =>
      dsimp only
      split <;> exact h.setTask trivial
    | removeDelete g fingerprint =>
      exact Net.Backed.setTask (s := { s with grants := _ }) ⟨h.1, h.2⟩ trivial
    | pullGrants c =>
      rw [ht] at hcareful
      -- every row of the answer is of a grant whose keys were all read
      refine h.setTask fun row hrow => ?_
      obtain ⟨g, hg, rfl⟩ := List.mem_map.mp hrow
      obtain ⟨names, hwhole⟩ := hcareful g hg
      exact ⟨g, names, rfl, hheld g hg names hwhole, hwhole.1⟩
    | pullScopes c policies =>
      rw [ht] at hcareful hi
      -- the scopes come after the grants, and they are those of the catalog
      have hlist := Rows.list hi hcareful
      dsimp only
      split
      · next hnil =>
        rw [hnil] at hlist
        exact h.setTask hlist.named
      · next hcons =>
        rw [hcons] at hlist
        exact h.setTask hlist
    | pullKeys c policies done e todo =>
      rw [ht] at hcareful hi
      dsimp only at hcareful ⊢
      split
      · next walk hclimb =>
        -- one climb more, or the end of it
        exact h.setTask (hi.climb fun hc => (hcareful hc).symm.trans hclimb)
      · next hclimb =>
        have hfinish := hi.finish fun hc => (hcareful hc).symm.trans hclimb
        cases todo with
        | nil => exact h.setTask hfinish.named
        | cons e todo => exact h.setTask hfinish
    | swapScopes c snap =>
      rw [ht] at hi
      exact Net.Backed.setTask (h.setConsumer (h.consumers c)) hi
    | setSnapshot c snap =>
      rw [ht] at hi
      exact Net.Backed.setTask (h.setConsumer (h.consumers c)) hi
    | loadPolicy c snap =>
      rw [ht] at hcareful hi
      -- the rules are loaded from the scopes and the snapshot that the consumer holds now
      have hnamed : Named held (s.consumers c).scopes (s.consumers c).snapshot := by
        rw [hcareful.1, hcareful.2]
        exact hi
      exact Net.Backed.setTask (h.setConsumer hnamed.rules) trivial
    | canScope q retried => exact h.setTask (q.begin_ok _ retried _)
    | enforce q object attrs roles =>
      rw [ht] at hcareful hi
      obtain ⟨ctx, hctx, hroles, hspace⟩ := hi
      dsimp only
      cases roles with
      | nil => exact h.setTask fun hgranted => by cases hgranted
      | cons role roles =>
        simp only [Check.tryRole]
        split
        · next henforce =>
          -- the role that passed is covered by a rule, and a rule by a grant
          refine h.setTask fun _ _ => ?_
          exact (h.consumers q.consumer).covered hctx (hroles List.mem_cons_self) hspace
            hcareful.1 hcareful.2 henforce
        · exact h.setTask ⟨ctx, hctx, fun r hr => hroles (List.mem_cons_of_mem _ hr), hspace⟩
    | answered q granted => exact h

omit [DecidableEq ι] [DecidableEq κ] in
theorem Net.Backed.boot (catalog : Records) (grants : List Grant) (nextId : Nat) :
    Net.Backed held (Net.boot catalog grants nextId : Net ι κ) where
  consumers _ _ hrule := absurd hrule List.not_mem_nil
  tasks _ := trivial

end Invariant

/-! ## Runs -/

variable [DecidableEq ι] [DecidableEq κ]

/-- **A granted check has a grant behind it.** In every run all of whose steps are careful, a
check of a caller who is no admin is granted only if at some moment of the run the table held a
grant of that permission, in that scope and project space, to one of the caller's roles, for
exactly the keys the scope then had and with the values that are asked. -/
theorem canScope_granted_by_grant (sha256 : String → String) (depth : Nat) (catalog : Records)
    (grants : List Grant) (nextId : Nat) (es : List (Event ι κ))
    (hes : Along (Net.step sha256 depth) (Net.Careful sha256) (Net.boot catalog grants nextId) es)
    (i : ι) (q : Check κ) (ctx : AuthzContext)
    (hanswer : (run (Net.step sha256 depth) (Net.boot catalog grants nextId) es).tasks i
      = .answered q true)
    (hctx : q.ctx = some ctx) (hadmin : ctx.isAdmin = false) :
    ∃ past, past <+: es ∧
      ∃ g ∈ (run (Net.step sha256 depth) (Net.boot catalog grants nextId) past).grants, ∃ names,
        g.Whole (run (Net.step sha256 depth) (Net.boot catalog grants nextId) past).catalog names
          ∧ g.For names q := by
  let held : Grant → List String → Prop := fun g names => ∃ past, past <+: es ∧
    g ∈ (run (Net.step sha256 depth) (Net.boot catalog grants nextId) past).grants ∧
    g.Whole (run (Net.step sha256 depth) (Net.boot catalog grants nextId) past).catalog names
  have hbacked : (run (Net.step sha256 depth) (Net.boot catalog grants nextId) es).Backed held := by
    refine Along.invariant ?_ (Net.Backed.boot catalog grants nextId) hes.reached
    rintro s e hs ⟨hcareful, past, hpast, rfl⟩
    exact hs.step sha256 depth (fun g hg names hwhole => ⟨past, hpast, hg, hwhole⟩) hcareful
  have htask := hbacked.tasks i
  rw [hanswer] at htask
  obtain ⟨g, names, ⟨past, hpast, hg, hwhole⟩, hfor⟩ := htask rfl ⟨ctx, hctx, hadmin⟩
  exact ⟨past, hpast, g, hg, names, hwhole, hfor⟩

/-! ## A scope, a grant and a check -/

def globalScope : ScopeRecord := ⟨"GLOBAL", none, "h0", "psm", []⟩

def nodeScope : ScopeRecord := ⟨"NODE", none, "h1", "psm", ["nodeType"]⟩

def readParts : Grant := ⟨0, "READ_NODE", "NODE", "designer", "ps-1", "f", [("nodeType", "part")]⟩

def designer : AuthzContext := ⟨"u-1", ["designer"], false, some "ps-1"⟩

def readCheck (nodeType : String) : Check Unit :=
  ⟨(), some designer, "NODE", "READ_NODE", [("nodeType", some nodeType)]⟩

/-- A request and its first steps. -/
def steps (i : Nat) (r : Request Unit) (n : Nat) : List (Event Nat Unit) :=
  .start i r :: List.replicate n (.advance i 0)

/-- The service reloads and a designer asks to read a node. -/
def reloadAndCheck (nodeType : String) : List (Event Nat Unit) :=
  steps 2 (.reload ()) 7 ++ steps 3 (.canScope (readCheck nodeType)) 2

/-- The mirror is loaded before. -/
def partsRun : List (Event Nat Unit) := steps 0 .load 4 ++ reloadAndCheck "part"

theorem partsRun_careful : Along (Net.step (fun text => text) 1) (Net.Careful fun text => text)
    (Net.boot [nodeScope] [readParts] 1) partsRun := by
  have hkeys : Records.effective_keys [nodeScope] 1 "NODE" = some ["nodeType"] := rfl
  have hwhole : ∀ g ∈ [readParts], ∃ names, g.Whole [nodeScope] names := by
    intro g hg
    obtain rfl := List.mem_singleton.mp hg
    exact ⟨["nodeType"], Records.collects_of_effective_keys hkeys, fun name => Iff.rfl⟩
  refine ⟨trivial, trivial, trivial, trivial, trivial, trivial, hwhole, ?_, ?_, ?_, trivial,
    trivial, ⟨rfl, rfl⟩, trivial, trivial, ⟨rfl, Or.inl ?_⟩, trivial⟩
  · intro code _ hnone
    exact hnone
  · intro _
    rfl
  · intro _
    rfl
  · decide

theorem canScope_granted_by_grant_of_parts : ∃ past, past <+: partsRun ∧
    ∃ g ∈ (run (Net.step (fun text => text) 1) (Net.boot [nodeScope] [readParts] 1) past).grants,
      ∃ names, g.Whole (run (Net.step (fun text => text) 1)
        (Net.boot [nodeScope] [readParts] 1) past).catalog names ∧ g.For names (readCheck "part") :=
  canScope_granted_by_grant (fun text => text) 1 [nodeScope] [readParts] 1 partsRun partsRun_careful
    3 (readCheck "part") designer rfl rfl rfl

/-- The mirror is loaded a second time and holds the first of its records again. -/
def halfLoadedRun (nodeType : String) : List (Event Nat Unit) :=
  steps 0 .load 6 ++ steps 1 .load 4 ++ reloadAndCheck nodeType

/-- A service that pulls while the mirror is filled grants what no grant is for: without the
definition of the scope, the grant to read parts is one to read anything. -/
theorem canScope_granted_without_grant : ¬ ∀ (es : List (Event Nat Unit)) (i : Nat) (q : Check Unit)
    (ctx : AuthzContext),
    (run (Net.step (fun text => text) 1) (Net.boot [globalScope, nodeScope] [readParts] 1) es).tasks i
      = .answered q true → q.ctx = some ctx → ctx.isAdmin = false →
    ∃ past, past <+: es ∧
      ∃ g ∈ (run (Net.step (fun text => text) 1) (Net.boot [globalScope, nodeScope] [readParts] 1)
        past).grants, ∃ names,
        g.Whole (run (Net.step (fun text => text) 1)
          (Net.boot [globalScope, nodeScope] [readParts] 1) past).catalog names ∧ g.For names q := by
  intro hclaim
  obtain ⟨past, hpast, g, hg, names, hwhole, hfor⟩ :=
    hclaim (halfLoadedRun "assembly") 3 (readCheck "assembly") designer rfl rfl rfl
  -- the table holds the one grant all along
  have hgrants : ∀ past ∈ (halfLoadedRun "assembly").inits,
      (run (Net.step (fun text => text) 1) (Net.boot [globalScope, nodeScope] [readParts] 1)
        past).grants = [readParts] := by
    decide +kernel
  rw [hgrants past (List.mem_inits _ _ |>.mpr hpast)] at hg
  obtain rfl := List.mem_singleton.mp hg
  have hname : "nodeType" ∈ names := (hwhole.2 "nodeType").mpr (by decide)
  have hvalue := hfor.keys "nodeType" hname
  revert hvalue
  decide

end PlmCore.Pno
