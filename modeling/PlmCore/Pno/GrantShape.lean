/-
The shape of the stored grants.

`add_grant` validates the keys of a grant against the mirror of the scopes and stores the
fingerprint they give. A registration may later write other keys or another parent for a scope,
and the grants of the scopes at or below it stay as they were.
-/
import PlmCore.Pno.Grants
import PlmCore.Pno.ScopeForest

set_option autoImplicit false

namespace PlmCore.Pno

open PlmCore.Lib

/-- The tables, the mirror of the scopes, and the next id of a grant. -/
structure GrantStore where
  catalog : Records
  registry : Records
  grants : List Grant
  nextId : Nat
  deriving DecidableEq

/-- A request, carried out as a whole. `fails` counts the INSERTs that succeed before one fails;
the loops over the spaces come with the spaces they get to. -/
inductive GrantEvent
  | register (batch : Registration) (reloaded : Bool)
  | add_grant (r : GrantRequest) (fails : Option Nat)
  | remove_grant (r : GrantRequest)
  | add_grant_all_spaces (r : GrantRequest) (spaces : List (String × Option Nat))
  | remove_grant_all_spaces (r : GrantRequest) (spaces : List String)

section Store

variable (sha256 : String → String) (depth : Nat)

namespace GrantStore

variable (s : GrantStore)

/-- `register`: the batch, and after a change the reload of the mirror, whose failure is only
logged. -/
def register (batch : Registration) (reloaded : Bool) : GrantStore :=
  match register_all sha256 s.catalog batch.service_code batch.scopes with
  | .error _ => s
  | .ok (catalog, changed) =>
    if changed && reloaded then { s with catalog, registry := catalog } else { s with catalog }

/-- `add_grant`, and whether it returned `Ok`. -/
def add_grant (r : GrantRequest) (fails : Option Nat) : GrantStore × Bool :=
  match admission sha256 s.registry depth r with
  | none => (s, false)
  | some fingerprint =>
    if s.grants.any (·.matches r fingerprint) then (s, true)
    else
      let row := r.row s.nextId fingerprint
      match fails with
      | some 0 => (s, false)
      -- the row of the grant and the keys inserted so far stay
      | some (n + 1) =>
        ({ s with grants := s.grants ++ [{ row with keys := r.keys.take n }]
                  nextId := s.nextId + 1 }, false)
      | none =>
        ({ s with grants := s.grants ++ [{ row with keys := r.keys }]
                  nextId := s.nextId + 1 }, true)

def remove_grant (r : GrantRequest) : GrantStore :=
  match admission sha256 s.registry depth r with
  | none => s
  | some fingerprint => { s with grants := s.grants.filter fun g => !g.matches r fingerprint }

/-- The first error ends the loop. -/
def add_grant_all_spaces (r : GrantRequest) : GrantStore → List (String × Option Nat) → GrantStore
  | s, [] => s
  | s, (space, fails) :: spaces =>
    match s.add_grant sha256 depth { r with project_space_id := space } fails with
    | (s', true) => add_grant_all_spaces r s' spaces
    | (s', false) => s'

def remove_grant_all_spaces (r : GrantRequest) (spaces : List String) : GrantStore :=
  spaces.foldl
    (fun s space => s.remove_grant sha256 depth { r with project_space_id := space }) s

def step : GrantEvent → GrantStore
  | .register batch reloaded => s.register sha256 batch reloaded
  | .add_grant r fails => (s.add_grant sha256 depth r fails).1
  | .remove_grant r => s.remove_grant sha256 depth r
  | .add_grant_all_spaces r spaces => add_grant_all_spaces sha256 depth r s spaces
  | .remove_grant_all_spaces r spaces => s.remove_grant_all_spaces sha256 depth r spaces

end GrantStore

/-- The request that names what a grant row holds. -/
def Grant.request (g : Grant) : GrantRequest :=
  ⟨g.permission_code, g.scope_code, g.role_id, g.project_space_id, g.keys⟩

/-! ## The condition -/

/-- The parent and the keys of a registered scope. -/
def Records.shape (rs : Records) (code : String) : Option (Option String × List String) :=
  (rs.get code).map fun r => (r.parent, r.keys)

/-- `rs'` has the scopes from `code` up in the shape they have in `rs`. -/
def Records.SameShape (rs rs' : Records) (code : String) : Prop :=
  ∀ a, ComesTo rs.parentOf code a → rs'.shape a = rs.shape a

/-- The scope of a new grant has no key twice, the mirror has it as the tables do, and the INSERTs
of the keys do not fail after that of the grant. -/
def GrantStore.Ready (s : GrantStore) (r : GrantRequest) (fails : List (Option Nat)) : Prop :=
  (∀ names, s.registry.effective_keys depth r.scope_code = some names → names.Nodup) ∧
    s.registry.SameShape s.catalog r.scope_code ∧ ∀ f ∈ fails, f = none ∨ f = some 0

/-- A registration repeats the shape of the scopes at or above that of a grant, and a grant is
added when the store is ready for it. -/
def GrantStore.Careful (s : GrantStore) : GrantEvent → Prop
  | .register batch _ => ∀ g ∈ s.grants, ∀ scope ∈ batch.scopes,
      ComesTo s.catalog.parentOf g.scope_code scope.scope_code →
        s.catalog.shape scope.scope_code = some (scope.parent_scope_code, scope.keys)
  | .add_grant r fails => s.Ready depth r [fails]
  | .add_grant_all_spaces r spaces => s.Ready depth r (spaces.map (·.2))
  | .remove_grant _ | .remove_grant_all_spaces _ _ => True

/-! ## The invariant -/

/-- The row passes `validate` with the fingerprint it has. -/
structure Grant.Valid (registry : Records) (g : Grant) : Prop where
  admission : admission sha256 registry depth g.request = some g.keys_fingerprint
  unambiguous : ∀ names, registry.effective_keys depth g.scope_code = some names → names.Nodup

/-- Every row is valid, and the mirror has its scope as the tables do. -/
def GrantStore.Shaped (s : GrantStore) : Prop :=
  ∀ g ∈ s.grants, g.Valid sha256 depth s.registry ∧ s.registry.SameShape s.catalog g.scope_code

/-! ## Scopes that keep their shape -/

variable {sha256 depth} {rs rs' rs'' : Records} {code : String}

theorem Records.parentOf_eq_shape (rs : Records) (code : String) :
    rs.parentOf code = (rs.shape code).bind (·.1) := by
  rw [Records.parentOf, Records.shape, Option.bind_map]
  rfl

theorem Records.SameShape.agreeFrom (h : rs.SameShape rs' code) :
    AgreeFrom rs.parentOf rs'.parentOf code := by
  intro a ha
  rw [Records.parentOf_eq_shape, Records.parentOf_eq_shape, h a ha]

theorem Records.SameShape.trans (h : rs.SameShape rs' code) (h' : rs'.SameShape rs'' code) :
    rs.SameShape rs'' code :=
  fun a ha => (h' a (h.agreeFrom.comesTo ha)).trans (h a ha)

/-- Scopes of the same shape have the same effective keys. -/
theorem Records.SameShape.effective_keys (h : rs.SameShape rs' code) :
    rs'.effective_keys depth code = rs.effective_keys depth code := by
  induction depth generalizing code with
  | zero => rfl
  | succ depth ih =>
    have hshape := h code ComesTo.refl
    simp only [Records.effective_keys]
    cases hget : rs.get code with
    | none =>
      have hget' : rs'.get code = none := by simpa [Records.shape, hget] using hshape
      rw [hget']
    | some r =>
      obtain ⟨r', hget', hr'⟩ : ∃ r', rs'.get code = some r' ∧
          (r'.parent, r'.keys) = (r.parent, r.keys) := by
        simpa [Records.shape, hget] using hshape
      obtain ⟨hparent, hkeys⟩ := Prod.mk.inj hr'
      rw [hget']
      dsimp only
      rw [hparent, hkeys]
      cases hp : r.parent with
      | none => rfl
      | some p =>
        have hstep : rs.parentOf code = some p := by simp [Records.parentOf, hget, hp]
        dsimp only
        rw [ih fun a ha => h a (ha.head hstep)]

/-- A grant is admitted with the same fingerprint. -/
theorem Records.SameShape.admission {r : GrantRequest} (h : rs.SameShape rs' r.scope_code) :
    admission sha256 rs' depth r = admission sha256 rs depth r := by
  have hshape : rs'.shape r.scope_code = none ↔ rs.shape r.scope_code = none := by
    rw [h r.scope_code ComesTo.refl]
  have hget : rs'.get r.scope_code = none ↔ rs.get r.scope_code = none := by
    simpa [Records.shape] using hshape
  have hvalidate : validate rs' depth r.scope_code r.keys = validate rs depth r.scope_code r.keys := by
    unfold validate
    rw [h.effective_keys]
    cases hrs : rs.get r.scope_code with
    | none => rw [hget.mpr hrs]
    | some record =>
      cases hrs' : rs'.get r.scope_code with
      | none => rw [hget.mp hrs'] at hrs; cases hrs
      | some record' => rfl
  rw [Pno.admission, Pno.admission, hvalidate, compute_fingerprint, compute_fingerprint,
    h.effective_keys]

/-! ## A batch that repeats the shape of scopes -/

theorem mem_of_topological_pass {resolved : List String} {rest : List ScopeRegistration}
    {scope : ScopeRegistration} :
    (scope ∈ (topological_pass resolved rest).2.1 → scope ∈ rest) ∧
      (scope ∈ (topological_pass resolved rest).2.2 → scope ∈ rest) := by
  induction rest generalizing resolved with
  | nil => exact ⟨id, id⟩
  | cons first rest ih =>
    simp only [topological_pass]
    split
    · refine ⟨fun h => ?_, fun h => List.mem_cons_of_mem _ (ih.2 h)⟩
      exact (List.mem_cons.mp h).elim (· ▸ List.mem_cons_self) fun h =>
        List.mem_cons_of_mem _ (ih.1 h)
    · refine ⟨fun h => List.mem_cons_of_mem _ (ih.1 h), fun h => ?_⟩
      exact (List.mem_cons.mp h).elim (· ▸ List.mem_cons_self) fun h =>
        List.mem_cons_of_mem _ (ih.2 h)

/-- The sort brings in no scope of its own. -/
theorem mem_of_topological_sort {passes : Nat} {resolved : List String}
    {scopes ordered : List ScopeRegistration} {scope : ScopeRegistration}
    (h : topological_sort passes resolved scopes = .ok ordered) (hscope : scope ∈ ordered) :
    scope ∈ scopes := by
  induction passes generalizing resolved scopes ordered with
  | zero =>
    cases scopes with
    | nil =>
      cases h
      cases hscope
    | cons => cases h
  | succ passes ih =>
    cases scopes with
    | nil =>
      cases h
      cases hscope
    | cons first rest =>
      simp only [topological_sort] at h
      split at h
      · cases h
      · rename_i resolved' taken left _ hpass
        have hmem := @mem_of_topological_pass resolved (first :: rest) scope
        rw [hpass] at hmem
        cases hsort : topological_sort passes resolved' left with
        | error e =>
          rw [hsort] at h
          cases h
        | ok later =>
          rw [hsort] at h
          cases h
          exact (List.mem_append.mp hscope).elim hmem.1 fun hlater => hmem.2 (ih hsort hlater)

theorem Records.shape_insert (rs : Records) (r : ScopeRecord) (code : String) :
    (rs.insert r).shape code = if code = r.code then some (r.parent, r.keys) else rs.shape code := by
  rw [Records.shape, Records.get_insert]
  split
  · rfl
  · rfl

/-- The scopes of a batch leave a scope its shape when each of them that is this scope repeats
it. -/
theorem Batch.shape_kept {service_code : String} {b b' : Batch} {ordered : List ScopeRegistration}
    {shape : Option (Option String × List String)} (hb : b.catalog.shape code = shape)
    (hrepeat : ∀ scope ∈ ordered, scope.scope_code = code →
      shape = some (scope.parent_scope_code, scope.keys))
    (h : ordered.foldlM (Batch.register sha256 service_code) b = .ok b') :
    b'.catalog.shape code = shape := by
  induction ordered generalizing b with
  | nil =>
    cases h
    exact hb
  | cons scope rest ih =>
    rw [List.foldlM_cons] at h
    cases hstep : b.register sha256 service_code scope with
    | error e =>
      rw [hstep] at h
      cases h
    | ok next =>
      rw [hstep] at h
      refine ih ?_ (fun scope hscope => hrepeat scope (List.mem_cons_of_mem _ hscope)) h
      obtain ⟨-, hsame⟩ | ⟨r, -, hcode, hparent, hkeys, -, hinsert⟩ := Batch.register_cases hstep
      · rw [hsame]
        exact hb
      · rw [hinsert, Records.shape_insert]
        split
        · rename_i heq
          have hscope : scope.scope_code = code := hcode.symm.trans heq.symm
          rw [hparent, hkeys, hrepeat scope List.mem_cons_self hscope]
        · exact hb

/-- **A batch** leaves the scopes from `code` up their shape when it repeats theirs. -/
theorem sameShape_of_register_all {catalog catalog' : Records} {batch : Registration}
    {changed : Bool}
    (h : register_all sha256 catalog batch.service_code batch.scopes = .ok (catalog', changed))
    (hrepeat : ∀ scope ∈ batch.scopes, ComesTo catalog.parentOf code scope.scope_code →
      catalog.shape scope.scope_code = some (scope.parent_scope_code, scope.keys)) :
    catalog.SameShape catalog' code := by
  obtain ⟨ordered, b, hsort, hb, rfl⟩ := register_all_cases h
  intro a ha
  refine Batch.shape_kept rfl (fun scope hscope hcode => ?_) hb
  rw [← hcode] at ha ⊢
  exact hrepeat scope (mem_of_topological_sort hsort hscope) ha

/-! ## What requests keep -/

variable {s : GrantStore}

theorem GrantStore.Shaped.register (h : s.Shaped sha256 depth) {batch : Registration}
    {reloaded : Bool} (he : s.Careful depth (.register batch reloaded)) :
    (s.register sha256 batch reloaded).Shaped sha256 depth := by
  unfold GrantStore.register
  split
  · exact h
  · rename_i catalog changed haccepted
    have hsame : ∀ g ∈ s.grants, s.registry.SameShape catalog g.scope_code := fun g hg =>
      (h g hg).2.trans (sameShape_of_register_all haccepted (he g hg))
    split
    · -- the mirror is the new catalog
      intro g hg
      obtain ⟨hvalid, -⟩ := h g hg
      refine ⟨⟨?_, ?_⟩, fun _ _ => rfl⟩
      · exact ((hsame g hg).admission (r := g.request)).trans hvalid.admission
      · rw [(hsame g hg).effective_keys]
        exact hvalid.unambiguous
    · exact fun g hg => ⟨(h g hg).1, hsame g hg⟩

/-- A grant is refused, is there already, fails without a trace, or is stored with all its keys. -/
theorem GrantStore.add_grant_cases {r : GrantRequest} {fails : Option Nat}
    (hfails : fails = none ∨ fails = some 0) :
    (s.add_grant sha256 depth r fails).1 = s ∨
      ∃ fingerprint, admission sha256 s.registry depth r = some fingerprint ∧
        (s.add_grant sha256 depth r fails).1 =
          { s with grants := s.grants ++ [{ r.row s.nextId fingerprint with keys := r.keys }]
                   nextId := s.nextId + 1 } := by
  unfold GrantStore.add_grant
  split
  · exact .inl rfl
  · rename_i fingerprint hadmission
    split
    · exact .inl rfl
    · obtain rfl | rfl := hfails
      · exact .inr ⟨fingerprint, hadmission, rfl⟩
      · exact .inl rfl

theorem GrantStore.Shaped.add_grant (h : s.Shaped sha256 depth) {r : GrantRequest}
    {fails : Option Nat} (hready : s.Ready depth r [fails]) :
    (s.add_grant sha256 depth r fails).1.Shaped sha256 depth := by
  obtain ⟨hnames, hsame, hfails⟩ := hready
  obtain heq | ⟨fingerprint, hadmission, heq⟩ :=
    @GrantStore.add_grant_cases sha256 depth s r fails (hfails fails (List.mem_singleton_self _))
  · rw [heq]
    exact h
  · rw [heq]
    intro g hg
    obtain hold | hnew := List.mem_append.mp hg
    · exact h g hold
    · rw [List.mem_singleton.mp hnew]
      exact ⟨⟨hadmission, hnames⟩, hsame⟩

theorem GrantStore.Shaped.remove_grant (h : s.Shaped sha256 depth) (r : GrantRequest) :
    (s.remove_grant sha256 depth r).Shaped sha256 depth := by
  unfold GrantStore.remove_grant
  split
  · exact h
  · exact fun g hg => h g (List.mem_of_mem_filter hg)

/-- Adding a grant leaves the scopes alone. -/
theorem GrantStore.add_grant_scopes (r : GrantRequest) (fails : Option Nat) :
    (s.add_grant sha256 depth r fails).1.registry = s.registry ∧
      (s.add_grant sha256 depth r fails).1.catalog = s.catalog := by
  unfold GrantStore.add_grant
  split
  · exact ⟨rfl, rfl⟩
  · split
    · exact ⟨rfl, rfl⟩
    · split <;> exact ⟨rfl, rfl⟩

theorem GrantStore.Shaped.add_grant_all_spaces (h : s.Shaped sha256 depth) {r : GrantRequest}
    {spaces : List (String × Option Nat)} (hready : s.Ready depth r (spaces.map (·.2))) :
    (GrantStore.add_grant_all_spaces sha256 depth r s spaces).Shaped sha256 depth := by
  induction spaces generalizing s with
  | nil => exact h
  | cons first spaces ih =>
    obtain ⟨space, fails⟩ := first
    obtain ⟨hnames, hsame, hfails⟩ := hready
    have hfirst : s.Ready depth { r with project_space_id := space } [fails] :=
      ⟨hnames, hsame, fun f hf => hfails f (List.mem_singleton.mp hf ▸ List.mem_cons_self)⟩
    have hstep := h.add_grant hfirst
    obtain ⟨hregistry, hcatalog⟩ := @GrantStore.add_grant_scopes sha256 depth s
      { r with project_space_id := space } fails
    simp only [GrantStore.add_grant_all_spaces]
    split
    · rename_i s' hs'
      rw [hs'] at hstep hregistry hcatalog
      refine ih hstep ⟨?_, ?_, fun f hf => hfails f (List.mem_cons_of_mem _ hf)⟩
      · rw [hregistry]
        exact hnames
      · rw [hregistry, hcatalog]
        exact hsame
    · rename_i s' hs'
      rw [hs'] at hstep
      exact hstep

theorem GrantStore.Shaped.remove_grant_all_spaces (h : s.Shaped sha256 depth) (r : GrantRequest)
    (spaces : List String) : (s.remove_grant_all_spaces sha256 depth r spaces).Shaped sha256 depth := by
  unfold GrantStore.remove_grant_all_spaces
  induction spaces generalizing s with
  | nil => exact h
  | cons space spaces ih => exact ih (h.remove_grant _)

/-- **One request** keeps the grants shaped. -/
theorem GrantStore.shaped_step (s : GrantStore) (e : GrantEvent) (h : s.Shaped sha256 depth)
    (he : s.Careful depth e) : (s.step sha256 depth e).Shaped sha256 depth := by
  cases e with
  | register batch reloaded => exact h.register he
  | add_grant r fails => exact h.add_grant he
  | remove_grant r => exact h.remove_grant _
  | add_grant_all_spaces r spaces => exact h.add_grant_all_spaces he
  | remove_grant_all_spaces r spaces => exact h.remove_grant_all_spaces _ spaces

/-! ## What a valid row has -/

theorem admission_eq_some {registry : Records} {r : GrantRequest} {fingerprint : String}
    (h : admission sha256 registry depth r = some fingerprint) :
    validate registry depth r.scope_code r.keys = .ok () ∧
      compute_fingerprint sha256 registry depth r.scope_code r.keys = some fingerprint := by
  unfold admission at h
  split at h
  · cases h
  · exact ⟨‹_›, h⟩

/-- Keys that pass `validate` are those of the scope, when the scope has no key twice. -/
theorem perm_of_validate {registry : Records} {scope_code : String} {keys : KeyMap}
    (h : validate registry depth scope_code keys = .ok ())
    (hnames : ∀ names, registry.effective_keys depth scope_code = some names → names.Nodup) :
    ∃ names, registry.effective_keys depth scope_code = some names ∧
      (keys.map (·.1)).Perm names := by
  unfold validate at h
  split at h
  · cases h
  · split at h
    · cases h
    · rename_i names heffective
      split at h
      · cases h
      · rename_i hlength
        split at h
        · cases h
        · rename_i hfind
          refine ⟨names, heffective, ?_⟩
          have hsub : names ⊆ keys.map (·.1) := by
            intro name hname
            have hvalue := List.find?_eq_none.mp hfind name hname
            cases hget : keys.get name with
            | none => simp [hget] at hvalue
            | some v =>
              obtain ⟨e, he, -⟩ := Option.map_eq_some_iff.mp hget
              have hkey : e.1 = name := by simpa using List.find?_some he
              exact List.mem_map.mpr ⟨e, List.mem_of_find?_eq_some he, hkey⟩
          have hsubperm := (hnames names heffective).subperm hsub
          refine (hsubperm.perm_of_length_le ?_).symm
          rw [List.length_map]
          exact (not_ne_iff.mp hlength).ge

/-- The request that names a valid row takes it out. -/
theorem Grant.Valid.removed {g : Grant} (h : g.Valid sha256 depth s.registry) :
    g ∉ (s.remove_grant sha256 depth g.request).grants := by
  unfold GrantStore.remove_grant
  rw [h.admission]
  intro hg
  obtain ⟨-, hkept⟩ := List.mem_filter.mp hg
  simp [Grant.matches, Grant.request] at hkept

/-- **Grants stay well-shaped** along a run of careful requests: the keys of every row are the
effective keys of its scope, its fingerprint is the one they give, and the request that mirrors it
removes it. -/
theorem grants_stay_shaped {start : GrantStore} (hstart : start.Shaped sha256 depth)
    {es : List GrantEvent}
    (h : Along (GrantStore.step sha256 depth) (GrantStore.Careful depth) start es)
    (past : List GrantEvent) (hpast : past <+: es) :
    ∀ g ∈ (run (GrantStore.step sha256 depth) start past).grants,
      (∃ names, (run (GrantStore.step sha256 depth) start past).registry.effective_keys depth
          g.scope_code = some names ∧ (g.keys.map (·.1)).Perm names) ∧
        compute_fingerprint sha256 (run (GrantStore.step sha256 depth) start past).registry depth
          g.scope_code g.keys = some g.keys_fingerprint ∧
        g ∉ ((run (GrantStore.step sha256 depth) start past).remove_grant sha256 depth
          g.request).grants := by
  obtain ⟨rest, rfl⟩ := hpast
  have hshaped := Along.invariant GrantStore.shaped_step hstart (Along.append.mp h).1
  intro g hg
  obtain ⟨hvalid, -⟩ := hshaped g hg
  obtain ⟨hvalidate, hfingerprint⟩ := admission_eq_some hvalid.admission
  exact ⟨perm_of_validate hvalidate hvalid.unambiguous, hfingerprint,
    hvalid.removed⟩

end Store

section Runs

def emptyStore : GrantStore := ⟨[], [], [], 0⟩

def readPartNodes : GrantRequest :=
  ⟨"READ_NODE", "NODE", "designer", "ps1", [("nodeType", "part")]⟩

/-- The owner of NODE gives it one more key. -/
def nodeWithSite : Registration := ⟨"psa", [⟨"NODE", none, ["nodeType", "site"], []⟩]⟩

def readPartRow : Grant :=
  ⟨0, "READ_NODE", "NODE", "designer", "ps1", "nodeType=part", [("nodeType", "part")]⟩

theorem grants_stay_shaped_of_parts :
    readPartRow ∉ ((run (GrantStore.step id 5) emptyStore
      [.register nodeScopes true, .add_grant readPartNodes none]).remove_grant id 5
        readPartRow.request).grants := by
  have hcareful : Along (GrantStore.step id 5) (GrantStore.Careful 5) emptyStore
      [.register nodeScopes true, .add_grant readPartNodes none] := by
    refine ⟨by simp [GrantStore.Careful, emptyStore], ⟨fun names hn => ?_, fun _ _ => rfl, by simp⟩,
      trivial⟩
    cases hn
    decide
  have hshaped : emptyStore.Shaped id 5 := fun g hg => by cases hg
  exact (grants_stay_shaped hshaped hcareful _ (List.prefix_refl _) readPartRow (by decide)).2.2

/-- After the second registration the row has too few keys, and its own request no longer removes
it. -/
theorem grant_of_reshaped_scope :
    let s := run (GrantStore.step id 5) emptyStore
      [.register nodeScopes true, .add_grant readPartNodes none, .register nodeWithSite true]
    readPartRow ∈ s.grants ∧ s.registry.effective_keys 5 "NODE" = some ["nodeType", "site"] ∧
      readPartRow ∈ (s.remove_grant id 5 readPartRow.request).grants := by
  decide

end Runs

end PlmCore.Pno
