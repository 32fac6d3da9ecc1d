/-
A batch of scopes that is registered twice.

After the first time the hash of every scope is stored, so the second time no scope is written,
unless the batch has one code with two definitions: then each of them overwrites the other. Value
sources are refreshed every time, which counts as a change.
-/
import PlmCore.Pno.CatalogBatch

set_option autoImplicit false

namespace PlmCore.Pno.Catalog

open PlmCore.Lib

variable {sha256 : String → String} {service_code instance_id : String} {now now' : Nat}
  {t t' : ScopeTables} {w w' : ScopeTables × Bool} {s s' : ScopeRegistration}
  {scopes ordered : List ScopeRegistration}

/-- The tables have the scope with the hash of this registration. -/
def ScopeTables.Has (t : ScopeTables) (sha256 : String → String) (s : ScopeRegistration) : Prop :=
  ∃ row, t.permission_scope s.scope_code = some row ∧ row.definition_hash = definition_hash sha256 s

/-- The entries of a batch for one code have one hash. -/
def OneDefinition (sha256 : String → String) (scopes : List ScopeRegistration) : Prop :=
  ∀ s ∈ scopes, ∀ s' ∈ scopes, s.scope_code = s'.scope_code →
    definition_hash sha256 s = definition_hash sha256 s'

/-! ## What a registration stores -/

/-- The row that is decided on has the hash of the scope. -/
theorem decide_row_hash {existing : Option ScopeRow} {d : ScopeRow × Bool}
    (h : decide_row sha256 service_code now s existing = some d) :
    d.1.definition_hash = definition_hash sha256 s := by
  obtain ⟨-, -, rfl⟩ | ⟨row, -, hsame, rfl⟩ | ⟨row, -, -, -, -, rfl⟩ := decide_row_cases h
  · rfl
  · exact hsame
  · rfl

theorem has_of_accept (h : accept sha256 service_code instance_id now w s = some w') :
    w'.1.Has sha256 s := by
  obtain ⟨d, hd, rfl⟩ := Option.map_eq_some_iff.mp h
  exact ⟨d.1, Function.update_self .., decide_row_hash hd⟩

/-- What is stored stays when a scope with another code, or with the same hash, is accepted. -/
theorem ScopeTables.Has.accept (hs : w.1.Has sha256 s)
    (h : accept sha256 service_code instance_id now w s' = some w')
    (hsame : s.scope_code = s'.scope_code → definition_hash sha256 s = definition_hash sha256 s') :
    w'.1.Has sha256 s := by
  by_cases hcode : s.scope_code = s'.scope_code
  · obtain ⟨row, hrow, hhash⟩ := has_of_accept h
    exact ⟨row, hcode ▸ hrow, hhash.trans (hsame hcode).symm⟩
  · obtain ⟨d, -, rfl⟩ := Option.map_eq_some_iff.mp h
    obtain ⟨row, hrow, hhash⟩ := hs
    exact ⟨row, (Function.update_of_ne hcode ..).trans hrow, hhash⟩

/-- A batch with one definition for each code is stored. -/
theorem has_of_accept_all (h : accept_all sha256 service_code instance_id now w ordered = some w')
    (hone : OneDefinition sha256 ordered) : ∀ s ∈ ordered, w'.1.Has sha256 s := by
  -- what is stored by now, of any code, stays to the end
  suffices hgo : ∀ s, (w.1.Has sha256 s ∨ s ∈ ordered) →
      (∀ s' ∈ ordered, s.scope_code = s'.scope_code →
        definition_hash sha256 s = definition_hash sha256 s') → w'.1.Has sha256 s from
    fun s hs => hgo s (.inr hs) (hone s hs)
  clear hone
  intro s hs hsame
  induction ordered generalizing w with
  | nil =>
    cases h
    exact hs.resolve_right List.not_mem_nil
  | cons first rest ih =>
    rw [accept_all_cons] at h
    obtain ⟨mid, hmid, hrest⟩ := Option.bind_eq_some_iff.mp h
    refine ih hrest ?_ fun s' hs' => hsame s' (List.mem_cons_of_mem _ hs')
    obtain hstored | hs := hs
    · exact .inl (hstored.accept hmid (hsame first List.mem_cons_self))
    · obtain rfl | hs := List.mem_cons.mp hs
      · exact .inl (has_of_accept hmid)
      · exact .inr hs

/-! ## A batch that is there already -/

/-- A scope whose hash is stored is accepted, and its row stays. -/
theorem accept_of_has (hs : w.1.Has sha256 s) :
    accept sha256 service_code instance_id now w s =
      some (⟨w.1.permission_scope, Function.update w.1.permission_scope_value_source s.scope_code
        (refresh_sources service_code instance_id now s
          (w.1.permission_scope_value_source s.scope_code))⟩, w.2 || !s.value_sources.isEmpty) := by
  obtain ⟨row, hrow, hhash⟩ := hs
  unfold accept decide_row
  rw [hrow]
  dsimp only
  rw [if_pos hhash, Option.map_some, ← hrow, Function.update_eq_self, Bool.or_false]

/-- A scope that changes nothing had its hash stored and has no value sources. -/
theorem accept_unchanged (h : accept sha256 service_code instance_id now w s = some w')
    (hw : w'.2 = false) : w' = w ∧ w.1.Has sha256 s ∧ s.value_sources = [] := by
  obtain ⟨d, hd, rfl⟩ := Option.map_eq_some_iff.mp h
  obtain ⟨⟨hbefore, hwritten⟩, hsources⟩ : (w.2 = false ∧ d.2 = false) ∧ s.value_sources = [] := by
    simpa using hw
  have hstored : w.1.Has sha256 s := by
    obtain ⟨-, -, rfl⟩ | ⟨row, hrow, hsame, -⟩ | ⟨row, -, -, -, -, rfl⟩ := decide_row_cases hd
    · cases hwritten
    · exact ⟨row, hrow, hsame⟩
    · cases hwritten
  rw [accept_of_has hstored] at h
  refine ⟨?_, hstored, hsources⟩
  rw [← Option.some.inj h, hsources, refresh_sources, hsources, List.foldl_nil,
    Function.update_eq_self]
  exact Prod.ext rfl (Bool.or_false _)

/-- A list of scopes that changes nothing: each of them was stored and has no value sources. -/
theorem accept_all_unchanged (h : accept_all sha256 service_code instance_id now w ordered = some w')
    (hw : w'.2 = false) : w' = w ∧ ∀ s ∈ ordered, w.1.Has sha256 s ∧ s.value_sources = [] := by
  induction ordered generalizing w with
  | nil =>
    cases h
    exact ⟨rfl, fun s hs => absurd hs List.not_mem_nil⟩
  | cons first rest ih =>
    rw [accept_all_cons] at h
    obtain ⟨mid, hmid, hrest⟩ := Option.bind_eq_some_iff.mp h
    obtain ⟨rfl, hothers⟩ := ih hrest
    obtain ⟨rfl, hfirst⟩ := accept_unchanged hmid hw
    exact ⟨rfl, List.forall_mem_cons.mpr ⟨hfirst, hothers⟩⟩

/-- A scope that is stored and has no value sources changes nothing. -/
theorem accept_all_of_has (h : ∀ s ∈ ordered, w.1.Has sha256 s ∧ s.value_sources = []) :
    accept_all sha256 service_code instance_id now w ordered = some w := by
  induction ordered with
  | nil => rfl
  | cons first rest ih =>
    obtain ⟨⟨hfirst, hsources⟩, hrest⟩ := List.forall_mem_cons.mp h
    rw [accept_all_cons, accept_of_has hfirst, refresh_sources, hsources, List.foldl_nil,
      Function.update_eq_self, List.isEmpty_nil, Bool.not_true, Bool.or_false]
    exact ih hrest

/-! ## The second time -/

/-- A code that is registered stays registered. -/
theorem isSome_of_accept {code : String}
    (h : accept sha256 service_code instance_id now w s = some w') :
    (w'.1.permission_scope code).isSome = true ↔
      code = s.scope_code ∨ (w.1.permission_scope code).isSome = true := by
  obtain ⟨d, -, rfl⟩ := Option.map_eq_some_iff.mp h
  by_cases hcode : code = s.scope_code
  · simp [hcode]
  · simp [hcode]

theorem isSome_of_accept_all {code : String}
    (h : accept_all sha256 service_code instance_id now w ordered = some w') :
    (w'.1.permission_scope code).isSome = true ↔
      code ∈ ordered.map (·.scope_code) ∨ (w.1.permission_scope code).isSome = true := by
  induction ordered generalizing w with
  | nil =>
    cases h
    simp
  | cons first rest ih =>
    rw [accept_all_cons] at h
    obtain ⟨mid, hmid, hrest⟩ := Option.bind_eq_some_iff.mp h
    rw [ih hrest, isSome_of_accept hmid, List.map_cons, List.mem_cons]
    tauto

/-- After a batch was registered its parents are there, so the sort leaves it as it stands. -/
theorem topological_sort_again {c : Bool}
    (h : register_all sha256 service_code instance_id now t scopes = .ok (t', c)) :
    topological_sort (fun code => (t'.permission_scope code).isSome) scopes = .ok scopes := by
  obtain ⟨ordered, hsort, hall⟩ := register_all_ok_iff.mp h
  obtain ⟨hperm, horder⟩ := dependencySort_ok (topological_sort_ok_iff.mp hsort)
  refine topological_sort_ok_iff.mpr (dependencySort_all fun s hs => ?_)
  cases hparent : s.parent_scope_code with
  | none => rfl
  | some p =>
    obtain ⟨before, after, heq⟩ := List.append_of_mem (hperm.mem_iff.mpr hs)
    rw [Option.all_some, isSome_of_accept_all hall]
    obtain hthere | hbefore := horder before s after heq p hparent
    · exact .inr hthere
    · left
      rw [heq, List.map_append]
      exact List.mem_append_left _ hbefore

/-- What registers the batch again. -/
theorem register_all_again {c : Bool}
    (h : register_all sha256 service_code instance_id now t scopes = .ok (t', c)) :
    register_all sha256 service_code instance_id now' t' scopes = .ok w ↔
      accept_all sha256 service_code instance_id now' (t', false) scopes = some w := by
  rw [register_all_ok_iff, topological_sort_again h]
  simp

/-- **Registering a batch again changes nothing exactly when** it has no value sources and no code
with two definitions. -/
theorem register_all_again_iff {c : Bool}
    (h : register_all sha256 service_code instance_id now t scopes = .ok (t', c)) :
    register_all sha256 service_code instance_id now' t' scopes = .ok (t', false) ↔
      (∀ s ∈ scopes, s.value_sources = []) ∧ OneDefinition sha256 scopes := by
  rw [register_all_again h]
  constructor
  · intro hagain
    have hstored := (accept_all_unchanged hagain rfl).2
    refine ⟨fun s hs => (hstored s hs).2, fun s hs s' hs' hcode => ?_⟩
    obtain ⟨row, hrow, hhash⟩ := (hstored s hs).1
    obtain ⟨row', hrow', hhash'⟩ := (hstored s' hs').1
    rw [hcode, hrow'] at hrow
    cases hrow
    exact hhash.symm.trans hhash'
  · rintro ⟨hsources, hone⟩
    obtain ⟨ordered, hsort, hall⟩ := register_all_ok_iff.mp h
    have hmem := fun s => (dependencySort_ok (topological_sort_ok_iff.mp hsort)).1.mem_iff (a := s)
    have hstored := has_of_accept_all hall fun s hs s' hs' =>
      hone s ((hmem s).mp hs) s' ((hmem s').mp hs')
    exact accept_all_of_has fun s hs => ⟨hstored s ((hmem s).mpr hs), hsources s hs⟩

/-! ## Value sources -/

/-- The batch has this value source. -/
def ScopeRegistrationRequest.refreshes (req : ScopeRegistrationRequest) (code key service : String) :
    Bool :=
  service = req.service_code && req.scopes.any fun s =>
    s.scope_code = code && s.value_sources.any fun vs => vs.key_name = key

/-- The tables with the value sources of the batch seen at this time. -/
def ScopeTables.seen (t : ScopeTables) (req : ScopeRegistrationRequest) (now : Nat) : ScopeTables :=
  ⟨t.permission_scope, fun code key service =>
    (t.permission_scope_value_source code key service).map fun row =>
      if req.refreshes code key service then { row with last_seen_at := now } else row⟩

/-- The last value source for a key gives its row. -/
theorem refresh_sources_apply (sources : String → String → Option ValueSourceRow) (key service : String) :
    refresh_sources service_code instance_id now s sources key service =
      if service = service_code then
        ((s.value_sources.reverse.find? fun vs => vs.key_name = key).map fun vs =>
          ⟨vs.endpoint_path, instance_id, now⟩).or (sources key service)
      else sources key service := by
  rw [refresh_sources, ← List.foldr_reverse]
  induction s.value_sources.reverse with
  | nil => simp
  | cons vs rest ih =>
    rw [List.foldr_cons, ih]
    by_cases hservice : service = service_code
    · by_cases hkey : key = vs.key_name
      · simp [hservice, hkey]
      · simp [hservice, hkey, Ne.symm hkey]
    · simp [hservice]

/-- A second refresh moves the time of what it meets. -/
theorem refresh_sources_again (sources : String → String → Option ValueSourceRow) (key service : String) :
    refresh_sources service_code instance_id now' s
        (refresh_sources service_code instance_id now s sources) key service =
      (refresh_sources service_code instance_id now s sources key service).map fun row =>
        if service = service_code ∧ ∃ vs ∈ s.value_sources, vs.key_name = key then
          { row with last_seen_at := now' } else row := by
  rw [refresh_sources_apply, refresh_sources_apply]
  by_cases hservice : service = service_code
  · cases hfind : s.value_sources.reverse.find? fun vs => vs.key_name = key with
    | none =>
      have hnone : ¬ ∃ vs ∈ s.value_sources, vs.key_name = key := by
        rintro ⟨vs, hvs, hkey⟩
        simpa [hkey] using List.find?_eq_none.mp hfind vs (List.mem_reverse.mpr hvs)
      simp [hservice, hnone]
    | some vs =>
      have hkey : vs.key_name = key := by simpa using List.find?_some hfind
      have hmem := List.mem_reverse.mp (List.mem_of_find?_eq_some hfind)
      have hsome : ∃ vs ∈ s.value_sources, vs.key_name = key := ⟨vs, hmem, hkey⟩
      simp [hservice, hsome]
  · simp [hservice]

/-- Scopes with distinct codes leave the value sources of a code to the one scope that has it. -/
theorem accept_all_sources (hdistinct : (ordered.map (·.scope_code)).Nodup)
    (h : accept_all sha256 service_code instance_id now w ordered = some w') :
    (∀ s ∈ ordered, w'.1.permission_scope_value_source s.scope_code =
        refresh_sources service_code instance_id now s
          (w.1.permission_scope_value_source s.scope_code)) ∧
      ∀ code, code ∉ ordered.map (·.scope_code) →
        w'.1.permission_scope_value_source code = w.1.permission_scope_value_source code := by
  induction ordered generalizing w with
  | nil =>
    cases h
    exact ⟨fun s hs => absurd hs List.not_mem_nil, fun _ _ => rfl⟩
  | cons first rest ih =>
    rw [accept_all_cons] at h
    obtain ⟨mid, hmid, hrest⟩ := Option.bind_eq_some_iff.mp h
    rw [List.map_cons, List.nodup_cons] at hdistinct
    obtain ⟨hin, hout⟩ := ih hdistinct.2 hrest
    obtain ⟨d, -, rfl⟩ := Option.map_eq_some_iff.mp hmid
    refine ⟨fun s hs => ?_, fun code hcode => ?_⟩
    · obtain rfl | hs := List.mem_cons.mp hs
      · rw [hout _ hdistinct.1]
        exact Function.update_self ..
      · have hne : s.scope_code ≠ first.scope_code := fun heq =>
          hdistinct.1 (heq ▸ List.mem_map_of_mem (f := (·.scope_code)) hs)
        rw [hin s hs]
        exact congrArg _ (Function.update_of_ne hne ..)
    · rw [List.map_cons, List.mem_cons, not_or] at hcode
      rw [hout code hcode.2]
      exact Function.update_of_ne hcode.1 ..

/-- Scopes that are stored are accepted, and their rows stay. -/
theorem accept_all_stored (h : ∀ s ∈ ordered, w.1.Has sha256 s) :
    ∃ w', accept_all sha256 service_code instance_id now w ordered = some w' ∧
      w'.1.permission_scope = w.1.permission_scope ∧
        w'.2 = (w.2 || ordered.any fun s => !s.value_sources.isEmpty) := by
  induction ordered generalizing w with
  | nil => exact ⟨w, rfl, rfl, (Bool.or_false _).symm⟩
  | cons first rest ih =>
    obtain ⟨hfirst, hrest⟩ := List.forall_mem_cons.mp h
    obtain ⟨mid, hmid, hrows, hflag⟩ :
        ∃ mid, accept sha256 service_code instance_id now w first = some mid ∧
          mid.1.permission_scope = w.1.permission_scope ∧
            mid.2 = (w.2 || !first.value_sources.isEmpty) := ⟨_, accept_of_has hfirst, rfl, rfl⟩
    have hstored : ∀ s ∈ rest, mid.1.Has sha256 s := by
      intro s hs
      rw [ScopeTables.Has, hrows]
      exact hrest s hs
    obtain ⟨w', hw', hrows', hflag'⟩ := ih hstored
    rw [accept_all_cons, hmid]
    refine ⟨w', hw', hrows'.trans hrows, ?_⟩
    rw [hflag', hflag, List.any_cons, Bool.or_assoc]

/-- **Registering a batch with distinct codes again** moves the time of its value sources, and is a
change when it has any. -/
theorem register_all_refreshes {req : ScopeRegistrationRequest} {c : Bool}
    (hdistinct : (req.scopes.map (·.scope_code)).Nodup)
    (h : register_all sha256 req.service_code req.instance_id now t req.scopes = .ok (t', c)) :
    register_all sha256 req.service_code req.instance_id now' t' req.scopes =
      .ok (t'.seen req now', req.scopes.any fun s => !s.value_sources.isEmpty) := by
  have hfirst := ((register_all_ok_iff_of_distinct hdistinct).mp h).2
  have hsame : ∀ s ∈ req.scopes, ∀ s' ∈ req.scopes, s.scope_code = s'.scope_code → s = s' :=
    fun s hs s' hs' hcode => List.inj_on_of_nodup_map hdistinct hs hs' hcode
  have hstored := has_of_accept_all hfirst fun s hs s' hs' hcode => by rw [hsame s hs s' hs' hcode]
  obtain ⟨⟨t'', c'⟩, hagain, hrows, hflag⟩ : ∃ w', accept_all sha256 req.service_code
      req.instance_id now' (t', false) req.scopes = some w' ∧
        w'.1.permission_scope = t'.permission_scope ∧
          w'.2 = (false || req.scopes.any fun s => !s.value_sources.isEmpty) :=
    accept_all_stored hstored
  obtain ⟨hin, -⟩ := accept_all_sources hdistinct hfirst
  obtain ⟨hin', hout'⟩ := accept_all_sources hdistinct hagain
  dsimp only at hin hin' hout' hrows hflag
  rw [Bool.false_or] at hflag
  have hsources : t''.permission_scope_value_source = (t'.seen req now').permission_scope_value_source := by
    funext code key service
    rw [ScopeTables.seen]
    dsimp only
    by_cases hcode : code ∈ req.scopes.map (·.scope_code)
    · obtain ⟨s, hs, rfl⟩ := List.mem_map.mp hcode
      -- the scope with this code is the one that counts
      have hrefreshes : req.refreshes s.scope_code key service = true ↔
          service = req.service_code ∧ ∃ vs ∈ s.value_sources, vs.key_name = key := by
        simp only [ScopeRegistrationRequest.refreshes, Bool.and_eq_true, decide_eq_true_eq,
          List.any_eq_true]
        refine and_congr_right fun _ => ⟨?_, fun hvs => ⟨s, hs, rfl, hvs⟩⟩
        rintro ⟨s', hs', hcode', hvs⟩
        exact hsame s' hs' s hs hcode' ▸ hvs
      rw [hin' s hs, hin s hs, refresh_sources_again]
      simp only [hrefreshes]
    · have hnot : req.refreshes code key service = false := by
        rw [Bool.eq_false_iff]
        intro hrefreshes
        simp only [ScopeRegistrationRequest.refreshes, Bool.and_eq_true, decide_eq_true_eq,
          List.any_eq_true] at hrefreshes
        obtain ⟨-, s, hs, rfl, -⟩ := hrefreshes
        exact hcode (List.mem_map_of_mem hs)
      rw [hout' code hcode]
      simp [hnot]
  rw [register_all_again h, hagain, hflag]
  exact congrArg (fun t => some (t, _)) (ScopeTables.ext hrows hsources)

/-! ## The handler -/

/-- **A request that was carried out, sent again.** It reloads nothing, broadcasts nothing and leaves
the tables as they are exactly when it has no value sources and no code with two definitions. A
request with distinct codes leaves at most the time of its value sources behind, and has the mirror
reloaded and the change broadcast when it has any. -/
theorem register_again (sha256 : String → String) (now now' : Nat) (t : ScopeTables)
    (req : ScopeRegistrationRequest) (r : Registered) (h : register sha256 now t req = .ok r) :
    (register sha256 now' r.tables req = .ok ⟨r.tables, false, false⟩ ↔
      (∀ s ∈ req.scopes, s.value_sources = []) ∧ OneDefinition sha256 req.scopes) ∧
    ((req.scopes.map (·.scope_code)).Nodup →
      register sha256 now' r.tables req = .ok ⟨r.tables.seen req now',
        req.scopes.any fun s => !s.value_sources.isEmpty,
        req.scopes.any fun s => !s.value_sources.isEmpty⟩) := by
  unfold register at h ⊢
  by_cases hempty : req.scopes = []
  · have hcond : req.scopes.isEmpty = true := by simpa using hempty
    rw [if_pos hcond] at h ⊢
    cases h
    -- an empty request changes nothing either time
    have hseen : t.seen req now' = t := by
      simp [ScopeTables.seen, ScopeRegistrationRequest.refreshes, hempty]
    simp [hempty, hseen, OneDefinition]
  · have hcond : ¬ req.scopes.isEmpty = true := by simpa using hempty
    rw [if_neg hcond] at h ⊢
    cases hall : register_all sha256 req.service_code req.instance_id now t req.scopes with
    | error e =>
      rw [hall] at h
      cases h
    | ok w =>
      rw [hall] at h
      cases h
      obtain ⟨t', c⟩ := w
      dsimp only
      constructor
      -- the answer of a batch says whether anything changed
      · have hagain : register_all sha256 req.service_code req.instance_id now' t' req.scopes =
            .ok (t', false) ↔
              (∀ s ∈ req.scopes, s.value_sources = []) ∧ OneDefinition sha256 req.scopes :=
          register_all_again_iff hall
        rw [← hagain]
        cases register_all sha256 req.service_code req.instance_id now' t' req.scopes with
        | error e => simp
        | ok w => simp [Prod.ext_iff]
      · intro hdistinct
        rw [register_all_refreshes hdistinct hall]

section Example

/-- A service that registers a scope and says where the values of its key come from. -/
def nodeRequest : ScopeRegistrationRequest := ⟨"psa", "psa-1", [nodeScope]⟩

def lifecycleRequest : ScopeRegistrationRequest :=
  ⟨"psa", "psa-1", [lifecycleScope, { nodeScope with value_sources := [] }]⟩

theorem register_again_of_lifecycle :
    ∃ r, register id 0 noTables lifecycleRequest = .ok r ∧
      register id 1 r.tables lifecycleRequest = .ok ⟨r.tables, false, false⟩ := by
  obtain ⟨r, hr⟩ : ∃ r, register id 0 noTables lifecycleRequest = .ok r := ⟨_, rfl⟩
  refine ⟨r, hr, (register_again id 0 1 noTables lifecycleRequest r hr).1.mpr ?_⟩
  unfold OneDefinition
  decide

theorem register_again_reports_a_change :
    ¬ ∀ (sha256 : String → String) (now now' : Nat) (t : ScopeTables) (req : ScopeRegistrationRequest)
      (r : Registered), register sha256 now t req = .ok r →
        register sha256 now' r.tables req = .ok ⟨r.tables, false, false⟩ := by
  intro hclaim
  have hagain := hclaim id 0 1 noTables nodeRequest _ rfl
  have hflag := congrArg (fun result => result.toOption.map (·.broadcasts)) hagain
  revert hflag
  decide

end Example

end PlmCore.Pno.Catalog
