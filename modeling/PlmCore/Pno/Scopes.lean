/-
The scope catalog of pno-api (`scopes.rs`): the tables `permission_scope` and
`permission_scope_key`, the registration of a batch of scopes, and the in-memory mirror that
the other handlers read.

A scope has keys of its own and inherits those of its parents, the parents' first. The mirror
is asked for the keys of a scope record by record, from the scope up to its root, so that
`collect_keys` is a walk of single reads; `Collects` is the result of a walk all of whose
reads see the same records.
-/
import PlmCore.Lib.Walk

set_option autoImplicit false

namespace PlmCore.Pno

open PlmCore.Lib

/-! ## Records -/

/-- A row of `permission_scope` with the names of its rows of `permission_scope_key` in
`key_position` order, and `ScopeRecord`, its copy in the mirror. -/
structure ScopeRecord where
  code : String
  parent : Option String
  definition_hash : String
  owner_service : String
  keys : List String
  deriving DecidableEq

/-- Records by code; a code has one record at most. -/
abbrev Records := List ScopeRecord

def Records.get (rs : Records) (code : String) : Option ScopeRecord := rs.find? fun r => r.code = code

/-- `DashMap.insert`. -/
def Records.insert (rs : Records) (r : ScopeRecord) : Records :=
  rs.filter (fun r' => r'.code ≠ r.code) ++ [r]

/-! ## The keys of a scope -/

/-- `collect_keys` under way: the scope whose record is read next, and the keys of the records
read so far. -/
structure Walk where
  next : Option String
  keys : List String
  deriving DecidableEq

/-- One read of `collect_keys`. The parent's keys go in front, so that they stand as if the
parent had been collected first; a scope without a record ends the walk. -/
def Records.climb (rs : Records) (w : Walk) : Option Walk :=
  w.next.bind fun code => (rs.get code).map fun r => ⟨r.parent, r.keys ++ w.keys⟩

/-- `effective_keys`, all of its reads at one moment; `depth` bounds the recursion of
`collect_keys`. -/
def Records.effective_keys (rs : Records) : Nat → String → Option (List String)
  | 0, _ => none
  | depth + 1, code =>
    match rs.get code with
    | none => some []
    | some r =>
      match r.parent with
      | none => some r.keys
      | some p => (rs.effective_keys depth p).map (· ++ r.keys)

/-- The records give a scope these keys. -/
def Records.Collects (rs : Records) (code : String) (keys : List String) : Prop :=
  ∃ w, EndsAt rs.climb ⟨some code, []⟩ w ∧ w.keys = keys

/-- `rs'` has the same records of a scope and of those above it. -/
def Records.SameAbove (rs rs' : Records) (code : String) : Prop :=
  AgreeFrom rs.climb rs'.climb ⟨some code, []⟩

variable {rs rs' : Records} {code : String}

/-- The keys of a scope are one list. -/
theorem Records.Collects.unique {keys keys' : List String} (h : rs.Collects code keys)
    (h' : rs.Collects code keys') : keys = keys' := by
  obtain ⟨w, hw, rfl⟩ := h
  obtain ⟨w', hw', rfl⟩ := h'
  rw [hw.unique hw']

theorem Records.SameAbove.collects {keys : List String} (hsame : rs.SameAbove rs' code)
    (h : rs.Collects code keys) : rs'.Collects code keys := by
  obtain ⟨w, hw, rfl⟩ := h
  exact ⟨w, hsame.endsAt hw, rfl⟩

theorem Records.collects_nil_of_get (h : rs.get code = none) : rs.Collects code [] :=
  ⟨⟨some code, []⟩, ⟨ComesTo.refl, by simp [Records.climb, h]⟩, rfl⟩

/-- Records above a scope that stay as they are leave a scope without a record without one. -/
theorem Records.SameAbove.get_none (hsame : rs.SameAbove rs' code) (h : rs.get code = none) :
    rs'.get code = none := by
  have hclimb := hsame _ ComesTo.refl
  simpa [Records.climb, h] using hclimb

/-- `collect_keys` walks from a scope to the end. -/
theorem Records.collects_of_effective_keys {depth : Nat} {keys : List String}
    (h : rs.effective_keys depth code = some keys) : rs.Collects code keys := by
  -- a walk that has keys already goes the same way and puts the new ones in front
  suffices hgo : ∀ acc, ∃ w, EndsAt rs.climb ⟨some code, acc⟩ w ∧ w.keys = keys ++ acc by
    obtain ⟨w, hw, hkeys⟩ := hgo []
    exact ⟨w, hw, by simpa using hkeys⟩
  induction depth generalizing code keys with
  | zero => cases h
  | succ depth ih =>
    intro acc
    simp only [Records.effective_keys] at h
    cases hget : rs.get code with
    | none =>
      rw [hget] at h
      cases h
      exact ⟨⟨some code, acc⟩, ⟨ComesTo.refl, by simp [Records.climb, hget]⟩, rfl⟩
    | some r =>
      have hstep : rs.climb ⟨some code, acc⟩ = some ⟨r.parent, r.keys ++ acc⟩ := by
        simp [Records.climb, hget]
      rw [hget] at h
      dsimp only at h
      cases hparent : r.parent with
      | none =>
        rw [hparent] at h hstep
        cases h
        exact ⟨⟨none, r.keys ++ acc⟩, ⟨ComesTo.refl.tail hstep, rfl⟩, rfl⟩
      | some p =>
        rw [hparent] at h hstep
        obtain ⟨above, habove, rfl⟩ := Option.map_eq_some_iff.mp h
        obtain ⟨w, hw, hkeys⟩ := ih habove (r.keys ++ acc)
        exact ⟨w, ⟨hw.1.head hstep, hw.2⟩, by simpa using hkeys⟩

/-! ## Registration -/

/-- `ScopeRegistration`, with the names of its keys and of its value sources. -/
structure ScopeRegistration where
  scope_code : String
  parent_scope_code : Option String
  keys : List String
  value_sources : List String
  deriving DecidableEq

/-- What `register_all` ends with when it rolls back. -/
inductive RegisterError where
  | unresolvedParents (scopes : List String)
  | duplicateKey (scope : String)
  | conflicts (scopes : List String)
  deriving DecidableEq

/-- `definition_hash`; `sha256` gives the digest in hex. -/
def definition_hash (sha256 : String → String) (s : ScopeRegistration) : String :=
  sha256 ("parent=" ++ s.parent_scope_code.getD "" ++ "\nkeys=" ++ ",".intercalate s.keys)

/-- One pass of `topological_sort` over what remains: the codes resolved, the scopes taken and
those left for the next pass. -/
def topological_pass : List String → List ScopeRegistration →
    List String × List ScopeRegistration × List ScopeRegistration
  | resolved, [] => (resolved, [], [])
  | resolved, s :: rest =>
    if s.parent_scope_code.all (· ∈ resolved) then
      let (resolved', taken, left) := topological_pass (s.scope_code :: resolved) rest
      (resolved', s :: taken, left)
    else
      let (resolved', taken, left) := topological_pass resolved rest
      (resolved', taken, s :: left)

/-- `topological_sort`; a pass that takes nothing ends it, so the length bounds the passes. -/
def topological_sort : Nat → List String → List ScopeRegistration →
    Except RegisterError (List ScopeRegistration)
  | _, _, [] => .ok []
  | 0, _, remaining => .error (.unresolvedParents (remaining.map (·.scope_code)))
  | passes + 1, resolved, remaining =>
    match topological_pass resolved remaining with
    | (_, [], left) => .error (.unresolvedParents (left.map (·.scope_code)))
    | (resolved', taken, left) => (topological_sort passes resolved' left).map (taken ++ ·)

/-- A batch under way in its transaction. -/
structure Batch where
  catalog : Records
  conflicts : List String
  any_change : Bool

/-- One scope of the batch: `insert_scope`, `update_scope` for its owner, or a conflict. -/
def Batch.register (sha256 : String → String) (service_code : String) (b : Batch)
    (s : ScopeRegistration) : Except RegisterError Batch :=
  let submitted_hash := definition_hash sha256 s
  let sourced := !s.value_sources.isEmpty
  match b.catalog.get s.scope_code with
  | none =>
    -- uq_permission_scope_key_name
    if s.keys.Nodup then
      .ok ⟨b.catalog.insert ⟨s.scope_code, s.parent_scope_code, submitted_hash, service_code, s.keys⟩,
        b.conflicts, true⟩
    else .error (.duplicateKey s.scope_code)
  | some existing =>
    if existing.definition_hash = submitted_hash then
      .ok { b with any_change := b.any_change || sourced }
    else if existing.owner_service = service_code then
      if s.keys.Nodup then
        .ok ⟨b.catalog.insert ⟨s.scope_code, s.parent_scope_code, submitted_hash, service_code, s.keys⟩,
          b.conflicts, true⟩
      else .error (.duplicateKey s.scope_code)
    else .ok { b with conflicts := b.conflicts ++ [s.scope_code] }

/-- `register_all`: the catalog after its commit and whether anything changed. -/
def register_all (sha256 : String → String) (catalog : Records) (service_code : String)
    (scopes : List ScopeRegistration) : Except RegisterError (Records × Bool) :=
  match topological_sort scopes.length (catalog.map (·.code)) scopes with
  | .error e => .error e
  | .ok ordered =>
    match ordered.foldlM (Batch.register sha256 service_code) ⟨catalog, [], false⟩ with
    | .error e => .error e
    | .ok b => if b.conflicts = [] then .ok (b.catalog, b.any_change) else .error (.conflicts b.conflicts)

end PlmCore.Pno
