/-
The forest of the scopes, over any sequence of registered batches.

A batch is sorted so that parents come first, against the codes that are registered already.
`update_scope` writes the parent of a registered scope anew, and nothing compares the keys of a
scope with those of the scopes above it, so the forest keeps its shape when each record that is
written fits into the catalog it is written to.
-/
import PlmCore.Lib.Forest
import PlmCore.Lib.Run
import PlmCore.Pno.Scopes

set_option autoImplicit false

namespace PlmCore.Pno

open PlmCore.Lib

/-! ## The forest of a catalog -/

def Records.parentOf (rs : Records) (code : String) : Option String := (rs.get code).bind (·.parent)

def Records.ownKeys (rs : Records) (code : String) : List String :=
  ((rs.get code).map (·.keys)).getD []

/-- No scope lies above itself, and no key is twice on the way up from a scope. -/
structure Records.Sound (rs : Records) : Prop where
  acyclic : Acyclic rs.parentOf
  own : ∀ code, (rs.ownKeys code).Nodup
  clear : Clear rs.parentOf rs.ownKeys

variable {rs : Records} {code : String} {r : ScopeRecord}

theorem Records.get_insert (rs : Records) (r : ScopeRecord) (code : String) :
    (rs.insert r).get code = if code = r.code then some r else rs.get code := by
  rw [Records.get, Records.insert, List.find?_append, List.find?_filter]
  by_cases hcode : code = r.code
  · rw [if_pos hcode, List.find?_eq_none.mpr]
    · simp [hcode]
    · intro r' _
      simp [hcode]
  · rw [if_neg hcode]
    have hsame : (fun r' : ScopeRecord => decide (decide (r'.code ≠ r.code) = true ∧
        decide (r'.code = code) = true)) = fun r' => decide (r'.code = code) := by
      funext r'
      by_cases hr' : r'.code = code
      · simp [hr', hcode]
      · simp [hr']
    rw [hsame]
    simp [Records.get, Ne.symm hcode]

theorem Records.parentOf_insert (rs : Records) (r : ScopeRecord) :
    (rs.insert r).parentOf = Function.update rs.parentOf r.code r.parent := by
  funext code
  by_cases hcode : code = r.code
  · simp [Records.parentOf, Records.get_insert, hcode]
  · simp [Records.parentOf, Records.get_insert, hcode]

theorem Records.ownKeys_insert (rs : Records) (r : ScopeRecord) :
    (rs.insert r).ownKeys = Function.update rs.ownKeys r.code r.keys := by
  funext code
  by_cases hcode : code = r.code
  · simp [Records.ownKeys, Records.get_insert, hcode]
  · simp [Records.ownKeys, Records.get_insert, hcode]

/-- The record has a place in the catalog: its parent does not lie at or below it, and the keys
from there up meet neither its own nor those of the scopes below it. -/
structure Records.Fits (rs : Records) (r : ScopeRecord) : Prop where
  parent : ∀ p, r.parent = some p → ¬ ComesTo rs.parentOf p r.code
  below : ∀ d, Above rs.parentOf d r.code → (rs.ownKeys d).Disjoint r.keys
  above : ∀ p a, r.parent = some p → ComesTo rs.parentOf p a → r.keys.Disjoint (rs.ownKeys a) ∧
    ∀ d, Above rs.parentOf d r.code → (rs.ownKeys d).Disjoint (rs.ownKeys a)

/-- **A record that is written** leaves a sound catalog sound exactly when it fits. -/
theorem Records.sound_insert_iff (h : rs.Sound) (hkeys : r.keys.Nodup) :
    (rs.insert r).Sound ↔ rs.Fits r := by
  have hacyclic : Acyclic (rs.insert r).parentOf ↔
      ∀ p, r.parent = some p → ¬ ComesTo rs.parentOf p r.code := by
    rw [Records.parentOf_insert]
    exact acyclic_update_iff h.acyclic
  have hclear (hfit : ∀ p, r.parent = some p → ¬ ComesTo rs.parentOf p r.code) :=
    @clear_update_iff _ rs.parentOf r.code r.parent _ _ rs.ownKeys r.keys h.clear hfit h.acyclic
  rw [← Records.parentOf_insert, ← Records.ownKeys_insert] at hclear
  constructor
  · intro hsound
    have hfit := hacyclic.mp hsound.acyclic
    obtain ⟨hbelow, habove⟩ := (hclear hfit).mp hsound.clear
    exact ⟨hfit, hbelow, habove⟩
  · intro hfits
    refine ⟨hacyclic.mpr hfits.parent, fun code => ?_,
      (hclear hfits.parent).mpr ⟨hfits.below, hfits.above⟩⟩
    rw [Records.ownKeys_insert]
    by_cases hcode : code = r.code
    · rw [hcode, Function.update_self]
      exact hkeys
    · rw [Function.update_of_ne hcode]
      exact h.own code

/-! ## The keys of a scope -/

/-- `collect_keys` comes to an end. -/
theorem Records.Sound.effective_keys (h : rs.Sound) (code : String) :
    ∃ depth keys, rs.effective_keys depth code = some keys := by
  have hnodes : ∀ code p, rs.parentOf code = some p → code ∈ (rs.map (·.code)).toFinset := by
    intro code p hp
    obtain ⟨r, hr, -⟩ := Option.bind_eq_some_iff.mp hp
    have hcode : r.code = code := by simpa using List.find?_some hr
    exact List.mem_toFinset.mpr (List.mem_map.mpr ⟨r, List.mem_of_find?_eq_some hr, hcode⟩)
  obtain ⟨root, hroot, hend⟩ := exists_endsAt h.acyclic _ hnodes code
  induction hroot using Relation.ReflTransGen.head_induction_on with
  | refl =>
    refine ⟨1, rs.ownKeys root, ?_⟩
    rw [Records.effective_keys]
    cases hget : rs.get root with
    | none => simp [Records.ownKeys, hget]
    | some r =>
      have hparent : r.parent = none := by simpa [Records.parentOf, hget] using hend
      simp [Records.ownKeys, hget, hparent]
  | head hstep _ ih =>
    obtain ⟨depth, keys, hkeys⟩ := ih
    obtain ⟨r, hget, hparent⟩ := Option.bind_eq_some_iff.mp hstep
    refine ⟨depth + 1, keys ++ r.keys, ?_⟩
    simp [Records.effective_keys, hget, hparent, hkeys]

/-- A collected key is one of a scope at or above. -/
theorem Records.mem_effective_keys {depth : Nat} {keys : List String} {key : String}
    (h : rs.effective_keys depth code = some keys) (hkey : key ∈ keys) :
    ∃ a, ComesTo rs.parentOf code a ∧ key ∈ rs.ownKeys a := by
  induction depth generalizing code keys with
  | zero => cases h
  | succ depth ih =>
    simp only [Records.effective_keys] at h
    cases hget : rs.get code with
    | none =>
      rw [hget] at h
      cases h
      cases hkey
    | some r =>
      rw [hget] at h
      have hown : rs.ownKeys code = r.keys := by simp [Records.ownKeys, hget]
      dsimp only at h
      cases hparent : r.parent with
      | none =>
        rw [hparent] at h
        cases h
        exact ⟨code, ComesTo.refl, hown ▸ hkey⟩
      | some p =>
        rw [hparent] at h
        obtain ⟨above, habove, rfl⟩ := Option.map_eq_some_iff.mp h
        obtain hkey | hkey := List.mem_append.mp hkey
        · obtain ⟨a, ha, hmem⟩ := ih habove hkey
          have hstep : rs.parentOf code = some p := by simp [Records.parentOf, hget, hparent]
          exact ⟨a, ha.head hstep, hmem⟩
        · exact ⟨code, ComesTo.refl, hown ▸ hkey⟩

/-- **No key twice** in what `collect_keys` gives. -/
theorem Records.Sound.nodup (h : rs.Sound) {depth : Nat} {keys : List String}
    (hkeys : rs.effective_keys depth code = some keys) : keys.Nodup := by
  induction depth generalizing code keys with
  | zero => cases hkeys
  | succ depth ih =>
    simp only [Records.effective_keys] at hkeys
    cases hget : rs.get code with
    | none =>
      rw [hget] at hkeys
      cases hkeys
      exact List.nodup_nil
    | some r =>
      rw [hget] at hkeys
      have hown : rs.ownKeys code = r.keys := by simp [Records.ownKeys, hget]
      dsimp only at hkeys
      cases hparent : r.parent with
      | none =>
        rw [hparent] at hkeys
        cases hkeys
        exact hown ▸ h.own code
      | some p =>
        rw [hparent] at hkeys
        obtain ⟨above, habove, rfl⟩ := Option.map_eq_some_iff.mp hkeys
        have hstep : rs.parentOf code = some p := by simp [Records.parentOf, hget, hparent]
        refine List.Nodup.append (ih habove) (hown ▸ h.own code) fun key hkey hmem => ?_
        obtain ⟨a, ha, hmem'⟩ := Records.mem_effective_keys habove hkey
        have hup : Above rs.parentOf code a := above_iff.mpr ⟨p, hstep, ha⟩
        exact h.clear code a hup (hown ▸ hmem) hmem'

/-! ## Batches -/

section Batches

variable (sha256 : String → String)

/-- The record that a scope of a batch writes, if it is new or its owner gives it another
shape. -/
def Batch.written (service_code : String) (b : Batch) (s : ScopeRegistration) :
    Option ScopeRecord :=
  let r := ⟨s.scope_code, s.parent_scope_code, definition_hash sha256 s, service_code, s.keys⟩
  match b.catalog.get s.scope_code with
  | none => some r
  | some existing =>
    if existing.definition_hash ≠ definition_hash sha256 s ∧ existing.owner_service = service_code
    then some r else none

/-- Every record of a batch fits when its turn comes. -/
def Batch.Fitting (service_code : String) : Batch → List ScopeRegistration → Prop
  | _, [] => True
  | b, s :: rest =>
    (∀ r, b.written sha256 service_code s = some r → b.catalog.Fits r) ∧
      ∀ b', b.register sha256 service_code s = .ok b' → Batch.Fitting service_code b' rest

/-- What a service sends to `register`. -/
structure Registration where
  service_code : String
  scopes : List ScopeRegistration
  deriving DecidableEq

/-- The catalog after a batch; one that is not accepted is rolled back. -/
def Records.submit (catalog : Records) (batch : Registration) : Records :=
  match register_all sha256 catalog batch.service_code batch.scopes with
  | .ok (catalog', _) => catalog'
  | .error _ => catalog

/-- The records of an accepted batch fit. -/
def Records.Fitting (catalog : Records) (batch : Registration) : Prop :=
  ∀ ordered result, register_all sha256 catalog batch.service_code batch.scopes = .ok result →
    topological_sort batch.scopes.length (catalog.map (·.code)) batch.scopes = .ok ordered →
      Batch.Fitting sha256 batch.service_code ⟨catalog, [], false⟩ ordered

variable {sha256} {service_code : String} {b b' : Batch} {s : ScopeRegistration}

/-- One scope of a batch writes a record or leaves the catalog as it is. -/
theorem Batch.register_cases (h : b.register sha256 service_code s = .ok b') :
    (b.written sha256 service_code s = none ∧ b'.catalog = b.catalog) ∨
      ∃ r, b.written sha256 service_code s = some r ∧ r.code = s.scope_code ∧
        r.parent = s.parent_scope_code ∧ r.keys = s.keys ∧ s.keys.Nodup ∧
          b'.catalog = b.catalog.insert r := by
  simp only [Batch.register, Batch.written] at h ⊢
  cases hget : b.catalog.get s.scope_code with
  | none =>
    rw [hget] at h
    dsimp only at h
    split at h
    · rename_i hnodup
      cases h
      exact .inr ⟨_, rfl, rfl, rfl, rfl, hnodup, rfl⟩
    · cases h
  | some existing =>
    rw [hget] at h
    dsimp only at h ⊢
    by_cases hsame : existing.definition_hash = definition_hash sha256 s
    · rw [if_pos hsame] at h
      cases h
      exact .inl ⟨if_neg fun hne => hne.1 hsame, rfl⟩
    · rw [if_neg hsame] at h
      by_cases howner : existing.owner_service = service_code
      · rw [if_pos howner] at h
        split at h
        · rename_i hnodup
          cases h
          exact .inr ⟨_, if_pos ⟨hsame, howner⟩, rfl, rfl, rfl, hnodup, rfl⟩
        · cases h
      · rw [if_neg howner] at h
        cases h
        exact .inl ⟨if_neg fun hne => howner hne.2, rfl⟩

/-- The scopes of a batch whose records fit leave the catalog sound. -/
theorem Batch.Fitting.sound {ordered : List ScopeRegistration}
    (hfit : Batch.Fitting sha256 service_code b ordered) (h : b.catalog.Sound)
    (hb' : ordered.foldlM (Batch.register sha256 service_code) b = .ok b') : b'.catalog.Sound := by
  induction ordered generalizing b with
  | nil =>
    cases hb'
    exact h
  | cons s rest ih =>
    rw [List.foldlM_cons] at hb'
    cases hstep : b.register sha256 service_code s with
    | error e =>
      rw [hstep] at hb'
      cases hb'
    | ok next =>
      rw [hstep] at hb'
      refine ih (hfit.2 next hstep) ?_ hb'
      obtain ⟨-, hsame⟩ | ⟨r, hwritten, -, -, hkeys, hnodup, hinsert⟩ := Batch.register_cases hstep
      · rw [hsame]
        exact h
      · rw [hinsert]
        exact (Records.sound_insert_iff h (hkeys ▸ hnodup)).mpr (hfit.1 r hwritten)

theorem register_all_cases {catalog catalog' : Records} {scopes : List ScopeRegistration}
    {changed : Bool} (h : register_all sha256 catalog service_code scopes = .ok (catalog', changed)) :
    ∃ ordered b, topological_sort scopes.length (catalog.map (·.code)) scopes = .ok ordered ∧
      ordered.foldlM (Batch.register sha256 service_code) ⟨catalog, [], false⟩ = .ok b ∧
        b.catalog = catalog' := by
  unfold register_all at h
  split at h
  · cases h
  · rename_i ordered hsort
    split at h
    · cases h
    · rename_i b hb
      split at h
      · cases h
        exact ⟨ordered, b, hsort, hb, rfl⟩
      · cases h

/-- **One batch** whose records fit leaves the catalog sound. -/
theorem Records.Sound.submit {catalog : Records} (h : catalog.Sound) {batch : Registration}
    (hfit : catalog.Fitting sha256 batch) : (catalog.submit sha256 batch).Sound := by
  unfold Records.submit
  split
  · rename_i catalog' changed haccepted
    obtain ⟨ordered, b, hsort, hb, rfl⟩ := register_all_cases haccepted
    exact (hfit ordered _ haccepted hsort).sound h hb
  · exact h

/-- **The scope forest stays acyclic and its keys unambiguous**: after every batch of a run in
which the records of the accepted batches fit, no scope lies above itself, `collect_keys` ends for
every scope, and what it gives has no key twice. -/
theorem scope_forest_stays_sound {start : Records} (hstart : start.Sound)
    {batches : List Registration}
    (h : Along (Records.submit sha256) (Records.Fitting sha256) start batches)
    (past : List Registration) (hpast : past <+: batches) :
    Acyclic (run (Records.submit sha256) start past).parentOf ∧
      ∀ code,
        (∃ depth keys, (run (Records.submit sha256) start past).effective_keys depth code =
          some keys) ∧
        ∀ depth keys, (run (Records.submit sha256) start past).effective_keys depth code =
          some keys → keys.Nodup := by
  obtain ⟨rest, rfl⟩ := hpast
  have hstep : ∀ (rs : Records) (batch : Registration), rs.Sound → rs.Fitting sha256 batch →
      (rs.submit sha256 batch).Sound := fun _ _ hs he => hs.submit he
  have hsound := Along.invariant hstep hstart (Along.append.mp h).1
  exact ⟨hsound.acyclic, fun code => ⟨hsound.effective_keys code, fun _ _ hk => hsound.nodup hk⟩⟩

/-- The empty catalog is sound. -/
theorem Records.sound_nil : Records.Sound [] := by
  have hnone : ∀ code, Records.parentOf [] code = none := fun _ => rfl
  refine ⟨fun x hx => ?_, fun code => List.nodup_nil, fun x y hxy => ?_⟩
  · obtain ⟨p, hp, -⟩ := above_iff.mp hx
    cases hp
  · obtain ⟨p, hp, -⟩ := above_iff.mp hxy
    cases hp

end Batches

section Runs

def nodeScopes : Registration := ⟨"psa", [⟨"NODE", none, ["nodeType"], []⟩]⟩

def lifecycleScopes : Registration := ⟨"psa", [⟨"LIFECYCLE", some "NODE", ["transition"], []⟩]⟩

/-- The owner of a registered scope puts it under its own child. -/
def nodeUnderLifecycle : Registration := ⟨"psa", [⟨"NODE", some "LIFECYCLE", ["nodeType"], []⟩]⟩

def lifecycleAgain : Registration := ⟨"psa", [⟨"LIFECYCLE", some "NODE", ["nodeType"], []⟩]⟩

def nodeRecord : ScopeRecord := ⟨"NODE", none, "parent=\nkeys=nodeType", "psa", ["nodeType"]⟩

theorem scope_forest_stays_sound_of_seed :
    Acyclic (run (Records.submit id) [] [nodeScopes, lifecycleScopes]).parentOf ∧
      ∀ depth keys, (run (Records.submit id) [] [nodeScopes, lifecycleScopes]).effective_keys depth
        "LIFECYCLE" = some keys → keys.Nodup := by
  have hroots : ∀ catalog : Records, (∀ r ∈ catalog, r.parent = none) →
      ∀ d a, ¬ Above catalog.parentOf d a := by
    intro catalog hcatalog d a hd
    obtain ⟨p, hp, -⟩ := above_iff.mp hd
    obtain ⟨r, hr, hparent⟩ := Option.bind_eq_some_iff.mp hp
    rw [hcatalog r (List.mem_of_find?_eq_some hr)] at hparent
    cases hparent
  have hfits : Along (Records.submit id) (Records.Fitting id) [] [nodeScopes, lifecycleScopes] := by
    refine ⟨fun ordered result _ hsort => ?_, fun ordered result _ hsort => ?_, trivial⟩
    · cases hsort
      refine ⟨fun r hr => ?_, fun _ _ => trivial⟩
      cases hr
      exact ⟨by simp, fun d hd => absurd hd (hroots [] (by simp) d _), by simp⟩
    · have hcatalog : Records.submit id [] nodeScopes = [nodeRecord] := by decide
      have hends : Records.parentOf [nodeRecord] "NODE" = none := rfl
      rw [hcatalog] at hsort ⊢
      cases hsort
      refine ⟨fun r hr => ?_, fun _ _ => trivial⟩
      cases hr
      refine ⟨?_, fun d hd => absurd hd (hroots [nodeRecord] (by simp [nodeRecord]) d _), ?_⟩
      · rintro p hp hreach
        cases hp
        exact absurd (hreach.eq_of_end hends) (by decide)
      · rintro p a hp ha
        cases hp
        refine ⟨?_, fun d hd => absurd hd (hroots [nodeRecord] (by simp [nodeRecord]) d _)⟩
        rw [ha.eq_of_end hends]
        intro key hkey hown
        rw [List.mem_singleton.mp hkey] at hown
        exact absurd hown (by decide)
  obtain ⟨hacyclic, hkeys⟩ := scope_forest_stays_sound Records.sound_nil hfits _ (List.prefix_refl _)
  exact ⟨hacyclic, (hkeys "LIFECYCLE").2⟩

theorem scope_forest_gets_a_cycle :
    ¬ Acyclic (run (Records.submit id) [] [nodeScopes, lifecycleScopes, nodeUnderLifecycle]).parentOf ∧
      (∀ depth, (run (Records.submit id) [] [nodeScopes, lifecycleScopes,
        nodeUnderLifecycle]).effective_keys depth "NODE" = none) ∧
      (run (Records.submit id) [] [nodeScopes, lifecycleAgain]).effective_keys 2 "LIFECYCLE" =
        some ["nodeType", "nodeType"] := by
  have hnode : (run (Records.submit id) [] [nodeScopes, lifecycleScopes,
      nodeUnderLifecycle]).parentOf "NODE" = some "LIFECYCLE" := by decide
  have hlifecycle : (run (Records.submit id) [] [nodeScopes, lifecycleScopes,
      nodeUnderLifecycle]).parentOf "LIFECYCLE" = some "NODE" := by decide
  generalize run (Records.submit id) [] [nodeScopes, lifecycleScopes, nodeUnderLifecycle] = rs at *
  refine ⟨fun hacyclic => ?_, fun depth => ?_, by decide⟩
  · exact hacyclic "NODE" (above_iff.mpr ⟨_, hnode, ComesTo.refl.tail hlifecycle⟩)
  · -- each of the two asks for the other
    suffices hboth : rs.effective_keys depth "NODE" = none ∧
        rs.effective_keys depth "LIFECYCLE" = none by
      exact hboth.1
    obtain ⟨node, hgetNode, hparentNode⟩ := Option.bind_eq_some_iff.mp hnode
    obtain ⟨lifecycle, hgetLifecycle, hparentLifecycle⟩ := Option.bind_eq_some_iff.mp hlifecycle
    induction depth with
    | zero => exact ⟨rfl, rfl⟩
    | succ depth ih =>
      simp [Records.effective_keys, hgetNode, hparentNode, hgetLifecycle, hparentLifecycle, ih.1,
        ih.2]

end Runs

end PlmCore.Pno
