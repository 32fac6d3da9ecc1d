/-
Project spaces and their service tags (`project_spaces.rs`).

A space can hold tags for a service and inherits those of the spaces above it for the services
it has none for. An isolated space has its tags for itself: `set_service_tags` refuses a tag
that an isolated space holds, and to an isolated space any tag that another one holds.

The tags of a space for a service are read as a set, so the order of the rows is not kept.
-/
import Mathlib.Data.List.Perm.Subperm
import Mathlib.Tactic.Common
import PlmCore.Lib.Walk

set_option autoImplicit false

namespace PlmCore.Pno

open PlmCore.Lib

/-! ## The tables -/

/-- A row of `project_space`. -/
structure ProjectSpace where
  id : String
  parent_id : Option String
  active : Bool
  isolated : Bool
  deriving DecidableEq

/-- A row of `project_space_service_tag`. -/
structure ServiceTag where
  project_space_id : String
  service_code : String
  tag_value : String
  deriving DecidableEq

/-- Both tables; `id` is the primary key of the first. -/
structure Spaces where
  spaces : List ProjectSpace
  tags : List ServiceTag
  pk_space : (spaces.map (·.id)).Nodup

namespace Spaces

variable (t : Spaces)

/-- `SELECT … FROM project_space WHERE id = ? AND active = 1`. -/
def active_space (id : String) : Option ProjectSpace :=
  t.spaces.find? fun s => s.id = id && s.active

/-- The tags of a space for a service, of `get_service_tags`. -/
def get_service_tags (id service_code : String) : List String :=
  (t.tags.filter fun r => r.project_space_id = id && r.service_code = service_code).map (·.tag_value)

/-- `is_isolated`. -/
def is_isolated (id : String) : Bool := (t.active_space id).any (·.isolated)

/-- The flag of a space, active or not. -/
def flagged (id : String) : Bool := t.spaces.any fun s => s.id = id && s.isolated

/-- The space above an active one. -/
def parent (id : String) : Option String := (t.active_space id).bind (·.parent_id)

end Spaces

/-! ## Effective tags -/

/-- The answer of `effective_service_tags`; a service without tags has no entry. -/
structure EffectiveTags where
  isolated : Bool
  service_tags : String → List String

namespace Spaces

variable (t : Spaces) (id : String)

/-- One turn of the loop: the tags of the space where the services have none yet. -/
def take_tags (cur : String) (r : ProjectSpace) (e : EffectiveTags) : EffectiveTags where
  isolated := if cur = id then r.isolated else e.isolated
  service_tags code := if e.service_tags code = [] then t.get_service_tags cur code else e.service_tags code

/-- The loop of `effective_service_tags`. -/
def effective_loop : Nat → Option String → List String → EffectiveTags → Option EffectiveTags
  | _, none, _, e => some e
  | 0, some _, _, _ => none
  | turns + 1, some cur, visited, e =>
    if cur ∈ visited then some e
    else match t.active_space cur with
      | none => some e
      | some r => effective_loop turns r.parent_id (cur :: visited) (t.take_tags id cur r e)

/-- `effective_service_tags`. -/
def effective_service_tags : Option EffectiveTags :=
  t.effective_loop id (t.spaces.length + 1) (some id) [] ⟨false, fun _ => []⟩

variable {t id}

theorem active_space_mem {cur : String} {r : ProjectSpace} (h : t.active_space cur = some r) :
    r ∈ t.spaces ∧ r.id = cur := by
  have hr := List.find?_some h
  simp only [Bool.and_eq_true, decide_eq_true_eq] at hr
  exact ⟨List.mem_of_find?_eq_some h, hr.1⟩

/-- The loop visits active spaces, each once, so it comes to its end. -/
theorem effective_loop_ne_none {turns : Nat} {next : Option String} {visited : List String}
    {e : EffectiveTags} (hnodup : visited.Nodup) (hvisited : visited ⊆ t.spaces.map (·.id))
    (hturns : turns + visited.length = t.spaces.length + 1) :
    t.effective_loop id turns next visited e ≠ none := by
  induction turns generalizing next visited e with
  | zero =>
    -- more spaces were visited than there are
    have hle := (hnodup.subperm hvisited).length_le
    rw [List.length_map] at hle
    omega
  | succ turns ih =>
    cases next with
    | none => simp [effective_loop]
    | some cur =>
      unfold effective_loop
      by_cases hcur : cur ∈ visited
      · simp [hcur]
      · rw [if_neg hcur]
        cases hr : t.active_space cur with
        | none => simp
        | some r =>
          obtain ⟨hmem, hid⟩ := active_space_mem hr
          apply ih (List.nodup_cons.mpr ⟨hcur, hnodup⟩)
          · refine List.cons_subset.mpr ⟨?_, hvisited⟩
            rw [← hid]
            exact List.mem_map_of_mem hmem
          · rw [List.length_cons]
            omega

/-- **The walk up the parents ends**, on cycles too. -/
theorem effective_service_tags_ne_none : t.effective_service_tags id ≠ none :=
  effective_loop_ne_none List.nodup_nil (List.nil_subset _) (by simp)

/-- Every tag is inherited: the tags of a service are those of one space on the way up. -/
def Inherited (t : Spaces) (id : String) (e : EffectiveTags) : Prop :=
  ∀ code, e.service_tags code ≠ [] →
    ∃ owner, ComesTo t.parent id owner ∧ e.service_tags code = t.get_service_tags owner code

theorem Inherited.take_tags {cur : String} {r : ProjectSpace} {e : EffectiveTags}
    (h : t.Inherited id e) (hcur : ComesTo t.parent id cur) : t.Inherited id (t.take_tags id cur r e) := by
  intro code hne
  by_cases hcode : e.service_tags code = []
  · exact ⟨cur, hcur, if_pos hcode⟩
  · obtain ⟨owner, howner, htags⟩ := h code hcode
    exact ⟨owner, howner, (if_neg hcode).trans htags⟩

/-- What the loop ends with, by induction on the turns: inherited tags, and the flag it had once
the space itself was visited. -/
theorem effective_loop_spec {turns : Nat} {next : Option String} {visited : List String}
    {e e' : EffectiveTags} (h : t.effective_loop id turns next visited e = some e')
    (hnext : ∀ cur ∈ next, ComesTo t.parent id cur) (he : t.Inherited id e) :
    t.Inherited id e' ∧ (id ∈ visited → e'.isolated = e.isolated) := by
  induction turns generalizing next visited e with
  | zero =>
    cases next with
    | none =>
      cases h
      exact ⟨he, fun _ => rfl⟩
    | some cur => cases h
  | succ turns ih =>
    cases next with
    | none =>
      cases h
      exact ⟨he, fun _ => rfl⟩
    | some cur =>
      unfold effective_loop at h
      by_cases hcur : cur ∈ visited
      · rw [if_pos hcur] at h
        cases h
        exact ⟨he, fun _ => rfl⟩
      rw [if_neg hcur] at h
      cases hr : t.active_space cur with
      | none =>
        rw [hr] at h
        cases h
        exact ⟨he, fun _ => rfl⟩
      | some r =>
        rw [hr] at h
        have hway := hnext cur rfl
        have hup : ∀ p ∈ r.parent_id, ComesTo t.parent id p := by
          intro p hp
          apply hway.tail
          rw [parent, hr]
          exact hp
        obtain ⟨hinherited, hflag⟩ := ih h hup (he.take_tags hway)
        refine ⟨hinherited, fun hid => ?_⟩
        rw [hflag (List.mem_cons_of_mem _ hid)]
        -- the space itself was visited before
        have hne : cur ≠ id := by
          rintro rfl
          exact hcur hid
        exact if_neg hne

/-- **Effective tags are inherited**, and the flag is that of the space. -/
theorem effective_service_tags_spec {e : EffectiveTags} (h : t.effective_service_tags id = some e) :
    t.Inherited id e ∧ e.isolated = t.is_isolated id := by
  have hnone : t.Inherited id ⟨false, fun _ => []⟩ := fun _ hne => absurd rfl hne
  refine ⟨(effective_loop_spec h (by rintro cur ⟨⟩; exact ComesTo.refl) hnone).1, ?_⟩
  unfold effective_service_tags effective_loop at h
  rw [if_neg List.not_mem_nil] at h
  unfold is_isolated
  cases hr : t.active_space id with
  | none =>
    rw [hr] at h
    cases h
    rfl
  | some r =>
    rw [hr] at h
    have hup : ∀ p ∈ r.parent_id, ComesTo t.parent id p := by
      intro p hp
      apply ComesTo.refl.tail
      rw [parent, hr]
      exact hp
    rw [(effective_loop_spec h hup (hnone.take_tags ComesTo.refl)).2 (List.mem_singleton_self _)]
    exact if_pos rfl

/-! ## Exclusive tags -/

/-- A tag of an isolated space for a service is no other space's: `set_service_tags` gives an
isolated space no tag that another one has, and no space a tag that an isolated one has. -/
def Exclusive (t : Spaces) : Prop :=
  ∀ r ∈ t.tags, ∀ r' ∈ t.tags, r.service_code = r'.service_code → r.tag_value = r'.tag_value →
    t.flagged r.project_space_id = true → r'.project_space_id = r.project_space_id

/-- The tags a space has of its own. -/
theorem mem_get_service_tags {code tag : String} :
    tag ∈ t.get_service_tags id code ↔ (⟨id, code, tag⟩ : ServiceTag) ∈ t.tags := by
  simp only [get_service_tags, List.mem_map, List.mem_filter, Bool.and_eq_true, decide_eq_true_eq]
  constructor
  · rintro ⟨r, ⟨hr, rfl, rfl⟩, rfl⟩
    exact hr
  · intro hr
    exact ⟨_, ⟨hr, rfl, rfl⟩, rfl⟩

/-- **A tag of an isolated space comes from that space**, to it or to those below it. -/
theorem Exclusive.inherited (h : t.Exclusive) {e : EffectiveTags} (he : t.effective_service_tags id = some e)
    {owner code tag : String} (htag : tag ∈ e.service_tags code)
    (howner : (⟨owner, code, tag⟩ : ServiceTag) ∈ t.tags) (hflag : t.flagged owner = true) :
    ComesTo t.parent id owner ∧ e.service_tags code = t.get_service_tags owner code := by
  obtain ⟨source, hway, htags⟩ := (effective_service_tags_spec he).1 code (List.ne_nil_of_mem htag)
  rw [htags, mem_get_service_tags] at htag
  obtain rfl : source = owner := h _ howner _ htag rfl rfl hflag
  exact ⟨hway, htags⟩

end Spaces

end PlmCore.Pno
