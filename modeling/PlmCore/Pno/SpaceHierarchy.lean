/-
The two walks over the project spaces (`project_spaces.rs`): up the parents, where the nearest
space that has tags for a service gives them, and down to the spaces below one.

Both remember the spaces they came through, so neither goes round a cycle: what lies behind the
first repetition was seen already.
-/
import Mathlib.Data.List.Nodup
import PlmCore.Pno.ProjectSpaces

set_option autoImplicit false

namespace PlmCore.Pno

open PlmCore.Lib

namespace Spaces

variable (t : Spaces)

/-! ## Up -/

/-- The space is there and active. -/
def is_active (id : String) : Bool := (t.active_space id).isSome

/-- The chain of active ancestors: the space itself, then the space above the one before. It ends
at a space without a parent, and before one that is missing or not active. -/
def ancestor (id : String) : Nat → Option String
  | 0 => (some id).filter t.is_active
  | k + 1 => ((ancestor id k).bind t.parent).filter t.is_active

/-- The first `k` ancestors give these tags: those of the nearest one that has any. -/
def NearestBelow (id code : String) (k : Nat) (tags : List String) : Prop :=
  (∃ j < k, ∃ owner ∈ t.ancestor id j, t.get_service_tags owner code ≠ [] ∧
      (∀ i < j, ∀ a ∈ t.ancestor id i, t.get_service_tags a code = []) ∧
      tags = t.get_service_tags owner code) ∨
    (∀ j < k, ∀ a ∈ t.ancestor id j, t.get_service_tags a code = []) ∧ tags = []

/-- The ancestors give these tags. -/
def Nearest (id code : String) (tags : List String) : Prop :=
  (∃ j, ∃ owner ∈ t.ancestor id j, t.get_service_tags owner code ≠ [] ∧
      (∀ i < j, ∀ a ∈ t.ancestor id i, t.get_service_tags a code = []) ∧
      tags = t.get_service_tags owner code) ∨
    (∀ j, ∀ a ∈ t.ancestor id j, t.get_service_tags a code = []) ∧ tags = []

variable {t} {id : String}

/-- The chain goes on from where it is. -/
theorem ancestor_add {j k : Nat} (h : t.ancestor id j = t.ancestor id k) (n : Nat) :
    t.ancestor id (j + n) = t.ancestor id (k + n) := by
  induction n with
  | zero => exact h
  | succ n ih =>
    rw [← Nat.add_assoc, ← Nat.add_assoc, ancestor, ancestor, ih]

/-- Behind a repetition everything was seen. -/
theorem ancestor_lt {k i : Nat} (hi : i < k) (h : t.ancestor id k = t.ancestor id i) (j : Nat) :
    ∃ l < k, t.ancestor id j = t.ancestor id l := by
  induction j using Nat.strongRecOn with
  | ind j ih =>
    by_cases hj : j < k
    · exact ⟨j, hj, rfl⟩
    · -- one turn of the cycle back
      obtain ⟨l, hl, heq⟩ := ih (i + (j - k)) (by omega)
      refine ⟨l, hl, ?_⟩
      rw [← heq, ← ancestor_add h (j - k)]
      congr 1
      omega

/-- Behind the end there is nothing. -/
theorem ancestor_eq_none {k j : Nat} (h : t.ancestor id k = none) (hj : k ≤ j) :
    t.ancestor id j = none := by
  obtain ⟨n, rfl⟩ := Nat.exists_eq_add_of_le hj
  induction n with
  | zero => exact h
  | succ n ih =>
    rw [← Nat.add_assoc, ancestor, ih (Nat.le_add_right k n)]
    rfl

/-- When the first `k` ancestors are all there are, they decide. -/
theorem NearestBelow.nearest {code : String} {k : Nat} {tags : List String}
    (h : t.NearestBelow id code k tags)
    (hall : ∀ j, ∀ a ∈ t.ancestor id j, ∃ l < k, t.ancestor id l = some a) : t.Nearest id code tags := by
  obtain ⟨j, -, owner, howner, hrest⟩ | ⟨hnone, htags⟩ := h
  · exact .inl ⟨j, owner, howner, hrest⟩
  · refine .inr ⟨fun j a ha => ?_, htags⟩
    obtain ⟨l, hl, hla⟩ := hall j a ha
    exact hnone l hl a hla

/-- At the end of the chain the ancestors before it are all there are. -/
theorem NearestBelow.nearest_of_end {code : String} {k : Nat} {tags : List String}
    (h : t.NearestBelow id code k tags) (hend : t.ancestor id k = none) : t.Nearest id code tags := by
  refine h.nearest fun j a ha => ⟨j, ?_, ha⟩
  by_contra hj
  rw [ancestor_eq_none hend (Nat.le_of_not_lt hj)] at ha
  cases ha

/-- One more ancestor decides where those before it have no tags. -/
theorem NearestBelow.take_tags {code : String} {k : Nat} {cur : String} {r : ProjectSpace}
    {e : EffectiveTags} (h : t.NearestBelow id code k (e.service_tags code))
    (hcur : t.ancestor id k = some cur) :
    t.NearestBelow id code (k + 1) ((t.take_tags id cur r e).service_tags code) := by
  have hlast : ∀ j < k + 1, ∀ a ∈ t.ancestor id j, j < k ∨ a = cur := by
    intro j hj a ha
    by_cases hk : j = k
    · right
      rw [hk, hcur] at ha
      exact (Option.some.inj ha).symm
    · left
      omega
  obtain ⟨j, hj, owner, howner, hne, hbefore, htags⟩ | ⟨hnone, htags⟩ := h
  · left
    refine ⟨j, by omega, owner, howner, hne, hbefore, ?_⟩
    rw [← htags] at hne ⊢
    exact if_neg hne
  · have hgiven : (t.take_tags id cur r e).service_tags code = t.get_service_tags cur code :=
      if_pos htags
    rw [hgiven]
    by_cases hcode : t.get_service_tags cur code = []
    · right
      refine ⟨fun j hj a ha => ?_, hcode⟩
      obtain hjk | rfl := hlast j hj a ha
      · exact hnone j hjk a ha
      · exact hcode
    · left
      exact ⟨k, by omega, cur, hcur, hcode, hnone, rfl⟩

/-- What the loop ends with, by induction on the turns: it has taken the tags of the first `k`
ancestors, which are the spaces visited, and comes to the next one. -/
theorem effective_loop_nearest {code : String} {turns k : Nat} {next : Option String}
    {visited : List String} {e e' : EffectiveTags}
    (h : t.effective_loop id turns next visited e = some e')
    (hnext : t.ancestor id k = next.filter t.is_active)
    (hvisited : ∀ a, a ∈ visited ↔ ∃ j < k, t.ancestor id j = some a)
    (he : t.NearestBelow id code k (e.service_tags code)) :
    t.Nearest id code (e'.service_tags code) := by
  induction turns generalizing k next visited e with
  | zero =>
    cases next with
    | none =>
      cases h
      exact he.nearest_of_end hnext
    | some cur => cases h
  | succ turns ih =>
    cases next with
    | none =>
      cases h
      exact he.nearest_of_end hnext
    | some cur =>
      unfold effective_loop at h
      by_cases hcur : cur ∈ visited
      · rw [if_pos hcur] at h
        cases h
        obtain ⟨i, hi, hia⟩ := (hvisited cur).mp hcur
        -- the space was visited, so it is an ancestor, and an active one
        by_cases hactive : t.is_active cur = true
        · rw [Option.filter_some, if_pos hactive, ← hia] at hnext
          refine he.nearest fun j a ha => ?_
          obtain ⟨l, hl, heq⟩ := ancestor_lt hi hnext j
          exact ⟨l, hl, heq ▸ ha⟩
        · rw [Option.filter_some, if_neg hactive] at hnext
          exact he.nearest_of_end hnext
      · rw [if_neg hcur] at h
        cases hr : t.active_space cur with
        | none =>
          rw [hr] at h
          cases h
          have hactive : ¬ t.is_active cur = true := by simp [is_active, hr]
          rw [Option.filter_some, if_neg hactive] at hnext
          exact he.nearest_of_end hnext
        | some r =>
          rw [hr] at h
          have hactive : t.is_active cur = true := by simp [is_active, hr]
          rw [Option.filter_some, if_pos hactive] at hnext
          have hparent : t.parent cur = r.parent_id := by
            rw [parent, hr]
            rfl
          have hnext' : t.ancestor id (k + 1) = r.parent_id.filter t.is_active := by
            rw [ancestor, hnext, Option.bind_some, hparent]
          have he' := he.take_tags (r := r) hnext
          refine ih h hnext' (fun a => ?_) he'
          rw [List.mem_cons, hvisited]
          constructor
          · rintro (rfl | ⟨j, hj, ha⟩)
            · exact ⟨k, by omega, hnext⟩
            · exact ⟨j, by omega, ha⟩
          · rintro ⟨j, hj, ha⟩
            by_cases hjk : j = k
            · left
              rw [hjk, hnext] at ha
              exact (Option.some.inj ha).symm
            · exact .inr ⟨j, by omega, ha⟩

/-- **The nearest space that has tags for a service gives them.** -/
theorem effective_service_tags_nearest {e : EffectiveTags} (h : t.effective_service_tags id = some e)
    (code : String) : t.Nearest id code (e.service_tags code) := by
  refine effective_loop_nearest (k := 0) h rfl (fun a => ?_) (.inr ⟨fun j hj => ?_, rfl⟩)
  · refine iff_of_false List.not_mem_nil ?_
    rintro ⟨j, hj, -⟩
    omega
  · omega

/-! ## Down -/

variable (t)

/-- `SELECT id FROM project_space WHERE parent_id = ? AND active = 1`. -/
def children (current : String) : List String :=
  (t.spaces.filter fun s => s.parent_id = some current && s.active).map (·.id)

/-- The loop of `descendants`. What is in the result is what was visited. -/
def descendants_loop : Nat → List String → List String → Option (List String)
  | _, [], result => some result
  | 0, _ :: _, _ => none
  | turns + 1, current :: queue, result =>
    if 500 ≤ result.length then some result
    else if current ∈ result then descendants_loop turns queue result
    else descendants_loop turns (queue ++ t.children current) (result ++ [current])

/-- `descendants`. -/
def descendants (id : String) : Option (List String) := t.descendants_loop (t.spaces.length + 1) [id] []

/-- The active spaces that are nobody's child yet: the one above was not visited. -/
def waiting (result : List String) : List ProjectSpace :=
  t.spaces.filter fun s => s.active && s.parent_id.all (· ∉ result)

variable {t}

/-- A child is an active space with that parent. -/
theorem mem_children {a b : String} : b ∈ t.children a ↔ t.parent b = some a := by
  rw [children, List.mem_map]
  constructor
  · rintro ⟨s, hs, rfl⟩
    obtain ⟨hmem, hcond⟩ := List.mem_filter.mp hs
    rw [Bool.and_eq_true, decide_eq_true_eq] at hcond
    -- the id is the primary key, so this is the row that is found
    have hfind : t.active_space s.id = some s := by
      rw [active_space]
      cases hf : t.spaces.find? fun r => r.id = s.id && r.active with
      | none =>
        have hnot := List.find?_eq_none.mp hf s hmem
        simp [hcond.2] at hnot
      | some r =>
        have hr := List.find?_some hf
        rw [Bool.and_eq_true, decide_eq_true_eq] at hr
        rw [List.inj_on_of_nodup_map t.pk_space (List.mem_of_find?_eq_some hf) hmem hr.1]
    rw [parent, hfind]
    exact hcond.1
  · intro h
    rw [parent, Option.bind_eq_some_iff] at h
    obtain ⟨r, hr, hparent⟩ := h
    obtain ⟨hmem, hid⟩ := active_space_mem hr
    have hactive := List.find?_some hr
    rw [Bool.and_eq_true] at hactive
    refine ⟨r, List.mem_filter.mpr ⟨hmem, ?_⟩, hid⟩
    rw [Bool.and_eq_true, decide_eq_true_eq]
    exact ⟨hparent, hactive.2⟩

/-- The children of a visited space wait no longer. -/
theorem length_waiting {current : String} {result : List String} (h : current ∉ result) :
    (t.waiting (result ++ [current])).length + (t.children current).length =
      (t.waiting result).length := by
  rw [children, List.length_map, waiting, waiting, ← List.countP_eq_length_filter,
    ← List.countP_eq_length_filter, ← List.countP_eq_length_filter]
  induction t.spaces with
  | nil => rfl
  | cons s spaces ih =>
    -- a child of the current space waited, if it is active, and no other space stops waiting
    have hone : ((if (s.active && s.parent_id.all (· ∉ result ++ [current])) = true then 1 else 0) +
        if (s.parent_id = some current && s.active) = true then 1 else 0) =
          if (s.active && s.parent_id.all (· ∉ result)) = true then 1 else 0 := by
      cases hparent : s.parent_id with
      | none => simp
      | some p =>
        by_cases hp : p = current
        · simp [hp, h]
        · simp [hp]
    rw [List.countP_cons, List.countP_cons, List.countP_cons]
    omega

/-- A turn takes a space from the queue, or lets its children wait there instead, so the loop comes
to its end. -/
theorem descendants_loop_ne_none {turns : Nat} {queue result : List String}
    (hturns : queue.length + (t.waiting result).length ≤ turns) :
    t.descendants_loop turns queue result ≠ none := by
  induction turns generalizing queue result with
  | zero =>
    cases queue with
    | nil => simp [descendants_loop]
    | cons current queue =>
      rw [List.length_cons] at hturns
      omega
  | succ turns ih =>
    cases queue with
    | nil => simp [descendants_loop]
    | cons current queue =>
      rw [List.length_cons] at hturns
      unfold descendants_loop
      by_cases hlimit : 500 ≤ result.length
      · simp [hlimit]
      · rw [if_neg hlimit]
        by_cases hcur : current ∈ result
        · rw [if_pos hcur]
          apply ih
          omega
        · rw [if_neg hcur]
          apply ih
          have hwaiting := length_waiting (t := t) hcur
          rw [List.length_append]
          omega

/-- **The walk down ends**, on cycles too. -/
theorem descendants_ne_none : t.descendants id ≠ none := by
  apply descendants_loop_ne_none
  have hle : (t.waiting []).length ≤ t.spaces.length := List.length_filter_le _ _
  rw [List.length_singleton]
  omega

/-- A result that has the start, and the children of all it has, is everything below. -/
theorem mem_iff_of_closed {ids : List String} (hids : ∀ x ∈ ids, ComesTo t.parent x id)
    (hstart : id ∈ ids) (hclosed : ∀ a ∈ ids, ∀ b ∈ t.children a, b ∈ ids) (x : String) :
    x ∈ ids ↔ ComesTo t.parent x id := by
  refine ⟨hids x, fun hx => ?_⟩
  induction hx using Relation.ReflTransGen.head_induction_on with
  | refl => exact hstart
  | head hstep _ ih => exact hclosed _ ih _ (mem_children.mpr hstep)

/-- What the loop ends with, by induction on the turns: every space that was visited has its
children visited or in the queue. -/
theorem descendants_loop_spec {turns : Nat} {queue result ids : List String}
    (h : t.descendants_loop turns queue result = some ids)
    (hfew : ∀ l : List String, l.Nodup → (∀ x ∈ l, ComesTo t.parent x id) → l.length < 500)
    (hqueue : ∀ x ∈ queue, ComesTo t.parent x id) (hresult : ∀ x ∈ result, ComesTo t.parent x id)
    (hnodup : result.Nodup) (hstart : id ∈ result ∨ id ∈ queue)
    (hclosed : ∀ a ∈ result, ∀ b ∈ t.children a, b ∈ result ∨ b ∈ queue) :
    ids.Nodup ∧ ∀ x, x ∈ ids ↔ ComesTo t.parent x id := by
  induction turns generalizing queue result with
  | zero =>
    cases queue with
    | nil =>
      cases h
      exact ⟨hnodup, mem_iff_of_closed hresult (hstart.resolve_right List.not_mem_nil)
        fun a ha b hb => (hclosed a ha b hb).resolve_right List.not_mem_nil⟩
    | cons current queue => cases h
  | succ turns ih =>
    cases queue with
    | nil =>
      cases h
      exact ⟨hnodup, mem_iff_of_closed hresult (hstart.resolve_right List.not_mem_nil)
        fun a ha b hb => (hclosed a ha b hb).resolve_right List.not_mem_nil⟩
    | cons current queue =>
      unfold descendants_loop at h
      rw [if_neg (Nat.not_le_of_lt (hfew result hnodup hresult))] at h
      have hway := hqueue current List.mem_cons_self
      have hrest : ∀ x ∈ queue, ComesTo t.parent x id :=
        fun x hx => hqueue x (List.mem_cons_of_mem _ hx)
      by_cases hcur : current ∈ result
      · rw [if_pos hcur] at h
        -- the space was visited, so it is in the result instead
        have hmove : ∀ x, x ∈ result ∨ x ∈ current :: queue → x ∈ result ∨ x ∈ queue := by
          intro x hx
          rw [List.mem_cons] at hx
          obtain hx | rfl | hx := hx
          · exact .inl hx
          · exact .inl hcur
          · exact .inr hx
        exact ih h hrest hresult hnodup (hmove id hstart)
          fun a ha b hb => hmove b (hclosed a ha b hb)
      · rw [if_neg hcur] at h
        have hmove : ∀ x, x ∈ result ∨ x ∈ current :: queue →
            x ∈ result ++ [current] ∨ x ∈ queue ++ t.children current := by
          intro x hx
          rw [List.mem_append, List.mem_append, List.mem_singleton]
          rw [List.mem_cons] at hx
          obtain hx | hx | hx := hx
          · exact .inl (.inl hx)
          · exact .inl (.inr hx)
          · exact .inr (.inl hx)
        refine ih h ?_ ?_ ?_ (hmove id hstart) ?_
        · intro x hx
          obtain hx | hx := List.mem_append.mp hx
          · exact hrest x hx
          · exact Relation.ReflTransGen.head (mem_children.mp hx) hway
        · intro x hx
          obtain hx | hx := List.mem_append.mp hx
          · exact hresult x hx
          · exact List.mem_singleton.mp hx ▸ hway
        · exact List.nodup_append'.mpr ⟨hnodup, List.nodup_singleton current,
            List.disjoint_singleton.mpr hcur⟩
        · intro a ha b hb
          obtain ha | ha := List.mem_append.mp ha
          · exact hmove b (hclosed a ha b hb)
          · -- the children of the current space are in the queue now
            rw [List.mem_singleton] at ha
            exact .inr (List.mem_append_right _ (ha ▸ hb))

/-- **What the walk down gives**: the space and those below it, each once, unless they are as many
as its limit. -/
theorem descendants_spec {ids : List String} (h : t.descendants id = some ids)
    (hfew : ∀ l : List String, l.Nodup → (∀ x ∈ l, ComesTo t.parent x id) → l.length < 500) :
    ids.Nodup ∧ ∀ x, x ∈ ids ↔ ComesTo t.parent x id := by
  refine descendants_loop_spec h hfew ?_ ?_ List.nodup_nil (.inr List.mem_cons_self) ?_
  · intro x hx
    exact List.mem_singleton.mp hx ▸ Relation.ReflTransGen.refl
  · exact fun x hx => absurd hx List.not_mem_nil
  · exact fun x hx => absurd hx List.not_mem_nil

/-- **Both walks come to their end and give what they promise.** Up, the tags of the nearest active
ancestor that has any; down, the space and everything below it, when that is fewer than 500. -/
theorem space_hierarchy (t : Spaces) (id : String) :
    (∃ e, t.effective_service_tags id = some e ∧ ∀ code, t.Nearest id code (e.service_tags code)) ∧
      ∃ ids, t.descendants id = some ids ∧
        ((∀ l : List String, l.Nodup → (∀ x ∈ l, ComesTo t.parent x id) → l.length < 500) →
          ids.Nodup ∧ ∀ x, x ∈ ids ↔ ComesTo t.parent x id) := by
  have hup : t.effective_service_tags id ≠ none := effective_service_tags_ne_none
  have hdown : t.descendants id ≠ none := descendants_ne_none
  obtain ⟨e, he⟩ := Option.ne_none_iff_exists'.mp hup
  obtain ⟨ids, hids⟩ := Option.ne_none_iff_exists'.mp hdown
  exact ⟨⟨e, he, effective_service_tags_nearest he⟩, ids, hids, descendants_spec hids⟩

end Spaces

end PlmCore.Pno
