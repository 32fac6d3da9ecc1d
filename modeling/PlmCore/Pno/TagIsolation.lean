/-
The writers of the service tags: `create`, `set_isolated` and `set_service_tags` of
`project_spaces.rs`.

`set_service_tags` compares the tags as submitted with those of the other spaces, and then deletes
and inserts the trimmed ones, statement by statement and without a transaction. `set_isolated`
compares nothing.
-/
import Mathlib.Data.List.Nodup
import PlmCore.Lib.Run
import PlmCore.Pno.ProjectSpaces
import PlmCore.Spe.Gateway

set_option autoImplicit false

namespace PlmCore.Pno.TagIsolation

open PlmCore.Lib

/-- What a `set_service_tags` request names. -/
structure TagsRequest where
  id : String
  service_code : String
  tags : List String
  deriving DecidableEq

/-- `str::trim`. -/
def trimmed (tag : String) : String := String.ofList (Spe.trim tag.toList)

/-- The values that are inserted. -/
def TagsRequest.values (r : TagsRequest) : List String := (r.tags.map trimmed).filter (· ≠ "")

/-- The statement a request comes to next. `dirty` says that one of its statements has changed the
tags. -/
inductive Task
  | create (id : String) (parent_id : Option String)
  | set_isolated (id : String) (isolated : Bool)
  | exists_space (r : TagsRequest)
  | is_isolated (r : TagsRequest)
  | unused (r : TagsRequest) (tag : String) (rest : List String)
  | not_owned (r : TagsRequest) (tag : String) (rest : List String)
  | delete (r : TagsRequest)
  | insert (r : TagsRequest) (tag : String) (rest : List String) (dirty : Bool)
  | refresh (r : TagsRequest) (dirty : Bool)
  deriving DecidableEq

/-- The bodies of the three requests; `create` comes with the id that is drawn. -/
inductive Request
  | create (id : String) (parent_id : Option String)
  | set_isolated (id : String) (isolated : Bool)
  | set_service_tags (id service_code : String) (tags : Option (List String))
  deriving DecidableEq

def Request.task : Request → Task
  | .create id parent_id => .create id parent_id
  | .set_isolated id isolated => .set_isolated id isolated
  | .set_service_tags id service_code tags => .exists_space ⟨id, service_code, tags.getD []⟩

/-- The tables, the requests in flight, and the record of the requests that ended in an error after
they had changed the tags. -/
structure State where
  tables : Spaces
  tasks : List Task
  torn : List TagsRequest

/-- A request comes in, makes its next statement, or fails at it. -/
inductive Event
  | request (r : Request)
  | advance (i : Nat)
  | fail (i : Nat)
  deriving DecidableEq

/-! ## The statements -/

/-- `INSERT INTO project_space`. -/
def addSpace (t : Spaces) (id : String) (parent_id : Option String) : Option Spaces :=
  if hfresh : id ∉ t.spaces.map (·.id) then
    if parent_id.all fun p => p ∈ t.spaces.map (·.id) then
      some ⟨t.spaces ++ [⟨id, parent_id, true, false⟩], t.tags, by
        rw [List.map_append]
        exact List.Nodup.append t.pk_space (List.nodup_singleton _) (by simpa using hfresh)⟩
    else none
  else none

/-- `UPDATE project_space SET isolated = $1 WHERE id = $2 AND active = 1`. -/
def setIsolated (t : Spaces) (id : String) (isolated : Bool) : Spaces where
  spaces := t.spaces.map fun s => if s.id = id && s.active then { s with isolated } else s
  tags := t.tags
  pk_space := by
    have hids : (t.spaces.map fun s => if s.id = id && s.active then { s with isolated } else s).map
        (·.id) = t.spaces.map (·.id) := by
      rw [List.map_map]
      refine List.map_congr_left fun s _ => ?_
      simp only [Function.comp_apply]
      split <;> rfl
    rw [hids]
    exact t.pk_space

def Spaces.withTags (t : Spaces) (tags : List ServiceTag) : Spaces := { t with tags }

/-- The row a request inserts for a tag. -/
def TagsRequest.row (r : TagsRequest) (tag : String) : ServiceTag := ⟨r.id, r.service_code, tag⟩

/-- Another space has the tag for the service. -/
def usedElsewhere (t : Spaces) (r : TagsRequest) (tag : String) : Bool :=
  t.tags.any fun row => row.service_code = r.service_code && row.tag_value = tag &&
    row.project_space_id ≠ r.id

/-- Another space that is isolated has the tag for the service. -/
def ownedElsewhere (t : Spaces) (r : TagsRequest) (tag : String) : Bool :=
  t.tags.any fun row => row.service_code = r.service_code && row.tag_value = tag &&
    t.flagged row.project_space_id && row.project_space_id ≠ r.id

/-- The insertions still to come, and then the read of the answer. -/
def TagsRequest.insertions (r : TagsRequest) (dirty : Bool) : List String → Task
  | [] => .refresh r dirty
  | tag :: rest => .insert r tag rest dirty

namespace State

variable (s : State)

/-- The request at `i` goes on with another statement. -/
def goOn (i : Nat) (task : Task) : State := { s with tasks := s.tasks.set i task }

/-- The request at `i` is over. -/
def finish (i : Nat) : State := { s with tasks := s.tasks.eraseIdx i }

/-- The request at `i` ends in an error. -/
def abort (i : Nat) : State :=
  match s.tasks[i]? with
  | some (.insert r _ _ true) | some (.refresh r true) =>
    { s with tasks := s.tasks.eraseIdx i, torn := s.torn ++ [r] }
  | _ => s.finish i

/-- The next statement of the request at `i`. -/
def advance (i : Nat) : State :=
  match s.tasks[i]? with
  | none => s
  | some (.create id parent_id) =>
    match addSpace s.tables id parent_id with
    | some tables => { s with tables }.finish i
    | none => s.abort i
  | some (.set_isolated id isolated) => { s with tables := setIsolated s.tables id isolated }.finish i
  | some (.exists_space r) =>
    match s.tables.active_space r.id with
    | none => s.abort i
    | some _ => s.goOn i (if r.tags = [] then .delete r else .is_isolated r)
  | some (.is_isolated r) =>
    match r.tags with
    | [] => s.goOn i (.delete r)
    | tag :: rest =>
      s.goOn i (if s.tables.is_isolated r.id then .unused r tag rest else .not_owned r tag rest)
  | some (.unused r tag rest) =>
    if usedElsewhere s.tables r tag then s.abort i
    else match rest, r.tags with
      | tag' :: rest', _ => s.goOn i (.unused r tag' rest')
      | [], tag' :: rest' => s.goOn i (.not_owned r tag' rest')
      | [], [] => s.goOn i (.delete r)
  | some (.not_owned r tag rest) =>
    if ownedElsewhere s.tables r tag then s.abort i
    else match rest with
      | tag' :: rest' => s.goOn i (.not_owned r tag' rest')
      | [] => s.goOn i (.delete r)
  | some (.delete r) =>
    let gone row := decide (row.project_space_id = r.id) && decide (row.service_code = r.service_code)
    { s with tables := Spaces.withTags s.tables (s.tables.tags.filter fun row => !gone row) }.goOn i
      (r.insertions (s.tables.tags.any gone) r.values)
  | some (.insert r tag rest _) =>
    -- psst_unique
    if r.row tag ∈ s.tables.tags then s.abort i
    else { s with tables := Spaces.withTags s.tables (s.tables.tags ++ [r.row tag]) }.goOn i
      (r.insertions true rest)
  | some (.refresh _ _) => s.finish i

def step : Event → State
  | .request r => { s with tasks := s.tasks ++ [r.task] }
  | .advance i => s.advance i
  | .fail i => s.abort i

/-- No tag of an active and isolated space is one of another space. -/
def Exclusive : Prop :=
  ∀ row ∈ s.tables.tags, s.tables.is_isolated row.project_space_id = true →
    ∀ row' ∈ s.tables.tags, row'.service_code = row.service_code → row'.tag_value = row.tag_value →
      row'.project_space_id = row.project_space_id

/-- The tag may go to the space: no other space that is isolated has it, and none at all when the
space is isolated itself. -/
def Free (r : TagsRequest) (tag : String) : Prop :=
  ∀ row ∈ s.tables.tags, row.service_code = r.service_code → row.tag_value = tag →
    (s.tables.is_isolated r.id = true ∨ s.tables.is_isolated row.project_space_id = true) →
      row.project_space_id = r.id

/-- A space that becomes isolated has no tag of another one. -/
def Own (id : String) : Prop :=
  ∀ row ∈ s.tables.tags, row.project_space_id = id → ∀ row' ∈ s.tables.tags,
    row'.service_code = row.service_code → row'.tag_value = row.tag_value → row'.project_space_id = id

/-- The request at `i` has changed the tags already. -/
def Dirty (i : Nat) : Prop :=
  ∃ r, s.tasks[i]? = some (.refresh r true) ∨ ∃ tag rest, s.tasks[i]? = some (.insert r tag rest true)

/-- A tag is inserted where it is free and not there yet, a space is isolated when its tags are its
own, and a request that has changed the tags does not fail. -/
def Guarded : Event → Prop
  | .request _ => True
  | .fail i => ¬ s.Dirty i
  | .advance i =>
    (∀ r tag rest dirty, s.tasks[i]? = some (.insert r tag rest dirty) →
      if r.row tag ∈ s.tables.tags then dirty = false else s.Free r tag) ∧
    ∀ id, s.tasks[i]? = some (.set_isolated id true) →
      (s.tables.active_space id).isSome = true → s.Own id

end State

variable {s : State}

/-! ## The isolated spaces -/

theorem isIsolated_addSpace {t t' : Spaces} {id : String} {parent_id : Option String}
    (h : addSpace t id parent_id = some t') (x : String) : t'.is_isolated x = t.is_isolated x := by
  unfold addSpace at h
  split at h
  · rename_i hfresh
    split at h
    · cases h
      simp only [Spaces.is_isolated, Spaces.active_space, List.find?_append, List.find?_singleton]
      cases hfind : t.spaces.find? fun s => s.id = x && s.active with
      | some r => simp
      | none =>
        by_cases hx : id = x
        · simp [hx]
        · simp [hx]
    · cases h
  · cases h

theorem tags_addSpace {t t' : Spaces} {id : String} {parent_id : Option String}
    (h : addSpace t id parent_id = some t') : t'.tags = t.tags := by
  unfold addSpace at h
  split at h
  · split at h
    · cases h
      rfl
    · cases h
  · cases h

theorem activeSpace_setIsolated (t : Spaces) (id : String) (isolated : Bool) (x : String) :
    (setIsolated t id isolated).active_space x =
      (t.active_space x).map fun r => if x = id then { r with isolated } else r := by
  simp only [Spaces.active_space, setIsolated, List.find?_map]
  have hsame : ((fun s : ProjectSpace => decide (s.id = x) && s.active) ∘ fun s =>
      if (decide (s.id = id) && s.active) = true then { s with isolated } else s) =
      fun s => decide (s.id = x) && s.active := by
    funext r
    simp only [Function.comp_apply]
    split <;> rfl
  rw [hsame]
  cases hfind : t.spaces.find? fun s => decide (s.id = x) && s.active with
  | none => rfl
  | some r =>
    have hr := List.find?_some hfind
    simp only [Bool.and_eq_true, decide_eq_true_eq] at hr
    obtain ⟨rfl, hactive⟩ := hr
    simp [hactive]

theorem isIsolated_setIsolated (t : Spaces) (id : String) (isolated : Bool) (x : String) :
    (setIsolated t id isolated).is_isolated x =
      if x = id ∧ (t.active_space x).isSome = true then isolated else t.is_isolated x := by
  rw [Spaces.is_isolated, activeSpace_setIsolated, Spaces.is_isolated]
  cases t.active_space x with
  | none => simp
  | some r =>
    by_cases hx : x = id
    · simp [hx]
    · simp [hx]

/-! ## What single statements do -/

namespace State

@[simp] theorem goOn_tables (i : Nat) (task : Task) : (s.goOn i task).tables = s.tables := rfl
@[simp] theorem goOn_torn (i : Nat) (task : Task) : (s.goOn i task).torn = s.torn := rfl
@[simp] theorem finish_tables (i : Nat) : (s.finish i).tables = s.tables := rfl
@[simp] theorem finish_torn (i : Nat) : (s.finish i).torn = s.torn := rfl

@[simp] theorem abort_tables (i : Nat) : (s.abort i).tables = s.tables := by
  unfold abort
  split <;> rfl

/-- An error tears a request exactly when it has changed the tags. -/
theorem abort_torn (h : s.torn = []) (i : Nat) : (s.abort i).torn = [] ↔ ¬ s.Dirty i := by
  unfold abort Dirty
  split
  · rename_i r tag rest htask
    simp [h, htask]
  · rename_i r htask
    simp [h, htask]
  · rename_i hinsert hrefresh
    rw [finish_torn, h]
    refine iff_of_true rfl ?_
    rintro ⟨r, htask | ⟨tag, rest, htask⟩⟩
    · exact hrefresh r htask
    · exact hinsert r tag rest htask

/-- A statement that writes nothing keeps the tags apart. -/
theorem Exclusive.of_tables {s' : State} (h : s.Exclusive) (htables : s'.tables = s.tables) :
    s'.Exclusive := by
  unfold Exclusive
  rw [htables]
  exact h

theorem exclusive_insert (h : s.Exclusive) (r : TagsRequest) (tag : String) (tasks : List Task)
    (torn : List TagsRequest) :
    (State.mk (Spaces.withTags s.tables (s.tables.tags ++ [r.row tag])) tasks torn).Exclusive ↔
      s.Free r tag := by
  have hnew : r.row tag ∈ s.tables.tags ++ [r.row tag] := by simp
  constructor
  · intro hafter row hrow hcode htag hisolated
    have hold : row ∈ s.tables.tags ++ [r.row tag] := List.mem_append_left _ hrow
    obtain hiso | hiso := hisolated
    · exact hafter _ hnew hiso row hold hcode htag
    · exact (hafter row hold hiso _ hnew hcode.symm htag.symm).symm
  · intro hfree row hrow hiso row' hrow' hcode htag
    obtain hold | hrow := List.mem_append.mp hrow <;> obtain hold' | hrow' := List.mem_append.mp hrow'
    · exact h row hold hiso row' hold' hcode htag
    · cases List.mem_singleton.mp hrow'
      exact (hfree row hold hcode.symm htag.symm (.inr hiso)).symm
    · cases List.mem_singleton.mp hrow
      exact hfree row' hold' hcode htag (.inl hiso)
    · rw [List.mem_singleton.mp hrow, List.mem_singleton.mp hrow']

theorem exclusive_setIsolated (h : s.Exclusive) (id : String) (isolated : Bool) (tasks : List Task)
    (torn : List TagsRequest) :
    (State.mk (setIsolated s.tables id isolated) tasks torn).Exclusive ↔
      (isolated = true → (s.tables.active_space id).isSome = true → s.Own id) := by
  constructor
  · rintro hafter rfl hactive row hrow rfl row' hrow' hcode htag
    refine hafter row hrow ?_ row' hrow' hcode htag
    rw [isIsolated_setIsolated, if_pos ⟨rfl, hactive⟩]
  · intro hown row hrow hiso row' hrow' hcode htag
    rw [isIsolated_setIsolated] at hiso
    split at hiso
    · rename_i hid
      obtain ⟨rfl, hactive⟩ := hid
      exact hown hiso hactive row hrow rfl row' hrow' hcode htag
    · exact h row hrow hiso row' hrow' hcode htag

/-- The tags are apart, and no request was torn. -/
def Kept (s : State) : Prop := s.Exclusive ∧ s.torn = []

theorem Kept.of_same {s' : State} (h : s.Kept) (htables : s'.tables = s.tables)
    (htorn : s'.torn = s.torn) : s'.Kept :=
  ⟨h.1.of_tables htables, htorn.trans h.2⟩

theorem kept_abort (h : s.Kept) (i : Nat) : (s.abort i).Kept ↔ ¬ s.Dirty i := by
  rw [← abort_torn h.2]
  exact ⟨fun hafter => hafter.2, fun htorn => ⟨h.1.of_tables (s.abort_tables i), htorn⟩⟩

/-- The two parts of the guard, for the statement at hand. -/
theorem guarded_advance {i : Nat} {task : Task} (htask : s.tasks[i]? = some task) :
    s.Guarded (.advance i) ↔
      (∀ r tag rest dirty, task = .insert r tag rest dirty →
        if r.row tag ∈ s.tables.tags then dirty = false else s.Free r tag) ∧
      ∀ id, task = .set_isolated id true → (s.tables.active_space id).isSome = true → s.Own id := by
  simp only [Guarded, htask, Option.some.injEq]

/-- **One statement** keeps the tags apart and tears no request exactly when its guard holds. -/
theorem kept_step (h : s.Kept) (e : Event) : (s.step e).Kept ↔ s.Guarded e := by
  cases e with
  | request r => exact iff_of_true (h.of_same rfl rfl) trivial
  | fail i => exact kept_abort h i
  | advance i =>
    simp only [step, advance]
    cases htask : s.tasks[i]? with
    | none => exact iff_of_true h ⟨by simp [htask], by simp [htask]⟩
    | some task =>
      rw [guarded_advance htask]
      -- what is not an insertion and isolates nothing has no guard
      have hquiet : (∀ r tag rest dirty, task ≠ .insert r tag rest dirty) →
          (∀ id, task ≠ .set_isolated id true) → ∀ {s' : State}, s'.Kept →
          (s'.Kept ↔ (∀ r tag rest dirty, task = .insert r tag rest dirty →
            if r.row tag ∈ s.tables.tags then dirty = false else s.Free r tag) ∧
            ∀ id, task = .set_isolated id true → (s.tables.active_space id).isSome = true →
              s.Own id) := by
        intro hinsert hisolate s' hs'
        refine iff_of_true hs' ⟨fun r tag rest dirty heq => ?_, fun id heq => ?_⟩
        · exact absurd heq (hinsert r tag rest dirty)
        · exact absurd heq (hisolate id)
      have hclean : (∀ r dirty, task ≠ .refresh r dirty) →
          (∀ r tag rest dirty, task ≠ .insert r tag rest dirty) → (s.abort i).Kept := by
        intro hrefresh hinsert
        refine (kept_abort h i).mpr ?_
        rintro ⟨r, hr | ⟨tag, rest, hr⟩⟩
        · exact hrefresh r true (Option.some.inj (htask.symm.trans hr))
        · exact hinsert r tag rest true (Option.some.inj (htask.symm.trans hr))
      cases task with
      | create id parent_id =>
        refine hquiet (by simp) (by simp) ?_
        dsimp only
        split
        · rename_i tables htables
          refine ⟨fun row hrow hiso row' hrow' => ?_, h.2⟩
          simp only [finish_tables, tags_addSpace htables, isIsolated_addSpace htables] at hrow hiso hrow'
          exact h.1 row hrow hiso row' hrow'
        · exact hclean (by simp) (by simp)
      | set_isolated id isolated =>
        have hiff := exclusive_setIsolated h.1 id isolated (s.tasks.eraseIdx i) s.torn
        refine (and_iff_left h.2).trans (hiff.trans ?_)
        constructor
        · rintro hown
          refine ⟨by simp, fun id' heq hactive => ?_⟩
          cases heq
          exact hown rfl hactive
        · rintro ⟨-, hown⟩ rfl
          exact hown id rfl
      | exists_space r =>
        refine hquiet (by simp) (by simp) ?_
        dsimp only
        split
        · exact hclean (by simp) (by simp)
        · exact h.of_same rfl rfl
      | is_isolated r =>
        refine hquiet (by simp) (by simp) ?_
        dsimp only
        split
        · exact h.of_same rfl rfl
        · exact h.of_same rfl rfl
      | unused r tag rest =>
        refine hquiet (by simp) (by simp) ?_
        dsimp only
        split
        · exact hclean (by simp) (by simp)
        · split <;> exact h.of_same rfl rfl
      | not_owned r tag rest =>
        refine hquiet (by simp) (by simp) ?_
        dsimp only
        split
        · exact hclean (by simp) (by simp)
        · split <;> exact h.of_same rfl rfl
      | delete r =>
        refine hquiet (by simp) (by simp) ⟨fun row hrow hiso row' hrow' => ?_, h.2⟩
        exact h.1 row (List.mem_of_mem_filter hrow) hiso row' (List.mem_of_mem_filter hrow')
      | insert r tag rest dirty =>
        have hguard : ((∀ r' tag' rest' dirty', Task.insert r tag rest dirty = .insert r' tag' rest' dirty' →
              if r'.row tag' ∈ s.tables.tags then dirty' = false else s.Free r' tag') ∧
            ∀ id, Task.insert r tag rest dirty = .set_isolated id true →
              (s.tables.active_space id).isSome = true → s.Own id) ↔
            if r.row tag ∈ s.tables.tags then dirty = false else s.Free r tag := by
          constructor
          · rintro ⟨hinsert, -⟩
            exact hinsert r tag rest dirty rfl
          · refine fun hinsert => ⟨fun r' tag' rest' dirty' heq => ?_, by simp⟩
            cases heq
            exact hinsert
        rw [hguard]
        dsimp only
        by_cases hthere : r.row tag ∈ s.tables.tags
        · rw [if_pos hthere, if_pos hthere, kept_abort h]
          simp [Dirty, htask]
        · rw [if_neg hthere, if_neg hthere]
          exact (and_iff_left h.2).trans (exclusive_insert h.1 r tag _ s.torn)
      | refresh r dirty =>
        exact hquiet (by simp) (by simp) (h.of_same rfl rfl)

/-- The store before any request. -/
def empty : State := ⟨⟨[], [], List.nodup_nil⟩, [], []⟩

end State

/-- **Service tags stay isolated**, and a request that ends in an error has changed none, in every
state a run reaches exactly when the guard holds of each of its statements. -/
theorem service_tags_isolated_iff (es : List Event) :
    (∀ past, past <+: es → (run State.step State.empty past).Exclusive ∧
      (run State.step State.empty past).torn = []) ↔
      Along State.step State.Guarded State.empty es := by
  have hempty : State.empty.Exclusive := by
    intro row hrow
    cases hrow
  exact Along.iff_invariant State.Kept (fun _ e hs => State.kept_step hs e) ⟨hempty, rfl⟩ es

section Runs

/-- A request that runs alone, with so many statements. -/
def alone (r : Request) (statements : Nat) : List Event :=
  .request r :: List.replicate statements (.advance 0)

/-- Two spaces, the first of which has the tag blue. -/
def blueFirst : List Event :=
  alone (.create "ps-1" none) 1 ++ alone (.create "ps-2" none) 1 ++
    alone (.set_service_tags "ps-1" "psm" (some ["blue"])) 6

instance (s : State) : Decidable s.Exclusive :=
  inferInstanceAs (Decidable (∀ row ∈ s.tables.tags,
    s.tables.is_isolated row.project_space_id = true → ∀ row' ∈ s.tables.tags,
      row'.service_code = row.service_code → row'.tag_value = row.tag_value →
        row'.project_space_id = row.project_space_id))

/-- The second space is isolated and asks for the tag with a blank; the first space is isolated
after the second has the tag as well; a request with the same tag twice, one of them with a blank,
ends in an error and leaves one row. -/
theorem service_tags_shared :
    ¬ (run State.step State.empty (blueFirst ++ alone (.set_isolated "ps-2" true) 1 ++
        alone (.set_service_tags "ps-2" "psm" (some ["blue "])) 7)).Exclusive ∧
      ¬ (run State.step State.empty (blueFirst ++
        alone (.set_service_tags "ps-2" "psm" (some ["blue"])) 6 ++
        alone (.set_isolated "ps-1" true) 1)).Exclusive ∧
      (let s := run State.step State.empty (alone (.create "ps-1" none) 1 ++
        alone (.set_service_tags "ps-1" "psm" (some ["blue", "blue "])) 7)
      s.tasks = [] ∧ s.torn ≠ [] ∧ s.tables.tags = [⟨"ps-1", "psm", "blue"⟩]) := by
  decide

end Runs

end PlmCore.Pno.TagIsolation
