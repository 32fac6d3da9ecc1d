/-
When the stored files live exactly as long as they are referenced.

A run is orderly when no upload is left with a blob and no row (by a failure, or by an INSERT
that finds a row of its key), when no blob outlives its row by a failed `s3.delete`, when no
count outlives its request, and when an unreference finds the count on the side of one it had
read it on. In an orderly run the counts, the rows and the blobs are right in every state.
-/
import Mathlib.Data.List.Nodup
import Mathlib.Data.List.Perm.Basic
import PlmCore.Dst.DataService

set_option autoImplicit false

namespace PlmCore.Dst.DataService

open PlmCore.Lib

/-! ## Orderly runs -/

/-- The step of a task does not leave a blob without a row, a count without a reference or a
reference without a row. -/
def State.orderly (s : State) (ok : Bool) : Task → Prop
  | .select .. | .discard .. | .enqueueCreated .. | .commitInsert .. => ok = true
  | .insert _ key => ok = true ∧ (s.insertWaits key = true ∨ s.selectByKey key = none)
  | .reload id _ true => ok = true ∨ rowOf s.rows id = none
  | .decrement id =>
    ok = true → s.locked id = true ∨ ∃ r, rowOf s.rows id = some r ∧ 2 ≤ r.ref_count
  | .deleteRow true id _ =>
    ok = true → s.locked id = true ∨ ∃ r, rowOf s.rows id = some r ∧ r.ref_count ≤ 1
  | .deleteBlob _ _ location _ => ok = true ∨ location ∉ s.blobs
  | _ => True

def Orderly (s : State) : Event → Prop
  | .call _ => True
  | .step i ok => ∀ t, s.tasks[i]? = some t → s.orderly ok t

/-! ## The tables -/

theorem rowOf_addRefs (rows : List DataObject) (id n : Uuid) (d : Int) :
    rowOf (addRefs rows id d) n =
      (rowOf rows n).map fun r => if n = id then { r with ref_count := r.ref_count + d } else r := by
  induction rows with
  | nil => rfl
  | cons r rows ih =>
    unfold rowOf addRefs at ih ⊢
    by_cases hn : r.id = n
    · by_cases hid : r.id = id
      · have hid' : n = id := by rw [← hn, hid]
        simp [hn, hid']
      · have hid' : ¬ n = id := by rw [← hn]; exact hid
        simp [hn, hid']
    · by_cases hid : r.id = id
      · have hid' : ¬ id = n := by rw [← hid]; exact hn
        simp [hid, hid', ih]
      · simp [hid, hn, ih]

theorem rowOf_deleteById (rows : List DataObject) (id n : Uuid) :
    rowOf (deleteById rows id) n = if n = id then none else rowOf rows n := by
  unfold rowOf deleteById
  rw [List.find?_filter]
  by_cases h : n = id
  · rw [if_pos h, List.find?_eq_none]
    intro r _
    simp [h]
  · rw [if_neg h]
    congr 1
    funext r
    by_cases hr : r.id = n
    · simp [hr, h]
    · simp [hr]

theorem rowOf_append (rows : List DataObject) (r : DataObject) (n : Uuid) :
    rowOf (rows ++ [r]) n = (rowOf rows n).or (if r.id = n then some r else none) := by
  unfold rowOf
  rw [List.find?_append]
  by_cases h : r.id = n <;> simp [h]

theorem id_of_rowOf {rows : List DataObject} {n : Uuid} {r : DataObject}
    (h : rowOf rows n = some r) : r.id = n := by
  simpa using List.find?_some h

theorem rowOf_ne_none {rows : List DataObject} {r : DataObject} (h : r ∈ rows) :
    rowOf rows r.id ≠ none := by
  intro hnone
  simpa using List.find?_eq_none.mp hnone r h

/-! ## The tasks of a file -/

/-- An upload whose blob is under the id. -/
@[simp] def Task.owns (n : Uuid) : Task → Bool
  | .select id _ | .discard id _ _ | .insert id _ | .enqueueCreated id _ | .commitInsert id _ =>
    id = n
  | _ => false

/-- A task for a row it has seen in the project space. -/
@[simp] def Task.aims (ps : String) (n : Uuid) : Task → Bool
  | .discard _ eid ps' | .count eid ps' | .commitCount eid ps' _ | .update eid ps'
  | .reload eid ps' _ => eid = n && ps' = ps
  | _ => false

/-- A task that deletes a row it has seen. -/
@[simp] def Task.removes (n : Uuid) : Task → Bool
  | .deleteRow _ id _ | .enqueueDeleted _ id _ _ | .commitDelete _ id _ _
  | .deleteBlob _ id _ _ => id = n
  | _ => false

/-- An unreference that has not taken effect. -/
@[simp] def Task.owes (n : Uuid) : Task → Bool
  | .load .unreference id _ | .decrement id | .deleteRow true id _ | .enqueueDeleted true id _ _
  | .commitDelete true id _ _ => id = n
  | _ => false

/-- An unreference whose transaction deletes the row. -/
@[simp] def Task.collects (n : Uuid) : Task → Bool
  | .enqueueDeleted true id _ _ | .commitDelete true id _ _ => id = n
  | _ => false

/-- A task that has found the row gone, or has deleted it. -/
@[simp] def Task.outlives (n : Uuid) : Task → Bool
  | .commitCount id _ false | .reload id _ false | .enqueueDeleted _ id _ false
  | .commitDelete _ id _ false | .deleteBlob _ id _ _ => id = n
  | _ => false

@[simp] def Task.cleans (n : Uuid) : Task → Bool
  | .deleteBlob _ id _ _ => id = n
  | _ => false

/-- An unreference that has deleted the row. -/
@[simp] def Task.collected (n : Uuid) : Task → Bool
  | .deleteBlob true id _ _ => id = n
  | _ => false

/-- An unreference whose DELETE missed, or a task with a location that is not the row's. -/
@[simp] def Task.strays (n : Uuid) : Task → Bool
  | .deleteRow _ id location => id = n && location ≠ id
  | .enqueueDeleted gc id location hit | .commitDelete gc id location hit
  | .deleteBlob gc id location hit => id = n && (location ≠ id || gc && !hit)
  | _ => false

/-! ## The invariant -/

/-- How many tasks are such a task of the file. -/
def tally (tasks : List Task) (p : Uuid → Task → Bool) (n : Uuid) : Nat := tasks.countP (p n)

/-- What is right of the file under an id. -/
structure FileOk (s : State) (n : Uuid) : Prop where
  fresh : s.next ≤ n → rowOf s.rows n = none ∧ n ∉ s.blobs ∧ s.successes n = 0 ∧
    tally s.tasks Task.counted n = 0
  owned : 1 ≤ tally s.tasks Task.owns n → tally s.tasks Task.owns n = 1 ∧ n < s.next ∧
    rowOf s.rows n = none ∧ n ∈ s.blobs ∧ s.successes n = 0 ∧ tally s.tasks Task.counted n = 0
  row : ∀ r, rowOf s.rows n = some r → r.location = n ∧ n ∈ s.blobs ∧
    r.ref_count = s.references n ∧ 1 ≤ r.ref_count ∧
    (1 ≤ tally s.tasks Task.collects n → r.ref_count ≤ 1)
  blob : n ∈ s.blobs → rowOf s.rows n ≠ none ∨ 1 ≤ tally s.tasks Task.owns n ∨
    1 ≤ tally s.tasks Task.cleans n
  aimed : ∀ ps, 1 ≤ tally s.tasks (Task.aims ps) n → n < s.next ∧ tally s.tasks Task.owns n = 0 ∧
    ∀ r, rowOf s.rows n = some r → r.key.project_space_id = ps
  removed : 1 ≤ tally s.tasks Task.removes n → n < s.next ∧ tally s.tasks Task.owns n = 0
  gone : 1 ≤ tally s.tasks Task.outlives n → n < s.next ∧ tally s.tasks Task.owns n = 0 ∧
    rowOf s.rows n = none
  collected : 1 ≤ tally s.tasks Task.collected n → s.successes n = s.unreferenced n ∧
    tally s.tasks Task.counted n = 0
  locked : tally s.tasks Task.locks n ≤ 1 ∧
    (1 ≤ tally s.tasks Task.locks n → rowOf s.rows n ≠ none)
  promised : s.unreferenced n + tally s.tasks Task.owes n ≤ s.calls n ∧
    s.calls n ≤ s.successes n
  straight : tally s.tasks Task.strays n = 0

theorem tally_cons (t : Task) (tasks : List Task) (p : Uuid → Task → Bool) (n : Uuid) :
    tally (t :: tasks) p n = tally tasks p n + (p n t).toNat := by
  rw [tally, List.countP_cons]
  cases p n t <;> rfl

theorem tally_perm {tasks tasks' : List Task} (hp : tasks.Perm tasks') (p : Uuid → Task → Bool)
    (n : Uuid) : tally tasks p n = tally tasks' p n := hp.countP_eq (p n)

/-- The order of the tasks does not matter. -/
theorem FileOk.perm {s : State} {n : Uuid} {tasks : List Task} (hp : s.tasks.Perm tasks)
    (h : FileOk s n) : FileOk { s with tasks := tasks } n := by
  have ht : ∀ p, tally tasks p n = tally s.tasks p n := fun p => (tally_perm hp p n).symm
  have href : State.references { s with tasks := tasks } n = s.references n := by
    rw [State.references, State.references, hp.countP_eq]
  obtain ⟨fresh, owned, row, blob, aimed, removed, gone, collected, locked, promised, straight⟩ := h
  constructor <;> simp only [ht, href]
  · exact fresh
  · exact owned
  · exact row
  · exact blob
  · exact aimed
  · exact removed
  · exact gone
  · exact collected
  · exact locked
  · exact promised
  · exact straight

/-- One task moves on to another that counts the same. -/
theorem tally_set {tasks : List Task} {i : Nat} {t t' : Task} (hi : tasks[i]? = some t)
    {p : Uuid → Task → Bool} {n : Uuid} (h : p n t' = p n t) :
    tally (tasks.set i t') p n = tally tasks p n := by
  obtain ⟨hlt, hget⟩ := List.getElem?_eq_some_iff.mp hi
  rw [tally_perm (List.set_perm_cons_eraseIdx hlt t'),
    tally_perm (List.getElem_cons_eraseIdx_perm hlt).symm, hget, tally_cons, tally_cons, h]

/-- One task moves on: the others stand beside it, before and after. -/
theorem FileOk.moved {s s' : State} {i : Nat} {t t' : Task} {n : Uuid}
    (hi : s.tasks[i]? = some t) (hs' : s'.tasks = s.tasks.set i t') (h : FileOk s n)
    (key : ∀ rest, s.tasks.Perm (t :: rest) → FileOk { s with tasks := t :: rest } n →
      FileOk { s' with tasks := t' :: rest } n) : FileOk s' n := by
  obtain ⟨hlt, hget⟩ := List.getElem?_eq_some_iff.mp hi
  have hbefore : s.tasks.Perm (t :: s.tasks.eraseIdx i) := by
    rw [← hget]
    exact (List.getElem_cons_eraseIdx_perm hlt).symm
  have hafter : s'.tasks.Perm (t' :: s.tasks.eraseIdx i) := by
    rw [hs']
    exact List.set_perm_cons_eraseIdx hlt t'
  exact FileOk.perm (s := { s' with tasks := t' :: s.tasks.eraseIdx i }) hafter.symm
    (key _ hbefore (h.perm hbefore))

theorem references_eq (s : State) (n : Uuid) :
    s.references n = s.successes n - s.unreferenced n + tally s.tasks Task.counted n := rfl

/-- The two tasks are the same to the file. -/
def Alike (n : Uuid) (t t' : Task) : Prop :=
  t.owns n = t'.owns n ∧ (∀ ps, t.aims ps n = t'.aims ps n) ∧ t.removes n = t'.removes n ∧
    t.owes n = t'.owes n ∧ t.collects n = t'.collects n ∧ t.outlives n = t'.outlives n ∧
    t.cleans n = t'.cleans n ∧ t.collected n = t'.collected n ∧ t.strays n = t'.strays n ∧
    t.locks n = t'.locks n ∧ t.counted n = t'.counted n

/-- A step that is about other files. -/
theorem FileOk.elsewhere {s s' : State} {i : Nat} {t t' : Task} {n : Uuid}
    (hi : s.tasks[i]? = some t) (hs' : s'.tasks = s.tasks.set i t') (h : FileOk s n)
    (ht : Alike n t t') (hnext : s.next ≤ s'.next) (hrow : rowOf s'.rows n = rowOf s.rows n)
    (hblob : n ∈ s'.blobs ↔ n ∈ s.blobs) (hsuccesses : s'.successes n = s.successes n)
    (hunreferenced : s'.unreferenced n = s.unreferenced n) (hcalls : s'.calls n = s.calls n) :
    FileOk s' n := by
  apply h.moved hi hs'
  rintro rest - ⟨fresh, owned, row, blob, aimed, removed, gone, collected, locked, promised, straight⟩
  obtain ⟨h1, h2, h3, h4, h5, h6, h7, h8, h9, h10, h11⟩ := ht
  simp only [references_eq, tally_cons, h1, h2, h3, h4, h5, h6, h7, h8, h9, h10, h11] at *
  constructor <;>
    simp only [references_eq, tally_cons, hrow, hblob, hsuccesses, hunreferenced, hcalls]
  · exact fun hle => fresh (Nat.le_trans hnext hle)
  · intro hown
    obtain ⟨hone, hlt, hrest⟩ := owned hown
    exact ⟨hone, Nat.lt_of_lt_of_le hlt hnext, hrest⟩
  · exact row
  · exact blob
  · intro ps haim
    obtain ⟨hlt, hrest⟩ := aimed ps haim
    exact ⟨Nat.lt_of_lt_of_le hlt hnext, hrest⟩
  · intro hrem
    obtain ⟨hlt, hrest⟩ := removed hrem
    exact ⟨Nat.lt_of_lt_of_le hlt hnext, hrest⟩
  · intro hgone
    obtain ⟨hlt, hrest⟩ := gone hgone
    exact ⟨Nat.lt_of_lt_of_le hlt hnext, hrest⟩
  · exact collected
  · exact locked
  · exact promised
  · exact straight

/-! ## One step -/

attribute [local simp] Task.locks Task.counted tally_cons references_eq

theorem tally_le {p q : Uuid → Task → Bool} {n : Uuid} (h : ∀ t, p n t = true → q n t = true)
    (tasks : List Task) : tally tasks p n ≤ tally tasks q n :=
  List.countP_mono_left fun t _ => h t

/-- An unreference that deletes keeps the row locked. -/
theorem collects_le (tasks : List Task) (n : Uuid) :
    tally tasks Task.collects n ≤ tally tasks Task.locks n + tally tasks Task.strays n := by
  induction tasks with
  | nil => exact Nat.le_refl _
  | cons t tasks ih =>
    have ht : (t.collects n).toNat ≤ (t.locks n).toNat + (t.strays n).toNat := by
      unfold Task.collects
      split
      · rename_i hit
        cases hit <;> simp
      · rename_i hit
        cases hit <;> simp
      · exact Nat.zero_le _
    rw [tally_cons, tally_cons, tally_cons]
    omega

/-- An unreference that has deleted the row outlives it. -/
theorem collected_le (tasks : List Task) (n : Uuid) :
    tally tasks Task.collected n ≤ tally tasks Task.outlives n := by
  apply tally_le
  intro t h
  unfold Task.collected at h
  split at h
  · exact h
  · exact absurd h Bool.false_ne_true

section Steps

variable {s : State} {i : Nat}

theorem store_ok {key : Key} (hi : s.tasks[i]? = some (.store key)) (h : ∀ n, FileOk s n) (n : Uuid) :
    FileOk (s.succeed i (.store key)) n := by
  by_cases hid : n = s.next
  · apply (h n).moved hi rfl
    subst hid
    rintro rest - ⟨fresh, owned, row, blob, aimed, removed, gone, collected, locked, promised, straight⟩
    simp at *
    constructor <;> simp [State.succeed, State.move]
    all_goals grind
  · refine (h n).elsewhere hi rfl ?_ (Nat.le_succ _) rfl ?_ rfl rfl rfl
    · simp [Alike, Ne.symm hid]
    · simp [State.succeed, hid]

theorem select_found_ok {id : Uuid} {key : Key} {r : DataObject}
    (hi : s.tasks[i]? = some (.select id key)) (hr : rowOf s.rows r.id = some r) (hkey : r.key = key)
    (h : ∀ n, FileOk s n) (n : Uuid) :
    FileOk (s.move i (.discard id r.id key.project_space_id)) n := by
  by_cases hid : n = r.id
  · apply (h n).moved hi rfl
    rintro rest - ⟨fresh, owned, row, blob, aimed, removed, gone, collected, locked, promised, straight⟩
    subst hid
    simp at *
    constructor <;> simp [State.move]
    all_goals grind
  · refine (h n).elsewhere hi rfl ?_ (Nat.le_refl _) rfl Iff.rfl rfl rfl rfl
    simp [Alike, Ne.symm hid]

theorem discard_ok {id eid : Uuid} {ps : String} (hi : s.tasks[i]? = some (.discard id eid ps))
    (h : ∀ n, FileOk s n) (n : Uuid) : FileOk (s.succeed i (.discard id eid ps)) n := by
  by_cases hid : n = id
  · apply (h n).moved hi rfl
    rintro rest - ⟨fresh, owned, row, blob, aimed, removed, gone, collected, locked, promised, straight⟩
    subst hid
    simp at *
    constructor <;> simp [State.succeed, State.move]
    all_goals grind
  · refine (h n).elsewhere hi rfl ?_ (Nat.le_refl _) rfl ?_ rfl rfl rfl
    · simp [Alike, Ne.symm hid]
    · simp [State.succeed, hid]

theorem tally_locks {id : Uuid} (h : s.locked id = false) : tally s.tasks Task.locks id = 0 := by
  unfold State.locked at h
  rw [List.any_eq_false] at h
  rw [tally, List.countP_eq_zero]
  exact h

theorem count_ok {eid : Uuid} {ps : String} {hit : Bool} (hi : s.tasks[i]? = some (.count eid ps))
    (hfree : s.locked eid = false) (hhit : (rowOf s.rows eid).isSome = hit)
    (h : ∀ n, FileOk s n) (n : Uuid) : FileOk (s.move i (.commitCount eid ps hit)) n := by
  by_cases hid : n = eid
  · apply (h n).moved hi rfl
    subst hid
    rintro rest hp ⟨fresh, owned, row, blob, aimed, removed, gone, collected, locked, promised, straight⟩
    obtain ⟨hlt, hown, hps⟩ := aimed ps (by simp)
    have hl := tally_locks hfree
    rw [tally_perm hp] at hl
    cases hit <;> simp at * <;> constructor <;> simp [State.move] <;> grind
  · refine (h n).elsewhere hi rfl ?_ (Nat.le_refl _) rfl Iff.rfl rfl rfl rfl
    cases hit <;> simp [Alike, Ne.symm hid]

theorem commitCount_ok {eid : Uuid} {ps : String} {hit : Bool}
    (hi : s.tasks[i]? = some (.commitCount eid ps hit)) (h : ∀ n, FileOk s n) (n : Uuid) :
    FileOk (s.succeed i (.commitCount eid ps hit)) n := by
  by_cases hid : n = eid
  · apply (h n).moved hi rfl
    subst hid
    rintro rest hp ⟨fresh, owned, row, blob, aimed, removed, gone, collected, locked, promised, straight⟩
    obtain ⟨hlt, hown, hps⟩ := aimed ps (by simp)
    have hc := collects_le rest n
    have hd := collected_le rest n
    cases hit <;> simp at * <;>
    constructor <;> simp [State.succeed, State.move, rowOf_addRefs] <;> grind
  · refine (h n).elsewhere hi rfl ?_ (Nat.le_refl _) ?_ Iff.rfl rfl rfl rfl
    · cases hit <;> simp [Alike, Ne.symm hid]
    · cases hit <;> simp [State.succeed, rowOf_addRefs, hid]

theorem commitInsert_ok {id : Uuid} {key : Key} (hi : s.tasks[i]? = some (.commitInsert id key))
    (h : ∀ n, FileOk s n) (n : Uuid) : FileOk (s.succeed i (.commitInsert id key)) n := by
  by_cases hid : n = id
  · apply (h n).moved hi rfl
    subst hid
    rintro rest - ⟨fresh, owned, row, blob, aimed, removed, gone, collected, locked, promised, straight⟩
    have hc := collects_le rest n
    have hd := collected_le rest n
    simp at *
    constructor <;> simp [State.succeed, State.report, State.move, rowOf_append, bump] <;> grind
  · refine (h n).elsewhere hi rfl ?_ (Nat.le_refl _) ?_ Iff.rfl ?_ rfl rfl
    · simp [Alike, Ne.symm hid]
    · simp [State.succeed, rowOf_append, Ne.symm hid]
    · simp [State.succeed, bump, hid]

/-- A task that returns with nothing left to do. -/
theorem returned_ok (s' : State) {t : Task} (hi : s.tasks[i]? = some t)
    (hs' : s'.tasks = s.tasks.set i .returned) (hnext : s'.next = s.next) (hrows : s'.rows = s.rows)
    (hblobs : s'.blobs = s.blobs) (hsuccesses : s'.successes = s.successes)
    (hunreferenced : s'.unreferenced = s.unreferenced) (hcalls : s'.calls = s.calls)
    {n : Uuid} (howns : t.owns n = false) (hcleans : t.cleans n = true → n ∉ s.blobs)
    (hcounted : t.counted n = true → rowOf s.rows n = none) (h : FileOk s n) : FileOk s' n := by
  apply h.moved hi hs'
  rintro rest - ⟨fresh, owned, row, blob, aimed, removed, gone, collected, locked, promised, straight⟩
  simp only [tally_cons, references_eq, howns, Bool.toNat_false, Nat.add_zero] at *
  cases hcl : t.cleans n <;> cases hco : t.counted n <;>
    simp only [hcl, hco, Bool.toNat_false, Bool.toNat_true, Nat.add_zero] at * <;>
    constructor <;> simp [hnext, hrows, hblobs, hsuccesses, hunreferenced, hcalls] <;> grind

/-- The load of a request that goes on with the row it has found. -/
theorem load_reference_ok {id : Uuid} {r : DataObject}
    (hi : s.tasks[i]? = some (.load .reference id r.key.project_space_id))
    (hrow : rowOf s.rows id = some r) (h : ∀ n, FileOk s n) (n : Uuid) :
    FileOk (s.move i (.update id r.key.project_space_id)) n := by
  by_cases hid : n = id
  · apply (h n).moved hi rfl
    subst hid
    rintro rest - ⟨fresh, owned, row, blob, aimed, removed, gone, collected, locked, promised, straight⟩
    simp at *
    constructor <;> simp [State.move] <;> grind
  · refine (h n).elsewhere hi rfl ?_ (Nat.le_refl _) rfl Iff.rfl rfl rfl rfl
    simp [Alike, Ne.symm hid]

theorem load_unreference_ok {id : Uuid} {ps : String} {t : Task} {r : DataObject}
    (hi : s.tasks[i]? = some (.load .unreference id ps)) (hrow : rowOf s.rows id = some r)
    (ht : t = .decrement id ∨ t = .deleteRow true id r.location)
    (h : ∀ n, FileOk s n) (n : Uuid) : FileOk (s.move i t) n := by
  by_cases hid : n = id
  · apply (h n).moved hi rfl
    subst hid
    rintro rest - ⟨fresh, owned, row, blob, aimed, removed, gone, collected, locked, promised, straight⟩
    obtain ⟨hloc, hrest⟩ := row r hrow
    obtain rfl | rfl := ht
    · simp at *
      constructor <;> simp [State.move] <;> grind
    · simp at *
      constructor <;> simp [State.move] <;> grind
  · refine (h n).elsewhere hi rfl ?_ (Nat.le_refl _) rfl Iff.rfl rfl rfl rfl
    obtain rfl | rfl := ht <;> simp [Alike, Ne.symm hid]

theorem load_delete_ok {id : Uuid} {ps : String} {r : DataObject}
    (hi : s.tasks[i]? = some (.load .delete id ps)) (hrow : rowOf s.rows id = some r)
    (h : ∀ n, FileOk s n) (n : Uuid) : FileOk (s.move i (.deleteRow false id r.location)) n := by
  by_cases hid : n = id
  · apply (h n).moved hi rfl
    subst hid
    rintro rest - ⟨fresh, owned, row, blob, aimed, removed, gone, collected, locked, promised, straight⟩
    obtain ⟨hloc, hrest⟩ := row r hrow
    simp at *
    constructor <;> simp [State.move] <;> grind
  · refine (h n).elsewhere hi rfl ?_ (Nat.le_refl _) rfl Iff.rfl rfl rfl rfl
    simp [Alike, Ne.symm hid]

theorem update_ok {id : Uuid} {ps : String} {hit : Bool} (hi : s.tasks[i]? = some (.update id ps))
    (hfree : s.locked id = false) (hhit : (rowOf s.rows id).isSome = hit)
    (h : ∀ n, FileOk s n) (n : Uuid) :
    FileOk { s.move i (.reload id ps hit) with rows := addRefs s.rows id 1 } n := by
  by_cases hid : n = id
  · apply (h n).moved hi rfl
    subst hid
    rintro rest hp ⟨fresh, owned, row, blob, aimed, removed, gone, collected, locked, promised, straight⟩
    obtain ⟨hlt, hown, hps⟩ := aimed ps (by simp)
    have hl := tally_locks hfree
    rw [tally_perm hp] at hl
    have hc := collects_le rest n
    have hd := collected_le rest n
    cases hit <;> simp at * <;> constructor <;> simp [State.move, rowOf_addRefs] <;> grind
  · refine (h n).elsewhere hi rfl ?_ (Nat.le_refl _) ?_ Iff.rfl rfl rfl rfl
    · cases hit <;> simp [Alike, Ne.symm hid]
    · simp [rowOf_addRefs, hid]

theorem reload_ok {id : Uuid} {ps : String} {r : DataObject}
    (hi : s.tasks[i]? = some (.reload id ps true)) (hrow : rowOf s.rows id = some r)
    (h : ∀ n, FileOk s n) (n : Uuid) :
    FileOk { s.report i true with successes := bump s.successes id } n := by
  by_cases hid : n = id
  · apply (h n).moved hi rfl
    subst hid
    rintro rest - ⟨fresh, owned, row, blob, aimed, removed, gone, collected, locked, promised, straight⟩
    have hd := collected_le rest n
    obtain ⟨hlt, hown, hps⟩ := aimed ps (by simp)
    simp at *
    constructor <;> simp [State.report, State.move, bump] <;> grind
  · refine (h n).elsewhere hi rfl ?_ (Nat.le_refl _) rfl Iff.rfl ?_ rfl rfl
    · simp [Alike, Ne.symm hid]
    · simp [bump, hid]

theorem decrement_ok {id : Uuid} {r : DataObject} (hi : s.tasks[i]? = some (.decrement id))
    (hfree : s.locked id = false) (hrow : rowOf s.rows id = some r) (hr : 2 ≤ r.ref_count)
    (h : ∀ n, FileOk s n) (n : Uuid) :
    FileOk { s.report i true with
      rows := addRefs s.rows id (-1), unreferenced := bump s.unreferenced id } n := by
  by_cases hid : n = id
  · apply (h n).moved hi rfl
    subst hid
    rintro rest hp ⟨fresh, owned, row, blob, aimed, removed, gone, collected, locked, promised, straight⟩
    have hl := tally_locks hfree
    rw [tally_perm hp] at hl
    have hc := collects_le rest n
    have hd := collected_le rest n
    simp at *
    constructor <;> simp [State.report, State.move, rowOf_addRefs, bump] <;> grind
  · refine (h n).elsewhere hi rfl ?_ (Nat.le_refl _) ?_ Iff.rfl rfl ?_ rfl
    · simp [Alike, Ne.symm hid]
    · simp [rowOf_addRefs, hid]
    · simp [bump, hid]

theorem deleteRow_ok {gc : Bool} {id location : Uuid} {hit : Bool}
    (hi : s.tasks[i]? = some (.deleteRow gc id location)) (hfree : s.locked id = false)
    (hhit : (rowOf s.rows id).isSome = hit)
    (hgc : gc = true → ∃ r, rowOf s.rows id = some r ∧ r.ref_count ≤ 1)
    (h : ∀ n, FileOk s n) (n : Uuid) : FileOk (s.move i (.enqueueDeleted gc id location hit)) n := by
  by_cases hid : n = id
  · apply (h n).moved hi rfl
    subst hid
    rintro rest hp ⟨fresh, owned, row, blob, aimed, removed, gone, collected, locked, promised, straight⟩
    have hl := tally_locks hfree
    rw [tally_perm hp] at hl
    obtain ⟨hlt, hown⟩ := removed (by simp)
    cases gc <;> cases hit <;> simp at * <;> constructor <;> simp [State.move] <;> grind
  · refine (h n).elsewhere hi rfl ?_ (Nat.le_refl _) rfl Iff.rfl rfl rfl rfl
    cases gc <;> cases hit <;> simp [Alike, Ne.symm hid]

theorem commitDelete_ok {gc : Bool} {id location : Uuid} {hit : Bool}
    (hi : s.tasks[i]? = some (.commitDelete gc id location hit))
    (h : ∀ n, FileOk s n) (n : Uuid) : FileOk (s.succeed i (.commitDelete gc id location hit)) n := by
  by_cases hid : n = id
  · apply (h n).moved hi rfl
    subst hid
    rintro rest - ⟨fresh, owned, row, blob, aimed, removed, gone, collected, locked, promised, straight⟩
    have hd := collected_le rest n
    obtain ⟨hlt, hown⟩ := removed (by simp)
    cases hit with
    | false =>
      cases gc
      · simp at *
        constructor <;> simp [State.succeed, State.move] <;> grind
      · simp at *
    | true =>
      -- the row is still there, and counts only the reference that goes
      obtain ⟨r, hr⟩ := Option.ne_none_iff_exists'.mp (locked.2 (by simp))
      have hcount := row r hr
      cases gc <;> simp at * <;> constructor <;>
        simp [State.succeed, State.move, rowOf_deleteById, bump] <;> grind
  · refine (h n).elsewhere hi rfl ?_ (Nat.le_refl _) ?_ Iff.rfl rfl ?_ rfl
    · cases gc <;> cases hit <;> simp [Alike, Ne.symm hid]
    · cases hit <;> simp [State.succeed, rowOf_deleteById, hid]
    · cases gc <;> cases hit <;> simp [State.succeed, State.move, bump, hid]

theorem deleteBlob_ok {gc : Bool} {id : Uuid} {hit b : Bool}
    (hi : s.tasks[i]? = some (.deleteBlob gc id id hit)) (h : ∀ n, FileOk s n) (n : Uuid) :
    FileOk { s.report i b with blobs := s.blobs.filter (· ≠ id) } n := by
  by_cases hid : n = id
  · apply (h n).moved hi rfl
    subst hid
    rintro rest - ⟨fresh, owned, row, blob, aimed, removed, gone, collected, locked, promised, straight⟩
    obtain ⟨hlt, hown, hrow⟩ := gone (by simp)
    cases gc <;> simp at * <;> constructor <;> simp [State.report, State.move] <;> grind
  · refine (h n).elsewhere hi rfl ?_ (Nat.le_refl _) rfl ?_ rfl rfl rfl
    · cases gc <;> simp [Alike, Ne.symm hid]
    · simp [hid]

/-- Steps from one task to the next that neither store sees and that are alike to every file. -/
theorem move_ok {t t' : Task} (hi : s.tasks[i]? = some t) (ht : ∀ n, Alike n t t')
    (h : ∀ n, FileOk s n) (n : Uuid) : FileOk (s.move i t') n :=
  (h n).elsewhere hi rfl (ht n) (Nat.le_refl _) rfl Iff.rfl rfl rfl rfl

theorem call_ok {r : Request} (hp : Promised s (.call r)) (h : ∀ n, FileOk s n) (n : Uuid) :
    FileOk (step s (.call r)) n := by
  have hperm : (r.task :: s.tasks).Perm (s.tasks ++ [r.task]) :=
    (List.perm_append_singleton r.task s.tasks).symm
  apply FileOk.perm (s := { step s (.call r) with tasks := r.task :: s.tasks }) hperm
  obtain ⟨fresh, owned, row, blob, aimed, removed, gone, collected, locked, promised, straight⟩ := h n
  rw [references_eq] at row
  cases r with
  | upload key => constructor <;> simp [step, Request.task] <;> grind
  | on op id ps =>
    cases op with
    | reference => constructor <;> simp [step, Request.task] <;> grind
    | delete => constructor <;> simp [step, Request.task] <;> grind
    | unreference =>
      by_cases hid : n = id
      · subst hid
        have hp : s.calls n < s.successes n := hp
        constructor <;> simp [step, Request.task, bump] <;> grind
      · constructor <;> simp [step, Request.task, bump, hid, Ne.symm hid] <;> grind

theorem rowOf_of_mem {rows : List DataObject} (hnodup : (rows.map (·.id)).Nodup) {r : DataObject}
    (hr : r ∈ rows) : rowOf rows r.id = some r := by
  obtain ⟨r', hr'⟩ := Option.ne_none_iff_exists'.mp (rowOf_ne_none hr)
  have hmem : r' ∈ rows := List.mem_of_find?_eq_some hr'
  rw [hr', List.inj_on_of_nodup_map hnodup hmem hr (id_of_rowOf hr')]

/-- A task of the file is tallied. -/
theorem tally_pos {t : Task} (hi : s.tasks[i]? = some t) {p : Uuid → Task → Bool} {n : Uuid}
    (ht : p n t = true) : 1 ≤ tally s.tasks p n :=
  List.countP_pos_iff.mpr ⟨t, List.mem_of_getElem? hi, ht⟩

theorem location_eq {gc : Bool} {id location : Uuid} {hit : Bool}
    (hi : s.tasks[i]? = some (.deleteBlob gc id location hit)) (h : FileOk s id) :
    location = id := by
  by_contra hne
  have hpos : 1 ≤ tally s.tasks Task.strays id := tally_pos hi (by simp [hne])
  have hzero := h.straight
  omega

/-- A step that succeeds. -/
theorem succeed_ok {t : Task} (hi : s.tasks[i]? = some t) (ho : s.orderly true t)
    (hids : (s.rows.map (·.id)).Nodup) (h : ∀ n, FileOk s n) (n : Uuid) :
    FileOk (s.succeed i t) n := by
  cases t with
  | store key => exact store_ok hi h n
  | select id key =>
    cases hr : s.selectByKey key with
    | none =>
      simp only [State.succeed, hr]
      exact move_ok hi (fun n => by simp [Alike]) h n
    | some r =>
      simp only [State.succeed, hr]
      have hkey : r.key = key := by simpa using List.find?_some hr
      exact select_found_ok hi (rowOf_of_mem hids (List.mem_of_find?_eq_some hr)) hkey h n
  | discard id eid ps => exact discard_ok hi h n
  | count eid ps =>
    cases hl : s.locked eid with
    | true =>
      simp only [State.succeed, hl, if_pos]
      exact h n
    | false =>
      simp only [State.succeed, hl, if_neg Bool.false_ne_true]
      exact count_ok hi hl rfl h n
  | commitCount eid ps hit => exact commitCount_ok hi h n
  | insert id key =>
    cases hw : s.insertWaits key with
    | true =>
      simp only [State.succeed, hw, if_pos]
      exact h n
    | false =>
      have hnone : s.selectByKey key = none := by simpa [State.orderly, hw] using ho
      simp only [State.succeed, hw, hnone, Option.isSome_none, if_neg Bool.false_ne_true]
      exact move_ok hi (fun n => by simp [Alike]) h n
  | enqueueCreated id key => exact move_ok hi (fun n => by simp [Alike]) h n
  | commitInsert id key => exact commitInsert_ok hi h n
  | load op id ps =>
    cases hr : rowOf s.rows id with
    | none =>
      simp only [State.succeed, hr]
      exact returned_ok (s.move i .returned) hi rfl rfl rfl rfl rfl rfl rfl rfl (by simp) (by simp) (h n)
    | some r =>
      simp only [State.succeed, hr]
      by_cases hps : r.key.project_space_id = ps
      · rw [if_pos hps]
        subst hps
        cases op with
        | reference => exact load_reference_ok hi hr h n
        | unreference =>
          by_cases hc : r.ref_count ≤ 1
          · simp only [if_pos hc]
            exact load_unreference_ok hi hr (.inr rfl) h n
          · simp only [if_neg hc]
            exact load_unreference_ok hi hr (.inl rfl) h n
        | delete => exact load_delete_ok hi hr h n
      · rw [if_neg hps]
        exact returned_ok (s.move i .returned) hi rfl rfl rfl rfl rfl rfl rfl rfl (by simp) (by simp) (h n)
  | update id ps =>
    cases hl : s.locked id with
    | true =>
      simp only [State.succeed, hl, if_pos]
      exact h n
    | false =>
      simp only [State.succeed, hl, if_neg Bool.false_ne_true]
      exact update_ok hi hl rfl h n
  | reload id ps hit =>
    cases hr : rowOf s.rows id with
    | none =>
      simp only [State.succeed, hr]
      refine returned_ok (s.move i .returned) hi rfl rfl rfl rfl rfl rfl rfl rfl (by simp) (fun hco => ?_) (h n)
      have hid : id = n := by
        cases hit <;> simp at hco
        exact hco
      rw [← hid, hr]
    | some r =>
      -- the row is one of the project space, and the UPDATE has found it
      have hps := ((h id).aimed ps (tally_pos hi (by simp))).2.2 r hr
      have hhit : hit = true := by
        cases hit with
        | true => rfl
        | false =>
          rw [((h id).gone (tally_pos hi (by simp))).2.2] at hr
          exact absurd hr (by simp)
      simp only [State.succeed, hr, if_pos hps, hhit]
      rw [hhit] at hi
      exact reload_ok hi hr h n
  | decrement id =>
    cases hl : s.locked id with
    | true =>
      simp only [State.succeed, hl, if_pos]
      exact h n
    | false =>
      obtain hlocked | ⟨r, hr, hcount⟩ := ho rfl
      · rw [hl] at hlocked
        exact absurd hlocked Bool.false_ne_true
      · simp only [State.succeed, hl, if_neg Bool.false_ne_true, hr, Option.isSome_some, if_pos]
        exact decrement_ok hi hl hr hcount h n
  | deleteRow gc id location =>
    cases hl : s.locked id with
    | true =>
      simp only [State.succeed, hl, if_pos]
      exact h n
    | false =>
      simp only [State.succeed, hl, if_neg Bool.false_ne_true]
      refine deleteRow_ok hi hl rfl (fun hgc => ?_) h n
      subst hgc
      obtain hlocked | hrow := ho rfl
      · rw [hl] at hlocked
        exact absurd hlocked Bool.false_ne_true
      · exact hrow
  | enqueueDeleted gc id location hit =>
    refine move_ok hi (fun n => ?_) h n
    cases gc <;> cases hit <;> simp [Alike]
  | commitDelete gc id location hit => exact commitDelete_ok hi h n
  | deleteBlob gc id location hit =>
    have hloc := location_eq hi (h id)
    subst hloc
    exact deleteBlob_ok hi h n
  | returned => exact h n

/-- A step that fails. -/
theorem fail_ok {t : Task} (hi : s.tasks[i]? = some t) (ho : s.orderly false t)
    (h : ∀ n, FileOk s n) (n : Uuid) : FileOk (s.fail i t) n := by
  have hdrop : t.owns n = false → (t.cleans n = true → n ∉ s.blobs) →
      (t.counted n = true → rowOf s.rows n = none) → FileOk (s.move i .returned) n := by
    intro howns hcleans hcounted
    exact returned_ok (s.move i .returned) hi rfl rfl rfl rfl rfl rfl rfl howns hcleans hcounted
      (h n)
  cases t with
  | discard id eid ps => exact absurd ho Bool.false_ne_true
  | select id key => exact absurd ho Bool.false_ne_true
  | enqueueCreated id key => exact absurd ho Bool.false_ne_true
  | commitInsert id key => exact absurd ho Bool.false_ne_true
  | insert id key => exact absurd ho.1 Bool.false_ne_true
  | deleteBlob gc id location hit =>
    have hloc := location_eq hi (h id)
    have hout : location ∉ s.blobs := ho.resolve_left Bool.false_ne_true
    refine returned_ok (s.report i _) hi rfl rfl rfl rfl rfl rfl rfl (by simp) (fun hid => ?_)
      (by simp) (h n)
    have hid : id = n := by simpa using hid
    rw [← hid, ← hloc]
    exact hout
  | reload id ps hit =>
    refine hdrop (by simp) (by simp) (fun hco => ?_)
    cases hit with
    | false => simp at hco
    | true =>
      have hid : id = n := by simpa using hco
      rw [← hid]
      exact Or.resolve_left ho Bool.false_ne_true
  | store | count | commitCount | load | update | decrement | deleteRow | enqueueDeleted
  | commitDelete | returned => exact hdrop (by simp) (by simp) (by simp)

end Steps

/-! ## What a step does to the stores -/

/-- The load of a request changes nothing. -/
theorem load_moves (s : State) (i : Nat) (op : Op) (id : Uuid) (ps : String) :
    ∃ t', s.succeed i (.load op id ps) = s.move i t' := by
  simp only [State.succeed]
  split
  · split
    · cases op with
      | reference => exact ⟨_, rfl⟩
      | unreference =>
        dsimp only
        split <;> exact ⟨_, rfl⟩
      | delete => exact ⟨_, rfl⟩
    · exact ⟨_, rfl⟩
  · exact ⟨_, rfl⟩

/-- A step writes counts, inserts a row at the end of an upload, or deletes one. -/
theorem succeed_rows (s : State) (i : Nat) (t : Task) :
    (s.succeed i t).rows = s.rows ∨ (∃ id d, (s.succeed i t).rows = addRefs s.rows id d) ∨
      (∃ id key, t = .commitInsert id key ∧ (s.succeed i t).rows = s.rows ++ [⟨id, key, id, 1⟩]) ∨
      ∃ gc id location, t = .commitDelete gc id location true ∧
        (s.succeed i t).rows = deleteById s.rows id := by
  cases t with
  | commitInsert id key => exact .inr (.inr (.inl ⟨id, key, rfl, rfl⟩))
  | commitCount eid ps hit =>
    -- a COMMIT makes the statements before it count, when they hit a row
    cases hit with
    | false => exact .inl rfl
    | true => exact .inr (.inl ⟨eid, 1, rfl⟩)
  | commitDelete gc id location hit =>
    cases hit with
    | false => exact .inl rfl
    | true => exact .inr (.inr (.inr ⟨gc, id, location, rfl, rfl⟩))
  | update id ps =>
    simp only [State.succeed]
    split
    · exact .inl rfl
    · exact .inr (.inl ⟨id, 1, rfl⟩)
  | decrement id =>
    simp only [State.succeed]
    split
    · exact .inl rfl
    · split
      · exact .inr (.inl ⟨id, -1, rfl⟩)
      · exact .inl rfl
  | store | discard | enqueueCreated | enqueueDeleted | deleteBlob | returned => exact .inl rfl
  -- the other steps read, or work on files and events
  | select | count | deleteRow => left; simp only [State.succeed]; split <;> rfl
  | insert =>
    left
    simp only [State.succeed]
    split
    · rfl
    · split <;> rfl
  | load op id ps =>
    obtain ⟨t', ht'⟩ := load_moves s i op id ps
    rw [ht']
    exact .inl rfl
  | reload id ps hit =>
    left
    simp only [State.succeed]
    split
    · split <;> rfl
    · rfl

/-- A step stores a blob, or deletes one that is not wanted or whose row is gone. -/
theorem succeed_blobs (s : State) (i : Nat) (t : Task) :
    (s.succeed i t).blobs = s.blobs ∨ (s.succeed i t).blobs = s.next :: s.blobs ∨
      ∃ id, (s.succeed i t).blobs = s.blobs.filter (· ≠ id) ∧
        ((∃ eid ps, t = .discard id eid ps) ∨ ∃ gc id' hit, t = .deleteBlob gc id' id hit) := by
  cases t with
  | store key => exact .inr (.inl rfl)
  | discard id eid ps => exact .inr (.inr ⟨id, rfl, .inl ⟨eid, ps, rfl⟩⟩)
  | deleteBlob gc id location hit => exact .inr (.inr ⟨location, rfl, .inr ⟨gc, id, hit, rfl⟩⟩)
  | commitCount | commitDelete | enqueueCreated | enqueueDeleted | commitInsert | returned =>
    exact .inl rfl
  | update | select | count | deleteRow => left; simp only [State.succeed]; split <;> rfl
  | decrement | insert =>
    left
    simp only [State.succeed]
    split
    · rfl
    · split <;> rfl
  | load op id ps =>
    obtain ⟨t', ht'⟩ := load_moves s i op id ps
    rw [ht']
    exact .inl rfl
  | reload id ps hit =>
    left
    simp only [State.succeed]
    split
    · split <;> rfl
    · rfl

/-- A step that fails touches neither store. -/
theorem fail_stores (s : State) (i : Nat) (t : Task) :
    (s.fail i t).rows = s.rows ∧ (s.fail i t).blobs = s.blobs := by
  cases t <;> exact ⟨rfl, rfl⟩

/-! ## Runs -/

/-- The files are right under every id, ids and blobs are there once, and no success has been
reported wrongly. -/
structure Inv (s : State) : Prop where
  files : ∀ n, FileOk s n
  ids : (s.rows.map (·.id)).Nodup
  blobs : s.blobs.Nodup
  reports : ∀ b ∈ s.reports, b = true

theorem initial_inv : Inv .initial := by
  constructor
  · intro n
    constructor <;> simp [State.initial, State.references, tally, rowOf]
  · exact List.nodup_nil
  · exact List.nodup_nil
  · simp [State.initial]

theorem ids_addRefs (rows : List DataObject) (id : Uuid) (d : Int) :
    (addRefs rows id d).map (·.id) = rows.map (·.id) := by
  unfold addRefs
  rw [List.map_map]
  refine List.map_congr_left fun r _ => ?_
  by_cases h : r.id = id <;> simp [h]

theorem nodup_deleteById {rows : List DataObject} (id : Uuid) (h : (rows.map (·.id)).Nodup) :
    ((deleteById rows id).map (·.id)).Nodup :=
  h.sublist (List.filter_sublist.map _)

section Inv

variable {s : State} {i : Nat} {t : Task}

theorem succeed_ids (hi : s.tasks[i]? = some t) (h : Inv s) :
    ((s.succeed i t).rows.map (·.id)).Nodup := by
  have hids := h.ids
  obtain heq | ⟨id, d, heq⟩ | ⟨id, key, rfl, heq⟩ | ⟨gc, id, location, rfl, heq⟩ :=
    succeed_rows s i t
  · rw [heq]
    exact hids
  · rw [heq, ids_addRefs]
    exact hids
  · -- the id is the uploads's own, and there is no row of it yet
    have hnone := ((h.files id).owned (tally_pos hi (by simp))).2.2.1
    have hnew : id ∉ s.rows.map (·.id) := by
      rw [List.mem_map]
      rintro ⟨r, hr, rfl⟩
      exact rowOf_ne_none hr hnone
    rw [heq, List.map_append, List.nodup_append]
    refine ⟨hids, by simp, fun a ha b hb hab => hnew ?_⟩
    have hb : b = id := by simpa using hb
    rw [← hb, ← hab]
    exact ha
  · rw [heq]
    exact nodup_deleteById id hids

theorem succeed_nodup (h : Inv s) : (s.succeed i t).blobs.Nodup := by
  obtain heq | heq | ⟨id, heq, -⟩ := succeed_blobs s i t
  · rw [heq]
    exact h.blobs
  · rw [heq, List.nodup_cons]
    exact ⟨((h.files s.next).fresh (Nat.le_refl _)).2.1, h.blobs⟩
  · rw [heq]
    exact h.blobs.filter _

/-- An unreference that deletes has found the row; a delete leaves none. -/
theorem deleteBlob_report {gc : Bool} {id location : Uuid} {hit : Bool}
    (hi : s.tasks[i]? = some (.deleteBlob gc id location hit)) (h : Inv s) :
    (if gc then hit else (rowOf s.rows id).isNone) = true := by
  cases gc with
  | false =>
    have hgone := ((h.files id).gone (tally_pos hi (by simp))).2.2
    simp [hgone]
  | true =>
    by_contra hhit
    have hmiss : hit = false := by simpa using hhit
    have hpos : 1 ≤ tally s.tasks Task.strays id := tally_pos hi (by simp [hmiss])
    have hzero := (h.files id).straight
    omega

theorem succeed_reports (hi : s.tasks[i]? = some t) (ho : s.orderly true t) (h : Inv s) :
    ∀ b ∈ (s.succeed i t).reports, b = true := by
  have hreports := h.reports
  have hcons : ∀ b, b = true → ∀ b' ∈ b :: s.reports, b' = true := by
    intro b hb b' hb'
    obtain rfl | hb' := List.mem_cons.mp hb'
    · exact hb
    · exact hreports b' hb'
  -- only an end of a task reports
  cases t with
  | commitInsert id key => exact hcons true rfl
  | deleteBlob gc id location hit => exact hcons _ (deleteBlob_report hi h)
  | decrement id =>
    simp only [State.succeed]
    split
    · exact hreports
    · rename_i hl
      -- in turn, nobody has the row, and it is there
      obtain hlocked | ⟨r, hr, -⟩ := ho rfl
      · exact absurd hlocked hl
      · rw [hr]
        exact hcons true rfl
  | reload id ps hit =>
    simp only [State.succeed]
    split
    · rename_i r hr
      split
      · cases hit with
        | true => exact hcons true rfl
        | false =>
          rw [((h.files id).gone (tally_pos hi (by simp))).2.2] at hr
          exact absurd hr (by simp)
      · exact hreports
    · exact hreports
  | store | discard | enqueueCreated | enqueueDeleted | commitCount | commitDelete | returned =>
    exact hreports
  | select | count | deleteRow | update => simp only [State.succeed]; split <;> exact hreports
  | insert =>
    simp only [State.succeed]
    split
    · exact hreports
    · split <;> exact hreports
  | load op id ps =>
    obtain ⟨t', ht'⟩ := load_moves s i op id ps
    rw [ht']
    exact hreports

theorem fail_reports (hi : s.tasks[i]? = some t) (h : Inv s) :
    ∀ b ∈ (s.fail i t).reports, b = true := by
  cases t with
  | deleteBlob gc id location hit =>
    intro b hb
    obtain rfl | hb := List.mem_cons.mp hb
    · exact deleteBlob_report hi h
    · exact h.reports b hb
  | _ => exact h.reports

theorem step_inv {e : Event} (h : Inv s) (hp : Promised s e) (ho : Orderly s e) :
    Inv (step s e) := by
  cases e with
  | call r =>
    exact ⟨call_ok hp h.files, h.ids, h.blobs, h.reports⟩
  | step i ok =>
    cases hi : s.tasks[i]? with
    | none =>
      simp only [step, hi]
      exact h
    | some t =>
      have ho := ho t hi
      simp only [step, hi]
      cases ok with
      | true =>
        exact ⟨succeed_ok hi ho h.ids h.files, succeed_ids hi h, succeed_nodup h,
          succeed_reports hi ho h⟩
      | false =>
        obtain ⟨hrows, hblobs⟩ := fail_stores s i t
        refine ⟨fail_ok hi ho h.files, ?_, ?_, fail_reports hi h⟩
        · show (List.map _ (s.fail i t).rows).Nodup
          rw [hrows]
          exact h.ids
        · show (s.fail i t).blobs.Nodup
          rw [hblobs]
          exact h.blobs

/-- In the state an orderly run has reached everything is right. -/
theorem Inv.right (h : Inv s) : Right s := by
  constructor
  · intro id r hr
    obtain ⟨-, -, hcount, hpos, -⟩ := (h.files id).row r hr
    exact ⟨hcount, hpos⟩
  · exact h.reports
  · intro hidle
    have hzero : ∀ {p : Uuid → Task → Bool} {n}, p n .returned = false → tally s.tasks p n = 0 := by
      intro p n hp
      refine List.countP_eq_zero.mpr fun t ht => ?_
      rw [hidle t ht, hp]
      exact Bool.false_ne_true
    -- each row lies under its id
    have hloc : s.rows.map (·.location) = s.rows.map (·.id) :=
      List.map_congr_left fun r hr => ((h.files r.id).row r (rowOf_of_mem h.ids hr)).1
    rw [hloc, List.perm_ext_iff_of_nodup h.ids h.blobs]
    intro n
    constructor
    · intro hn
      obtain ⟨r, hr, rfl⟩ := List.mem_map.mp hn
      exact ((h.files r.id).row r (rowOf_of_mem h.ids hr)).2.1
    · intro hn
      obtain hrow | hown | hclean := (h.files n).blob hn
      · obtain ⟨r, hr⟩ := Option.ne_none_iff_exists'.mp hrow
        exact List.mem_map.mpr ⟨r, List.mem_of_find?_eq_some hr, id_of_rowOf hr⟩
      · rw [hzero rfl] at hown
        omega
      · rw [hzero rfl] at hclean
        omega

/-- Nothing references what an unreference has deleted. -/
theorem references_of_collected {n : Uuid} (h : FileOk s n)
    (hc : 1 ≤ tally s.tasks Task.collected n) : s.references n = 0 := by
  obtain ⟨heq, hzero⟩ := h.collected hc
  rw [references_eq, heq, hzero]
  omega

theorem row_removed (hi : s.tasks[i]? = some t) (hfiles : ∀ n, FileOk (s.succeed i t) n) {n : Uuid}
    (hrow : rowOf s.rows n ≠ none) (hgone : rowOf (s.succeed i t).rows n = none) :
    (s.succeed i t).references n = 0 ∨ ∃ location hit, t = .commitDelete false n location hit := by
  obtain heq | ⟨id, d, heq⟩ | ⟨id, key, -, heq⟩ | ⟨gc, id, location, rfl, heq⟩ :=
    succeed_rows s i t
  · rw [heq] at hgone
    exact absurd hgone hrow
  · rw [heq, rowOf_addRefs, Option.map_eq_none_iff] at hgone
    exact absurd hgone hrow
  · rw [heq, rowOf_append, Option.or_eq_none_iff] at hgone
    exact absurd hgone.1 hrow
  · rw [heq, rowOf_deleteById] at hgone
    by_cases hid : n = id
    · subst hid
      cases gc with
      | false => exact .inr ⟨location, true, rfl⟩
      | true =>
        left
        have hlt := (List.getElem?_eq_some_iff.mp hi).1
        have hnow : (s.succeed i (.commitDelete true n location true)).tasks[i]? =
            some (.deleteBlob true n location true) := by
          simp [State.succeed, State.move, hlt]
        exact references_of_collected (hfiles n) (tally_pos hnow (by simp))
    · rw [if_neg hid] at hgone
      exact absurd hgone hrow

theorem blob_removed (hi : s.tasks[i]? = some t) (h : Inv s) {n : Uuid}
    (hfiles : ∀ n, FileOk (s.succeed i t) n)
    (hblob : n ∈ s.blobs) (hgone : n ∉ (s.succeed i t).blobs) :
    (s.succeed i t).references n = 0 ∨ ∃ id hit, t = .deleteBlob false id n hit := by
  obtain heq | heq | ⟨id, heq, ht⟩ := succeed_blobs s i t
  · rw [heq] at hgone
    exact absurd hblob hgone
  · rw [heq] at hgone
    exact absurd (List.mem_cons_of_mem _ hblob) hgone
  · rw [heq] at hgone
    have hid : id = n := by
      by_contra hne
      exact hgone (List.mem_filter.mpr ⟨hblob, by simpa using Ne.symm hne⟩)
    subst hid
    obtain ⟨eid, ps, rfl⟩ | ⟨gc, id', hit, rfl⟩ := ht
    · -- the blob of the upload itself has never been referenced
      left
      obtain ⟨-, -, -, -, hsucc, hcounted⟩ := (h.files id).owned (tally_pos hi (by simp))
      obtain ⟨hunref, hcalls⟩ := (h.files id).promised
      have hsame : tally (s.succeed i (.discard id eid ps)).tasks Task.counted id = 0 := by
        rw [← hcounted]
        exact tally_set hi rfl
      rw [references_eq, hsame]
      show (s.successes id : Int) - s.unreferenced id + (0 : Nat) = 0
      omega
    · cases gc with
      | false => exact .inr ⟨id', hit, rfl⟩
      | true =>
        left
        have hloc := location_eq hi (h.files id')
        subst hloc
        obtain ⟨heq, hcounted⟩ := (h.files id).collected (tally_pos hi (by simp))
        have hsame : tally (s.succeed i (.deleteBlob true id id hit)).tasks
            Task.counted id = 0 := by
          rw [← hcounted]
          exact tally_set hi rfl
        rw [references_eq, hsame]
        show (s.successes id : Int) - s.unreferenced id + (0 : Nat) = 0
        omega

theorem removedRightly {e : Event} (h : Inv s) (hp : Promised s e) (ho : Orderly s e) :
    RemovedRightly s e := by
  have hafter := (step_inv h hp ho).files
  intro n hgone
  cases e with
  | call r =>
    obtain ⟨hrow, hnone⟩ | ⟨hblob, hout⟩ := hgone
    · exact absurd hnone hrow
    · exact absurd hblob hout
  | step i ok =>
    cases hi : s.tasks[i]? with
    | none =>
      simp only [step, hi] at hgone
      obtain ⟨hrow, hnone⟩ | ⟨hblob, hout⟩ := hgone
      · exact absurd hnone hrow
      · exact absurd hblob hout
    | some t =>
      cases ok with
      | false =>
        -- a step that fails removes nothing
        obtain ⟨hrows, hblobs⟩ := fail_stores s i t
        simp only [step, hi, if_neg Bool.false_ne_true, hrows, hblobs] at hgone
        obtain ⟨hrow, hnone⟩ | ⟨hblob, hout⟩ := hgone
        · exact absurd hnone hrow
        · exact absurd hblob hout
      | true =>
        simp only [step, hi, if_pos] at hgone hafter ⊢
        obtain ⟨hrow, hnone⟩ | ⟨hblob, hout⟩ := hgone
        -- what is gone was unreferenced, or its upload had never been reported
        · obtain hzero | ⟨location, hit, rfl⟩ := row_removed hi hafter hrow hnone
          · exact .inl hzero
          · exact .inr ⟨i, location, hit, rfl, .inl hi⟩
        · obtain hzero | ⟨id, hit, rfl⟩ := blob_removed hi h hafter hblob hout
          · exact .inl hzero
          · exact .inr ⟨i, id, hit, rfl, .inr ⟨id, hi⟩⟩

end Inv

/-- **Stored files live exactly as long as they are referenced**, in every run that is orderly and
in which unreference is called as promised. -/
theorem stored_files_live_while_referenced (es : List Event)
    (hes : Along step (fun s e => Promised s e ∧ Orderly s e) .initial es) :
    Along step RemovedRightly .initial es ∧ Right (run step .initial es) := by
  have hstep : ∀ s e, Inv s → Promised s e ∧ Orderly s e → Inv (step s e) :=
    fun s e h hpo => step_inv h hpo.1 hpo.2
  constructor
  · exact hes.mono_invariant hstep (fun s e h hpo => removedRightly h hpo.1 hpo.2) initial_inv
  · exact (hes.invariant hstep initial_inv).right

theorem orderly_of {s : State} {i : Nat} {ok : Bool} {t : Task} (hi : s.tasks[i]? = some t)
    (h : s.orderly ok t) : Orderly s (.step i ok) := by
  intro t' hi'
  rw [hi] at hi'
  rw [← Option.some.inj hi']
  exact h

/-- A file is uploaded, then unreferenced and with it deleted. -/
def inTurn : List Event :=
  [.call (.upload ⟨"sha", "space"⟩), .step 0 true, .step 0 true, .step 0 true, .step 0 true,
    .step 0 true, .call (.on .unreference 0 "space"), .step 1 true, .step 1 true, .step 1 true,
    .step 1 true, .step 1 true]

theorem stored_files_live_in_turn :
    Along step RemovedRightly .initial inTurn ∧ Right (run step .initial inTurn) :=
  stored_files_live_while_referenced inTurn
    ⟨⟨trivial, trivial⟩, ⟨trivial, orderly_of rfl trivial⟩, ⟨trivial, orderly_of rfl rfl⟩,
      ⟨trivial, orderly_of rfl ⟨rfl, .inr rfl⟩⟩, ⟨trivial, orderly_of rfl rfl⟩,
      ⟨trivial, orderly_of rfl rfl⟩, ⟨Nat.one_pos, trivial⟩, ⟨trivial, orderly_of rfl trivial⟩,
      ⟨trivial, orderly_of rfl fun _ => .inr ⟨_, rfl, by decide⟩⟩,
      ⟨trivial, orderly_of rfl trivial⟩, ⟨trivial, orderly_of rfl trivial⟩,
      ⟨trivial, orderly_of rfl (.inl rfl)⟩, trivial⟩

/-- An unreference reads that it holds the last reference; before its DELETE another request has
referenced the file. -/
def overtaken : List Event :=
  [.call (.upload ⟨"sha", "space"⟩), .step 0 true, .step 0 true, .step 0 true, .step 0 true,
    .step 0 true, .call (.on .unreference 0 "space"), .step 1 true,
    .call (.on .reference 0 "space"), .step 2 true, .step 2 true, .step 2 true, .step 1 true,
    .step 1 true]

/-- The COMMIT of the unreference removes the row of a file that is in use. -/
theorem referenced_file_deleted :
    ¬ ∀ es, Along step Promised .initial es →
      Along step RemovedRightly .initial es ∧ Right (run step .initial es) := by
  intro h
  have hpromised : Along step Promised .initial (overtaken ++ [.step 1 true]) :=
    ⟨trivial, trivial, trivial, trivial, trivial, trivial, Nat.one_pos, trivial, trivial, trivial,
      trivial, trivial, trivial, trivial, trivial, trivial⟩
  have hlast := (Along.append.mp (h _ hpromised).1).2.1
  obtain hzero | ⟨i, location, hit, he, ht⟩ := hlast 0 (.inl ⟨by decide, by decide⟩)
  · exact absurd hzero (by decide)
  · obtain rfl : 1 = i := (Event.step.inj he).1
    obtain ht | ⟨id, ht⟩ := ht
    · exact Bool.noConfusion (Task.commitDelete.inj (Option.some.inj ht)).1
    · exact Task.noConfusion (Option.some.inj ht)

end PlmCore.Dst.DataService
