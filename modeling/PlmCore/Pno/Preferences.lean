/-
The single-valued preferences of pno, `get_single` and `set_single` of `user_kv.rs`.

The table keeps any number of values for one key. `set_single` replaces them in two statements of their
own, a DELETE and an INSERT. What a request has deleted is gone before its INSERT is known to succeed,
and two requests that both delete first both insert. In a run in which no request deletes while another
one is between its statements, and no INSERT fails, the key has one value at most, and it is that of the
last request that succeeded.
-/
import Mathlib.Data.List.Nodup
import Mathlib.Logic.Function.Basic
import Mathlib.Tactic.Common
import PlmCore.Lib.Run

set_option autoImplicit false

namespace PlmCore.Pno.Preferences

open Lib

/-! ## The table -/

/-- What a value is stored for. -/
structure KvAddress where
  userId : String
  psId : String
  groupName : String
  kvKey : String
  deriving DecidableEq

/-- A row of `user_kv`. -/
structure KvRow where
  id : String
  userId : String
  psId : String
  groupName : String
  kvKey : String
  kvValue : String
  createdAt : Int
  deriving DecidableEq

def KvRow.address (r : KvRow) : KvAddress := ⟨r.userId, r.psId, r.groupName, r.kvKey⟩

/-- The widths of the columns. -/
def KvRow.Fits (r : KvRow) : Prop :=
  r.id.length ≤ 36 ∧ r.userId.length ≤ 36 ∧ r.psId.length ≤ 36 ∧ r.groupName.length ≤ 64 ∧
    r.kvKey.length ≤ 256 ∧ r.kvValue.length ≤ 1024

instance (r : KvRow) : Decidable r.Fits :=
  inferInstanceAs (Decidable (_ ∧ _ ∧ _ ∧ _ ∧ _ ∧ _))

/-- `user_kv`, with the constraints `user_kv_pkey` and `user_kv_unique`. -/
structure KvTable where
  rows : List KvRow
  pkey : (rows.map KvRow.id).Nodup
  unique : (rows.map fun r => (r.address, r.kvValue)).Nodup

namespace KvTable

/-- The constraints a new row has to meet; `users` are the ids of `pno_user`. -/
def Admits (t : KvTable) (users : List String) (r : KvRow) : Prop :=
  r.id ∉ t.rows.map KvRow.id ∧ (r.address, r.kvValue) ∉ t.rows.map (fun r => (r.address, r.kvValue)) ∧
    r.userId ∈ users ∧ r.Fits

instance (t : KvTable) (users : List String) (r : KvRow) : Decidable (t.Admits users r) :=
  inferInstanceAs (Decidable (_ ∧ _ ∧ _ ∧ _))

/-- The DELETE of `set_single`. -/
def delete (t : KvTable) (a : KvAddress) : KvTable where
  rows := t.rows.filter (·.address ≠ a)
  pkey := t.pkey.sublist (List.filter_sublist.map _)
  unique := t.unique.sublist (List.filter_sublist.map _)

/-- The INSERT of `set_single`. -/
def insert (t : KvTable) (users : List String) (r : KvRow) : Option KvTable :=
  if h : t.Admits users r then
    some {
      rows := r :: t.rows
      pkey := List.nodup_cons.mpr ⟨h.1, t.pkey⟩
      unique := List.nodup_cons.mpr ⟨h.2.1, t.unique⟩ }
  else none

/-- The rows for an address. -/
def cells (t : KvTable) (a : KvAddress) : List KvRow := t.rows.filter (·.address = a)

end KvTable

/-- `ORDER BY created_at`: the oldest first, rows of one time in any order. -/
structure KvOrder where
  order : List KvRow → List KvRow
  perm : ∀ rows, (order rows).Perm rows
  sorted : ∀ rows, (order rows).Pairwise fun r r' => r.createdAt ≤ r'.createdAt

/-- `list_values`. -/
def listValues (o : KvOrder) (t : KvTable) (a : KvAddress) : List String :=
  (o.order (t.cells a)).map KvRow.kvValue

/-- `get_single`. -/
def getSingle (o : KvOrder) (t : KvTable) (a : KvAddress) : Option String := (listValues o t a).head?

/-! ## Requests -/

/-- How far a `set_single` request has come: the statement it makes next, or how it ended. -/
inductive Phase
  | absent
  | deleting (value : String)
  | inserting (value : String)
  | succeeded
  | failed
  deriving DecidableEq

/-- The table, the `set_single` requests for one address, and as history the values of those that
succeeded, in the order in which they did. -/
structure State where
  table : KvTable
  request : Nat → Phase
  replaced : List String

/-- A request arrives, or makes its next statement. A statement can fail for reasons of its own, and
the INSERT fails on a constraint. -/
inductive Event
  | arrive (n : Nat) (value : String)
  | delete (n : Nat)
  | insert (n : Nat) (id : String) (now : Int)
  | fail (n : Nat)

variable (users : List String) (a : KvAddress)

/-- The row a request inserts. -/
def newRow (value id : String) (now : Int) : KvRow :=
  ⟨id, a.userId, a.psId, a.groupName, a.kvKey, value, now⟩

def State.move (s : State) (n : Nat) (phase : Phase) : State :=
  { s with request := Function.update s.request n phase }

/-- One statement of `set_single`. -/
def step (s : State) : Event → State
  | .arrive n value => if s.request n = .absent then s.move n (.deleting value) else s
  | .delete n =>
    match s.request n with
    | .deleting value => { s.move n (.inserting value) with table := s.table.delete a }
    | _ => s
  | .insert n id now =>
    match s.request n with
    | .inserting value =>
      match s.table.insert users (newRow a value id now) with
      | some table => { s.move n .succeeded with table := table, replaced := s.replaced ++ [value] }
      | none => s.move n .failed
    | _ => s
  | .fail n =>
    match s.request n with
    | .deleting _ => s.move n .failed
    | .inserting _ => s.move n .failed
    | _ => s

/-- Before any request. -/
def State.start (t : KvTable) : State := ⟨t, fun _ => .absent, []⟩

/-- No request is running. -/
def State.Quiet (s : State) : Prop :=
  ∀ n value, s.request n ≠ .deleting value ∧ s.request n ≠ .inserting value

/-- What the key is for: one value at most, that of a successful request which is the last one in some
order of them, or the old one. -/
def State.Single (o : KvOrder) (old : Option String) (s : State) : Prop :=
  (listValues o s.table a).length ≤ 1 ∧
    ∃ order : List String, order.Perm s.replaced ∧ getSingle o s.table a = order.getLast?.or old

/-- The steps that keep requests apart: no DELETE while another request is between its statements, and
no INSERT that fails. -/
def State.Apart (s : State) : Event → Prop
  | .arrive .. => True
  | .delete n => ∀ value, s.request n = .deleting value → ∀ m value', s.request m ≠ .inserting value'
  | .insert n id now => ∀ value, s.request n = .inserting value →
      s.table.Admits users (newRow a value id now)
  | .fail n => ∀ value, s.request n ≠ .inserting value

/-! ## Tables -/

namespace KvTable

variable {users a}

/-- Nothing is left for an address after its DELETE. -/
theorem cells_delete (t : KvTable) (a : KvAddress) : (t.delete a).cells a = [] := by
  refine List.filter_eq_nil_iff.mpr fun r hr => ?_
  have hne := (List.mem_filter.mp hr).2
  simpa using hne

/-- The row that was inserted is the only new one. -/
theorem cells_insert {t t' : KvTable} {r : KvRow} (h : t.insert users r = some t') :
    t'.cells r.address = r :: t.cells r.address := by
  unfold insert at h
  split at h
  · cases h
    exact List.filter_cons_of_pos (by simp)
  · cases h

theorem insert_eq_some {t : KvTable} {r : KvRow} (h : t.Admits users r) :
    ∃ t', t.insert users r = some t' := by
  unfold insert
  rw [dif_pos h]
  exact ⟨_, rfl⟩

end KvTable

/-- In whatever order ties come, the values of one row at most are that row's. -/
theorem listValues_eq (o : KvOrder) {t : KvTable} {a : KvAddress} (h : (t.cells a).length ≤ 1) :
    listValues o t a = (t.cells a).map KvRow.kvValue := by
  have hperm := o.perm (t.cells a)
  unfold listValues
  generalize t.cells a = rows at h hperm ⊢
  match rows, h with
  | [], _ => rw [List.perm_nil.mp hperm]
  | [r], _ => rw [List.perm_singleton.mp hperm]

/-! ## One statement -/

/-- The state of the requests: one at most is between its statements. Then the address has no value,
and otherwise that of the last request that succeeded. -/
structure State.Sequential (old : Option String) (s : State) : Prop where
  alone : ∀ m n value value', s.request m = .inserting value → s.request n = .inserting value' → m = n
  between : ∀ n value, s.request n = .inserting value → s.table.cells a = []
  rest : (∀ n value, s.request n ≠ .inserting value) →
    (s.table.cells a).map KvRow.kvValue = (s.replaced.getLast?.or old).toList

variable {users a} {old : Option String}

/-- Moving a request to where it inserts nothing leaves the others between their statements. -/
theorem State.Sequential.move {s : State} (h : s.Sequential a old) {n : Nat} {phase : Phase}
    (hbefore : ∀ value, s.request n ≠ .inserting value) (hafter : ∀ value, phase ≠ .inserting value) :
    (s.move n phase).Sequential a old := by
  have hsame : ∀ m value, (s.move n phase).request m = .inserting value ↔ s.request m = .inserting value := by
    intro m value
    change Function.update s.request n phase m = _ ↔ _
    by_cases heq : m = n
    · subst heq
      rw [Function.update_self]
      exact iff_of_false (hafter value) (hbefore value)
    · rw [Function.update_of_ne heq]
  refine ⟨fun m m' value value' hm hm' => ?_, fun m value hm => ?_, fun hnone => ?_⟩
  · exact h.alone m m' value value' ((hsame m value).mp hm) ((hsame m' value').mp hm')
  · exact h.between m value ((hsame m value).mp hm)
  · exact h.rest fun m value hm => hnone m value ((hsame m value).mpr hm)

/-- **The step lemma.** -/
theorem State.Sequential.step {s : State} (h : s.Sequential a old) {e : Event} (he : s.Apart users a e) :
    (step users a s e).Sequential a old := by
  cases e with
  | arrive n value =>
    unfold Preferences.step
    dsimp only
    split
    · rename_i habsent
      exact h.move (fun value' heq => nomatch habsent.symm.trans heq) fun _ heq => nomatch heq
    · exact h
  | fail n =>
    unfold Preferences.step
    dsimp only
    split
    · rename_i value hdeleting
      exact h.move (fun value' heq => nomatch hdeleting.symm.trans heq) fun _ heq => nomatch heq
    · rename_i value hinserting
      exact absurd hinserting (he value)
    · exact h
  | delete n =>
    unfold Preferences.step
    dsimp only
    split
    · rename_i value hdeleting
      have hfree := he value hdeleting
      have honly : ∀ m value', Function.update s.request n (.inserting value) m = .inserting value' →
          m = n := by
        intro m value' hm
        by_contra hne
        rw [Function.update_of_ne hne] at hm
        exact hfree m value' hm
      refine ⟨fun m m' v v' hm hm' => (honly m v hm).trans (honly m' v' hm').symm, ?_, fun hnone => ?_⟩
      · exact fun _ _ _ => KvTable.cells_delete _ a
      · exact absurd (Function.update_self ..) (hnone n value)
    · exact h
  | insert n id now =>
    unfold Preferences.step
    dsimp only
    split
    · rename_i value hinserting
      obtain ⟨t, ht⟩ := KvTable.insert_eq_some (he value hinserting)
      have hcells := KvTable.cells_insert ht
      rw [show (newRow a value id now).address = a from rfl, h.between n value hinserting] at hcells
      have hnone : ∀ m value', Function.update s.request n .succeeded m ≠ .inserting value' := by
        intro m value' hm
        by_cases heq : m = n
        · subst heq
          rw [Function.update_self] at hm
          cases hm
        · rw [Function.update_of_ne heq] at hm
          exact heq (h.alone m n value' value hm hinserting)
      rw [ht]
      refine ⟨fun m _ value' _ hm _ => absurd hm (hnone m value'), fun m value' hm => ?_, fun _ => ?_⟩
      · exact absurd hm (hnone m value')
      · change (t.cells a).map KvRow.kvValue = ((s.replaced ++ [value]).getLast?.or old).toList
        rw [hcells, List.getLast?_concat]
        rfl
    · exact h

/-! ## Runs -/

/-- A key with one value at most. -/
theorem sequential_start {o : KvOrder} {t : KvTable} (h : (listValues o t a).length ≤ 1) :
    (State.start t).Sequential a (getSingle o t a) := by
  have hlength : (t.cells a).length ≤ 1 := by
    have hperm := (o.perm (t.cells a)).length_eq
    unfold listValues at h
    rwa [List.length_map, hperm] at h
  refine ⟨fun _ _ _ _ hm => (nomatch hm), fun _ _ hm => (nomatch hm), fun _ => ?_⟩
  have heq := listValues_eq o hlength
  change (t.cells a).map KvRow.kvValue = (getSingle o t a).toList
  unfold getSingle
  rw [heq]
  match t.cells a, hlength with
  | [], _ => rfl
  | [r], _ => rfl

theorem State.Sequential.single (o : KvOrder) {s : State} (h : s.Sequential a old)
    (hrest : ∀ n value, s.request n ≠ .inserting value) : s.Single a o old := by
  have hvalues := h.rest hrest
  have hlength : (s.table.cells a).length ≤ 1 := by
    have hlengths := congrArg List.length hvalues
    rw [List.length_map] at hlengths
    rw [hlengths]
    exact Option.length_toList_le
  have hlist := listValues_eq o hlength
  rw [hvalues] at hlist
  refine ⟨?_, s.replaced, List.Perm.refl _, ?_⟩
  · rw [hlist]
    exact Option.length_toList_le
  · unfold getSingle
    rw [hlist, Option.head?_toList]

/-- A request that fails in a step that keeps requests apart has deleted nothing. -/
theorem table_of_fails {s : State} {e : Event} (he : s.Apart users a e) {n : Nat}
    (hbefore : s.request n ≠ .failed) (hafter : (step users a s e).request n = .failed) :
    (step users a s e).table = s.table := by
  have hmoved : ∀ {m phase}, Function.update s.request m phase n = .failed → phase = .failed := by
    intro m phase hupdate
    by_cases heq : n = m
    · subst heq
      rwa [Function.update_self] at hupdate
    · rw [Function.update_of_ne heq] at hupdate
      exact absurd hupdate hbefore
  cases e with
  | arrive m value =>
    unfold step
    dsimp only
    split <;> rfl
  | fail m =>
    unfold step
    dsimp only
    split <;> rfl
  | delete m =>
    unfold step at hafter
    dsimp only at hafter
    split at hafter
    · cases hmoved hafter
    · exact absurd hafter hbefore
  | insert m id now =>
    unfold step at hafter
    dsimp only at hafter
    split at hafter
    · rename_i value hinserting
      obtain ⟨t, ht⟩ := KvTable.insert_eq_some (he value hinserting)
      rw [ht] at hafter
      cases hmoved hafter
    · exact absurd hafter hbefore

/-- **Single-valued preferences stay single** in every run that keeps the requests apart: whenever none is
running the key has one value at most, that of the last successful request or the old one, and a request
that fails leaves the values as they were. -/
theorem preferences_stay_single (o : KvOrder) (users : List String) (a : KvAddress) (t : KvTable)
    (ht : (listValues o t a).length ≤ 1) (events : List Event)
    (h : Along (step users a) (State.Apart users a) (State.start t) events) :
    (∀ past, past <+: events → (run (step users a) (State.start t) past).Quiet →
      (run (step users a) (State.start t) past).Single a o (getSingle o t a)) ∧
    ∀ past e, past ++ [e] <+: events → ∀ n,
      (run (step users a) (State.start t) past).request n ≠ .failed →
      (run (step users a) (State.start t) (past ++ [e])).request n = .failed →
      listValues o (run (step users a) (State.start t) (past ++ [e])).table a =
        listValues o (run (step users a) (State.start t) past).table a := by
  constructor
  · rintro past ⟨rest, rfl⟩ hquiet
    have hstep : ∀ (s : State) (e : Event), s.Sequential a (getSingle o t a) → s.Apart users a e →
        (step users a s e).Sequential a (getSingle o t a) := fun _ _ hs he => hs.step he
    have hsequential := Along.invariant hstep (sequential_start ht) (Along.append.mp h).1
    exact hsequential.single o fun n value => (hquiet n value).2
  · rintro past e ⟨rest, rfl⟩ n hbefore hafter
    rw [run_append] at hafter ⊢
    have hgood := (Along.append.mp (Along.append.mp h).1).2.1
    exact congrArg (listValues o · a) (table_of_fails hgood hbefore hafter)

/-! ## A theme -/

/-- Rows of one time come as they are stored. -/
def KvOrder.stored : KvOrder where
  order rows := rows.mergeSort fun r r' => r.createdAt ≤ r'.createdAt
  perm rows := List.mergeSort_perm rows _
  sorted rows := by
    have h : (rows.mergeSort fun r r' => r.createdAt ≤ r'.createdAt).Pairwise
        fun r r' => decide (r.createdAt ≤ r'.createdAt) = true :=
      List.pairwise_mergeSort (by simp; omega) (by simp; omega) rows
    exact h.imp fun hle => of_decide_eq_true hle

def noRows : KvTable := ⟨[], List.nodup_nil, List.nodup_nil⟩

def theme : KvAddress := ⟨"user-1", "", "UI_PREF", "theme"⟩

theorem listValues_noRows (o : KvOrder) : listValues o noRows theme = [] :=
  listValues_eq o (Nat.zero_le 1)

def setDark : List Event := [.arrive 0 "dark", .delete 0, .insert 0 "kv-1" 1]

def setBoth : List Event :=
  [.arrive 0 "dark", .arrive 1 "light", .delete 0, .delete 1, .insert 0 "kv-1" 1, .insert 1 "kv-2" 2]

theorem preferences_stay_single_theme :
    (run (step ["user-1"] theme) (State.start noRows) setDark).Single theme .stored
      (getSingle .stored noRows theme) := by
  have hnone : (listValues .stored noRows theme).length ≤ 1 := by
    rw [listValues_noRows]
    exact Nat.zero_le 1
  have hapart : Along (step ["user-1"] theme) (State.Apart ["user-1"] theme) (State.start noRows)
      setDark := by
    refine ⟨trivial, fun _ _ m value hm => ?_, fun value hinserting => ?_, trivial⟩
    · match m, hm with
      | 0, hm => cases hm
      | m + 1, hm => cases hm
    · cases hinserting
      decide
  refine (preferences_stay_single .stored ["user-1"] theme noRows hnone setDark hapart).1 setDark
    (List.prefix_refl _) fun n value => ?_
  match n with
  | 0 => exact ⟨nofun, nofun⟩
  | n + 1 => exact ⟨nofun, nofun⟩

/-- Two requests that both delete first both insert, and the key has two values. -/
theorem two_requests_leave_two_themes : ¬ ∀ (o : KvOrder) (users : List String) (a : KvAddress)
    (t : KvTable), (listValues o t a).length ≤ 1 → ∀ events,
    (run (step users a) (State.start t) events).Quiet →
    (run (step users a) (State.start t) events).Single a o (getSingle o t a) := by
  intro hall
  have hnone : (listValues .stored noRows theme).length ≤ 1 := by
    rw [listValues_noRows]
    exact Nat.zero_le 1
  have hquiet : (run (step ["user-1"] theme) (State.start noRows) setBoth).Quiet := by
    intro n value
    match n with
    | 0 => exact ⟨nofun, nofun⟩
    | 1 => exact ⟨nofun, nofun⟩
    | n + 2 => exact ⟨nofun, nofun⟩
  have hone := (hall .stored ["user-1"] theme noRows hnone setBoth hquiet).1
  have hperm := KvOrder.stored.perm
    ((run (step ["user-1"] theme) (State.start noRows) setBoth).table.cells theme)
  unfold listValues at hone
  rw [List.length_map, hperm.length_eq] at hone
  exact absurd hone (by decide)

end PlmCore.Pno.Preferences
