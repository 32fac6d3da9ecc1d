/-
The administrators of pno: `set_admin` and `deactivate_user` of `users.rs`.

A demotion counts the other active admins and then updates the row, in two statements without a
transaction. A deactivation updates the row at once and counts nothing.
-/
import PlmCore.Lib.Run

set_option autoImplicit false

namespace PlmCore.Pno.Admins

open PlmCore.Lib

/-- The columns of `pno_user` the two requests read and write. -/
structure UserRow where
  id : String
  active : Bool
  isAdmin : Bool
  deriving DecidableEq

/-- The bodies of `PUT /users/{userId}/admin` and `DELETE /users/{userId}`. -/
inductive Request
  | setAdmin (userId : String) (isAdmin : Option Bool)
  | deactivate (userId : String)
  deriving DecidableEq

/-- The statement a request comes to next. -/
inductive Task
  | count (userId : String)
  | setAdmin (userId : String) (isAdmin : Bool)
  | deactivate (userId : String)
  deriving DecidableEq

/-- The table and the requests in flight. -/
structure State where
  users : List UserRow
  tasks : List Task
  deriving DecidableEq

/-- A request comes in, makes its next statement, or fails at it. -/
inductive Event
  | request (r : Request)
  | advance (i : Nat)
  | fail (i : Nat)
  deriving DecidableEq

namespace State

variable (s : State)

/-- `SELECT COUNT(*) FROM pno_user WHERE active = 1 AND is_admin = 1 AND id != $1`. -/
def others (userId : String) : Nat :=
  s.users.countP fun u => u.active = true ∧ u.isAdmin = true ∧ u.id ≠ userId

/-- The rows of a user rewritten. -/
def update (userId : String) (f : UserRow → UserRow) : State :=
  { s with users := s.users.map fun u => if u.id = userId then f u else u }

/-- A request up to its first statement. Without `isAdmin` it is refused. -/
def receive : Request → State
  | .setAdmin _ none => s
  | .setAdmin userId (some true) => { s with tasks := s.tasks ++ [.setAdmin userId true] }
  | .setAdmin userId (some false) => { s with tasks := s.tasks ++ [.count userId] }
  | .deactivate userId => { s with tasks := s.tasks ++ [.deactivate userId] }

/-- The next statement of the task at `i`. -/
def advance (i : Nat) : State :=
  match s.tasks[i]? with
  | none => s
  | some (.count userId) =>
    -- the last admin stays
    if s.others userId = 0 then { s with tasks := s.tasks.eraseIdx i }
    else { s with tasks := s.tasks.set i (.setAdmin userId false) }
  | some (.setAdmin userId isAdmin) =>
    { s with tasks := s.tasks.eraseIdx i }.update userId fun u => { u with isAdmin }
  | some (.deactivate userId) =>
    { s with tasks := s.tasks.eraseIdx i }.update userId fun u => { u with active := false }

def step : Event → State
  | .request r => s.receive r
  | .advance i => s.advance i
  | .fail i => { s with tasks := s.tasks.eraseIdx i }

/-- Some user is active and admin. -/
def HasAdmin : Prop := ∃ u ∈ s.users, u.active = true ∧ u.isAdmin = true

instance : Decidable s.HasAdmin :=
  inferInstanceAs (Decidable (∃ u ∈ s.users, u.active = true ∧ u.isAdmin = true))

/-- The statement takes the admin flag or the activity of a user. -/
def removes (e : Event) (userId : String) : Prop :=
  ∃ i, e = .advance i ∧
    (s.tasks[i]? = some (.setAdmin userId false) ∨ s.tasks[i]? = some (.deactivate userId))

/-- The guard of `set_admin` holds when a demotion or a deactivation is written. -/
def Guarded (e : Event) : Prop := ∀ userId, s.removes e userId → s.others userId ≠ 0

end State

variable {s : State}

theorem others_ne_zero {userId : String} :
    s.others userId ≠ 0 ↔ ∃ u ∈ s.users, (u.active = true ∧ u.isAdmin = true) ∧ u.id ≠ userId := by
  rw [State.others, ← Nat.pos_iff_ne_zero, List.countP_pos_iff]
  simp [and_assoc]

/-- Taking a user the flag or the activity leaves an admin exactly when there is another. -/
theorem hasAdmin_update {userId : String} {f : UserRow → UserRow}
    (hf : ∀ u, ¬ ((f u).active = true ∧ (f u).isAdmin = true)) :
    (s.update userId f).HasAdmin ↔ s.others userId ≠ 0 := by
  rw [others_ne_zero]
  constructor
  · rintro ⟨_, hrow, hadmin⟩
    obtain ⟨u, hu, rfl⟩ := List.mem_map.mp hrow
    by_cases hid : u.id = userId
    · rw [if_pos hid] at hadmin
      exact absurd hadmin (hf u)
    · rw [if_neg hid] at hadmin
      exact ⟨u, hu, hadmin, hid⟩
  · rintro ⟨u, hu, hadmin, hid⟩
    refine ⟨u, List.mem_map.mpr ⟨u, hu, if_neg hid⟩, hadmin⟩

/-- Giving the flag takes it from nobody. -/
theorem hasAdmin_promote (h : s.HasAdmin) (userId : String) :
    (s.update userId fun u => { u with isAdmin := true }).HasAdmin := by
  obtain ⟨u, hu, hactive, hadmin⟩ := h
  refine ⟨_, List.mem_map.mpr ⟨u, hu, rfl⟩, ?_⟩
  by_cases hid : u.id = userId
  · rw [if_pos hid]
    exact ⟨hactive, rfl⟩
  · rw [if_neg hid]
    exact ⟨hactive, hadmin⟩

/-- **One step** keeps an admin exactly when its guard holds. -/
theorem hasAdmin_step (h : s.HasAdmin) (e : Event) : (s.step e).HasAdmin ↔ s.Guarded e := by
  cases e with
  | request r =>
    -- requests that are accepted only start tasks
    have hsame : (s.step (.request r)).users = s.users := by
      cases r with
      | setAdmin userId isAdmin =>
        cases isAdmin with
        | none => rfl
        | some isAdmin => cases isAdmin <;> rfl
      | deactivate userId => rfl
    refine iff_of_true ?_ ?_
    · rw [State.HasAdmin, hsame]
      exact h
    · rintro userId ⟨i, he, -⟩
      cases he
  | fail i =>
    refine iff_of_true h ?_
    rintro userId ⟨j, he, -⟩
    cases he
  | advance i =>
    simp only [State.step, State.advance, State.Guarded, State.removes, Event.advance.injEq,
      exists_eq_left']
    cases htask : s.tasks[i]? with
    | none => simpa using h
    | some task =>
      cases task with
      | count userId =>
        refine iff_of_true ?_ (by simp)
        change State.HasAdmin (if _ then _ else _)
        split
        · exact h
        · exact h
      | setAdmin userId isAdmin =>
        cases isAdmin with
        | true =>
          -- a promotion adds an administrator
          refine iff_of_true (hasAdmin_promote (s := { s with tasks := _ }) h userId) (by simp)
        | false =>
          -- an UPDATE that removes one leaves the others
          refine (hasAdmin_update (by simp)).trans ?_
          simp [State.others]
      | deactivate userId =>
        refine (hasAdmin_update (by simp)).trans ?_
        simp [State.others]

/-- **There is always an admin** along a run, in every state reached, exactly when the guard holds
at every demotion and every deactivation that is written. -/
theorem always_admin_iff {start : State} (h : start.HasAdmin) (es : List Event) :
    (∀ past, past <+: es → (run State.step start past).HasAdmin) ↔
      Along State.step State.Guarded start es :=
  Along.iff_invariant State.HasAdmin (fun _ e hs => hasAdmin_step hs e) h es

/-- One admin and one other user. -/
def oneAdmin : State := ⟨[⟨"alice", true, true⟩, ⟨"bob", true, false⟩], []⟩

/-- Bob is made admin, and then alice may go. -/
theorem always_admin_after_handover :
    (∀ past, past <+: [.request (.setAdmin "bob" (some true)), .advance 0,
        .request (.deactivate "alice"), .advance 0] →
      (run State.step oneAdmin past).HasAdmin) ↔
      Along State.step State.Guarded oneAdmin [.request (.setAdmin "bob" (some true)), .advance 0,
        .request (.deactivate "alice"), .advance 0] :=
  always_admin_iff ⟨⟨"alice", true, true⟩, by decide, rfl, rfl⟩ _

/-- **The last admin goes**: by a deactivation, which has no guard, and by two demotions that each
counted the other. -/
theorem last_admin_goes :
    (oneAdmin.HasAdmin ∧
      ¬ (run State.step oneAdmin [.request (.deactivate "alice"), .advance 0]).HasAdmin) ∧
    ¬ (run State.step ⟨[⟨"alice", true, true⟩, ⟨"bob", true, true⟩], []⟩
      [.request (.setAdmin "alice" (some false)), .request (.setAdmin "bob" (some false)),
        .advance 0, .advance 1, .advance 0, .advance 0]).HasAdmin := by
  decide

end PlmCore.Pno.Admins
