/-
The secrets of the platform service, `vault.rs`.

All secrets are fields of one Vault entry. A mutation reads the whole map and later writes the
whole map back, without check-and-set, so it keeps what other requests wrote only when nothing
was written between its read and its write.
-/
import PlmCore.Lib.Run
import PlmCore.Spe.Gateway

set_option autoImplicit false

namespace PlmCore.Platform.Vault

open PlmCore.Lib

/-- The fields of the entry. -/
abbrev Secrets (Value : Type) := String → Option Value

/-- The bodies and paths of the three mutations. -/
inductive Request
  | create (key value : Option String)
  | update (key : String) (value : Option String)
  | delete_key (key : String)
  deriving DecidableEq

/-- A mutation that passed its checks. -/
inductive Mutation
  | create (key value : String)
  | update (key value : String)
  | delete_key (key : String)
  deriving DecidableEq

def Mutation.key : Mutation → String
  | .create key _ | .update key _ | .delete_key key => key

/-- The checks before the map is read. -/
def validate (is_admin : Bool) : Request → Except (Nat × String) Mutation
  | r =>
    if is_admin = false then .error (403, "MANAGE_SECRETS requires admin")
    else match r with
      | .create (some key) value =>
        if Spe.trim key.toList = [] then .error (400, "key is required")
        else .ok (.create key (value.getD ""))
      | .create none _ => .error (400, "key is required")
      | .update key value => .ok (.update key (value.getD ""))
      | .delete_key key => .ok (.delete_key key)

section Store

variable {Value : Type} (string : String → Value)

/-- The map a request writes back, from the one it read. Without one it ends: a create with a
conflict, a deletion with success. -/
def modify (map : Secrets Value) : Mutation → Except (Option (Nat × String)) (Secrets Value)
  | .create key value =>
    if (map key).isSome then .error (some (409, "Secret key already exists: " ++ key))
    else .ok (Function.update map key (some (string value)))
  | .update key value => .ok (Function.update map key (some (string value)))
  | .delete_key key =>
    if (map key).isSome then .ok (Function.update map key none) else .error none

/-- What a request does next: it reads the map, or writes back what it made of the one it read. -/
inductive Task (Value : Type)
  | read (m : Mutation)
  | write (m : Mutation) (seen map : Secrets Value)

/-- The entry, absent until the first write, the requests in flight, and the record of those that
reported success. -/
structure State (Value : Type) where
  entry : Option (Secrets Value)
  tasks : List (Task Value)
  succeeded : List Mutation

/-- A request comes in; the one at `i` makes its next step; the step fails, and Vault applied the
write or not. -/
inductive Event
  | request (is_admin : Bool) (r : Request)
  | advance (i : Nat)
  | fail (i : Nat) (applied : Bool)
  deriving DecidableEq

namespace State

variable {Value : Type} (string : String → Value) (s : State Value)

/-- `read_all`: the empty map where Vault has no entry. -/
def read_all : Secrets Value := s.entry.getD fun _ => none

def advance (i : Nat) : State Value :=
  match s.tasks[i]? with
  | none => s
  | some (.read m) =>
    match modify string s.read_all m with
    | .ok map => { s with tasks := s.tasks.set i (.write m s.read_all map) }
    | .error (some _) => { s with tasks := s.tasks.eraseIdx i }
    | .error none => { s with tasks := s.tasks.eraseIdx i, succeeded := s.succeeded ++ [m] }
  | some (.write m _ map) =>
    { s with
      entry := some map
      tasks := s.tasks.eraseIdx i
      succeeded := s.succeeded ++ [m] }

/-- A step that fails ends the request with an error. -/
def fail (i : Nat) (applied : Bool) : State Value :=
  match s.tasks[i]?, applied with
  | some (.write _ _ map), true => { s with entry := some map, tasks := s.tasks.eraseIdx i }
  | _, _ => { s with tasks := s.tasks.eraseIdx i }

def step : Event → State Value
  | .request is_admin r =>
    match validate is_admin r with
    | .ok m => { s with tasks := s.tasks ++ [.read m] }
    | .error _ => s
  | .advance i => s.advance string i
  | .fail i applied => s.fail i applied

end State

/-- What a mutation means when it runs alone. A create needs an absent key. -/
def perform (map : Secrets Value) : Mutation → Option (Secrets Value)
  | .create key value =>
    if map key = none then some (Function.update map key (some (string value))) else none
  | .update key value => some (Function.update map key (some (string value)))
  | .delete_key key => some (Function.update map key none)

/-- Mutations performed one after the other. -/
def performAll (map : Secrets Value) (ms : List Mutation) : Option (Secrets Value) :=
  ms.foldlM (perform string) map

/-- The key a request names. -/
def Request.key? : Request → Option String
  | .create key _ => key
  | .update key _ | .delete_key key => some key

namespace State

variable (s : State Value)

/-- A write finds every other key as its request read it, and a create its own key absent. A write
that is reported as failed was not applied. -/
def Undisturbed : Event → Prop
  | .request .. => True
  | .advance i => ∀ m seen map, s.tasks[i]? = some (.write m seen map) →
      (∀ key, key ≠ m.key → s.read_all key = seen key) ∧
        ∀ key value, m = .create key value → s.read_all key = none
  | .fail i applied => applied = true → ∀ m seen map, s.tasks[i]? ≠ some (.write m seen map)

/-- The entry is what the successful requests make of the first one, in the order they reported,
and every request in flight writes what it made of the map it read. -/
structure Linear (first : Secrets Value) : Prop where
  replay : performAll string first s.succeeded = some s.read_all
  made : ∀ m seen map, .write m seen map ∈ s.tasks → modify string seen m = .ok map

end State

/-! ## What single steps do -/

@[simp] theorem read_all_some (map : Secrets Value) (tasks : List (Task Value))
    (succeeded : List Mutation) : (State.mk (some map) tasks succeeded).read_all = map := rfl

theorem performAll_append (first : Secrets Value) (ms : List Mutation) (m : Mutation) :
    performAll string first (ms ++ [m]) = (performAll string first ms).bind (perform string · m) := by
  rw [performAll, List.foldlM_append]
  simp [performAll]

/-- A request that ends with success without a write had nothing to do. -/
theorem perform_of_modify_error {map : Secrets Value} {m : Mutation}
    (h : modify string map m = .error none) : perform string map m = some map := by
  cases m with
  | create key value =>
    simp only [modify] at h
    split at h <;> cases h
  | update key value => cases h
  | delete_key key =>
    simp only [modify] at h
    split at h
    · cases h
    · rename_i habsent
      have hnone : map key = none := Option.not_isSome_iff_eq_none.mp habsent
      rw [perform, ← hnone, Function.update_eq_self]

/-- **A write** stores what the request makes of the entry it finds, when only the request's own
key differs from what it read, and a create finds its key absent. -/
theorem perform_of_modify {seen map stored : Secrets Value} {m : Mutation}
    (h : modify string seen m = .ok map) (hother : ∀ key, key ≠ m.key → stored key = seen key)
    (hcreate : ∀ key value, m = .create key value → stored key = none) :
    perform string stored m = some map := by
  -- the two maps agree but for the key that is written over
  have hsame : ∀ v, Function.update stored m.key v = Function.update seen m.key v := by
    intro v
    funext key
    by_cases hkey : key = m.key
    · rw [hkey, Function.update_self, Function.update_self]
    · rw [Function.update_of_ne hkey, Function.update_of_ne hkey, hother key hkey]
  cases m with
  | create key value =>
    simp only [modify] at h
    split at h
    · cases h
    · rw [perform, if_pos (hcreate key value rfl), ← Except.ok.inj h]
      exact congrArg some (hsame _)
  | update key value =>
    rw [perform, ← Except.ok.inj h]
    exact congrArg some (hsame _)
  | delete_key key =>
    simp only [modify] at h
    split at h
    · rw [perform, ← Except.ok.inj h]
      exact congrArg some (hsame _)
    · cases h

/-- A request rewrites no other key. -/
theorem modify_other {seen map : Secrets Value} {m : Mutation} {key : String}
    (h : modify string seen m = .ok map) (hkey : m.key ≠ key) : map key = seen key := by
  have hsame : ∀ v, Function.update seen m.key v key = seen key :=
    fun v => Function.update_of_ne (Ne.symm hkey) v seen
  cases m with
  | create =>
    simp only [modify] at h
    split at h
    · cases h
    · rw [← Except.ok.inj h]
      exact hsame _
  | update =>
    rw [← Except.ok.inj h]
    exact hsame _
  | delete_key =>
    simp only [modify] at h
    split at h
    · rw [← Except.ok.inj h]
      exact hsame _
    · cases h

/-- The mutation of a request is about the key the request names. -/
theorem key_of_validate {is_admin : Bool} {r : Request} {m : Mutation}
    (h : validate is_admin r = .ok m) : r.key? = some m.key := by
  unfold validate at h
  split at h
  · cases h
  · cases r with
    | create key value =>
      cases key with
      | none => cases h
      | some key =>
        dsimp only at h
        split at h
        · cases h
        · rw [← Except.ok.inj h]
          rfl
    | update key value =>
      rw [← Except.ok.inj h]
      rfl
    | delete_key key =>
      rw [← Except.ok.inj h]
      rfl

variable {string} {s : State Value} {first : Secrets Value}

/-! ## Runs -/

theorem linear_advance (h : s.Linear string first) {i : Nat}
    (he : s.Undisturbed (.advance i)) : (s.advance string i).Linear string first := by
  have herase : ∀ m seen map, .write m seen map ∈ s.tasks.eraseIdx i →
      modify string seen m = .ok map :=
    fun m seen map hm => h.made m seen map (List.mem_of_mem_eraseIdx hm)
  unfold State.advance
  cases htask : s.tasks[i]? with
  | none => exact h
  | some task =>
    cases task with
    | read m =>
      dsimp only
      cases hmodify : modify string s.read_all m with
      | ok map =>
        refine ⟨h.replay, fun m' seen map' hm' => ?_⟩
        -- a map to be written is made by its own task, from what that task read
        obtain hold | hnew := List.mem_or_eq_of_mem_set hm'
        · exact h.made m' seen map' hold
        · cases hnew
          exact hmodify
      | error status =>
        cases status with
        | some status => exact ⟨h.replay, herase⟩
        | none =>
          -- a mutation that has nothing to write is done when it has read
          refine ⟨?_, herase⟩
          rw [performAll_append, h.replay]
          exact perform_of_modify_error string hmodify
    | write m seen map =>
      refine ⟨?_, herase⟩
      -- nothing was written since the task read, so it writes what the mutation makes of the entry
      obtain ⟨hother, hcreate⟩ := he m seen map htask
      rw [performAll_append, h.replay]
      exact perform_of_modify string (h.made m seen map (List.mem_of_getElem? htask)) hother hcreate

/-- **One step** keeps the entry linear. -/
theorem linear_step (s : State Value) (e : Event) (h : s.Linear string first)
    (he : s.Undisturbed e) : (s.step string e).Linear string first := by
  cases e with
  | advance i => exact linear_advance h he
  | request is_admin r =>
    simp only [State.step]
    cases validate is_admin r with
    | error => exact h
    | ok m =>
      refine ⟨h.replay, fun m' seen map hm' => ?_⟩
      obtain hold | hnew := List.mem_append.mp hm'
      · exact h.made m' seen map hold
      · cases List.mem_singleton.mp hnew
  | fail i applied =>
    -- a failed write was not applied, by `he`
    have hsame : s.step string (.fail i applied) = { s with tasks := s.tasks.eraseIdx i } := by
      simp only [State.step, State.fail]
      split
      · rename_i m seen map htask
        exact absurd htask (he rfl m seen map)
      · rfl
    rw [hsame]
    exact ⟨h.replay, fun m seen map hm => h.made m seen map (List.mem_of_mem_eraseIdx hm)⟩

/-- The mutation a task is about. -/
def Task.mutation : Task Value → Mutation
  | .read m | .write m _ _ => m

/-- A key has its first value in the entry and in every map about to be written. -/
structure State.Untouched (s : State Value) (key : String) (value : Option Value) : Prop where
  stored : s.read_all key = value
  pending : ∀ m seen map, .write m seen map ∈ s.tasks → map key = value
  others : ∀ task ∈ s.tasks, task.mutation.key ≠ key

/-- **A step of requests on other keys** leaves a key untouched, failed writes included. -/
theorem untouched_step {key : String} {value : Option Value} {s : State Value} {e : Event}
    (h : s.Untouched key value) (he : ∀ is_admin r, e = .request is_admin r → r.key? ≠ some key) :
    (s.step string e).Untouched key value := by
  have herase : ∀ i, State.Untouched { s with tasks := s.tasks.eraseIdx i } key value :=
    fun i => ⟨h.stored, fun m seen map hm => h.pending m seen map (List.mem_of_mem_eraseIdx hm),
      fun task ht => h.others task (List.mem_of_mem_eraseIdx ht)⟩
  cases e with
  | request is_admin r =>
    simp only [State.step]
    cases hvalid : validate is_admin r with
    | error => exact h
    | ok m =>
      refine ⟨h.stored, fun m' seen map hm' => ?_, fun task ht => ?_⟩
      · obtain hold | hnew := List.mem_append.mp hm'
        · exact h.pending m' seen map hold
        · cases List.mem_singleton.mp hnew
      · obtain hold | hnew := List.mem_append.mp ht
        · exact h.others task hold
        · rw [List.mem_singleton.mp hnew]
          intro hkey
          exact he is_admin r rfl ((key_of_validate hvalid).trans (congrArg some hkey))
  | advance i =>
    simp only [State.step, State.advance]
    cases htask : s.tasks[i]? with
    | none => exact h
    | some task =>
      have hmem := List.mem_of_getElem? htask
      cases task with
      | read m =>
        dsimp only
        cases hmodify : modify string s.read_all m with
        | ok map =>
          -- the map that is written has the value that was read
          refine ⟨h.stored, fun m' seen map' hm' => ?_, fun task ht => ?_⟩
          · obtain hold | hnew := List.mem_or_eq_of_mem_set hm'
            · exact h.pending m' seen map' hold
            · cases hnew
              have hkey : m.key ≠ key := h.others (.read m) hmem
              rw [modify_other string hmodify hkey, h.stored]
          · obtain hold | rfl := List.mem_or_eq_of_mem_set ht
            · exact h.others task hold
            · exact h.others (.read m) hmem
        | error status =>
          cases status with
          | some status => exact herase i
          | none => exact ⟨h.stored, (herase i).pending, (herase i).others⟩
      -- the whole entry is written back, and with it the first value
      | write m seen map =>
        exact ⟨h.pending m seen map hmem, (herase i).pending, (herase i).others⟩
  | fail i applied =>
    simp only [State.step, State.fail]
    split
    -- a write that failed may have been applied all the same
    · rename_i m seen map htask
      exact ⟨h.pending m seen map (List.mem_of_getElem? htask), (herase i).pending,
        (herase i).others⟩
    · exact herase i

/-- The entry before any request. -/
def start (entry : Option (Secrets Value)) : State Value := ⟨entry, [], []⟩

/-- **A key no request named** keeps its value in every run, whatever fails and interleaves. -/
theorem unnamed_key_kept (entry : Option (Secrets Value)) {es : List Event} {key : String}
    (h : ∀ is_admin r, .request is_admin r ∈ es → r.key? ≠ some key) :
    (run (State.step string) (start entry) es).read_all key = (start entry).read_all key := by
  suffices hgo : ∀ (s : State Value), s.Untouched key ((start entry).read_all key) →
      (run (State.step string) s es).Untouched key ((start entry).read_all key) by
    exact (hgo (start entry) ⟨rfl, by simp [start], by simp [start]⟩).stored
  induction es with
  | nil => exact fun s hs => hs
  | cons e es ih =>
    intro s hs
    refine ih (fun is_admin r hr => h is_admin r (List.mem_cons_of_mem e hr)) _ ?_
    refine untouched_step hs fun is_admin r he => h is_admin r ?_
    rw [he]
    exact List.mem_cons_self

/-- **Secrets lose no update** along a run whose writes are undisturbed. In every state reached the
stored map is the result of the successful requests one after the other, a create created a key
that was absent at its place, and a key no request named has its first value. -/
theorem secrets_lose_no_update {entry : Option (Secrets Value)} {es : List Event}
    (h : Along (State.step string) State.Undisturbed (start entry) es) :
    ∃ order, order.Perm (run (State.step string) (start entry) es).succeeded ∧
      performAll string (start entry).read_all order =
        some (run (State.step string) (start entry) es).read_all ∧
      (∀ before key value after, order = before ++ .create key value :: after →
        ∃ map, performAll string (start entry).read_all before = some map ∧ map key = none) ∧
      ∀ key, (∀ is_admin r, .request is_admin r ∈ es → r.key? ≠ some key) →
        (run (State.step string) (start entry) es).read_all key = (start entry).read_all key := by
  have hstart : (start entry).Linear string (start entry).read_all := ⟨rfl, by simp [start]⟩
  have hlinear := Along.invariant linear_step hstart h
  refine ⟨_, List.Perm.refl _, hlinear.replay, ?_, fun key hkey => unnamed_key_kept entry hkey⟩
  intro before key value after horder
  have hreplay := hlinear.replay
  rw [horder, performAll, List.foldlM_append] at hreplay
  obtain ⟨map, hbefore, hafter⟩ := Option.bind_eq_some_iff.mp hreplay
  refine ⟨map, hbefore, ?_⟩
  rw [List.foldlM_cons] at hafter
  obtain ⟨map', hcreate, -⟩ := Option.bind_eq_some_iff.mp hafter
  simp only [perform] at hcreate
  split at hcreate
  · assumption
  · cases hcreate

end Store

section Runs

def oneAfterTheOther : List Event :=
  [.request true (.create (some "db") (some "s1")), .advance 0, .advance 0,
    .request true (.update "smtp" (some "s2")), .advance 0, .advance 0]

/-- Both creates read the map before either writes. -/
def crossed : List Event :=
  [.request true (.create (some "db") (some "s1")),
    .request true (.create (some "smtp") (some "s2")), .advance 0, .advance 1, .advance 0, .advance 0]

theorem secrets_kept_one_after_the_other :
    (run (State.step id) (start none) oneAfterTheOther).read_all "api" = none := by
  have hundisturbed : Along (State.step (id : String → String)) State.Undisturbed (start none)
      oneAfterTheOther := by
    refine ⟨trivial, ?_, ?_, trivial, ?_, ?_, trivial⟩ <;> intro m seen map htask <;> cases htask
    · exact ⟨fun key _ => rfl, fun _ _ _ => rfl⟩
    · exact ⟨fun key _ => rfl, fun _ _ h => by cases h⟩
  obtain ⟨order, -, -, -, hkept⟩ := secrets_lose_no_update hundisturbed
  refine hkept "api" fun is_admin r hr => ?_
  simp only [oneAfterTheOther, List.mem_cons, Event.request.injEq, reduceCtorEq, false_or,
    List.not_mem_nil, or_false] at hr
  obtain ⟨-, rfl⟩ | ⟨-, rfl⟩ := hr <;> simp [Request.key?]

/-- Two creates report success, and the key of the first is gone. -/
theorem crossed_create_is_lost :
    (run (State.step (id : String → String)) (start none) crossed).tasks = [] ∧
      ¬ ∃ order, order.Perm (run (State.step (id : String → String)) (start none) crossed).succeeded ∧
        performAll id (start none).read_all order =
          some (run (State.step (id : String → String)) (start none) crossed).read_all := by
  refine ⟨rfl, ?_⟩
  rintro ⟨order, hperm, hreplay⟩
  obtain ⟨a, b, rfl⟩ := List.length_eq_two.mp hperm.length_eq
  have hmem : ∀ m ∈ [a, b], m ∈ [Mutation.create "db" "s1", Mutation.create "smtp" "s2"] :=
    fun m hm => hperm.mem_iff.mp hm
  have hdistinct : a ≠ b := by
    have hnodup : [a, b].Nodup := hperm.nodup_iff.mpr (by decide)
    simpa using hnodup
  have ha := hmem a (by simp)
  have hb := hmem b (by simp)
  -- in either order the first key is there in the end
  have hdb := congrArg (Option.map (· "db")) hreplay
  rw [List.mem_pair] at ha hb
  obtain rfl | rfl := ha <;> obtain rfl | rfl := hb
  · exact hdistinct rfl
  · revert hdb
    decide
  · revert hdb
    decide
  · exact hdistinct rfl

end Runs

end PlmCore.Platform.Vault
