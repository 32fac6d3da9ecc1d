/-
The stored files of the file store (`data_service.zig`).

A file is a row of `data_object` and a blob under the row's id. Requests run side by side, and
each SQL statement and each call to the object store is a step of its own; a step of a request
may fail. A transaction's changes are seen when it commits, and until then it keeps the rows it
has written locked; an INSERT waits for a transaction that has written a row of its key. Ids
are minted in order.
-/
import Mathlib.Data.List.Basic
import PlmCore.Lib.Run

set_option autoImplicit false

namespace PlmCore.Dst.DataService

open PlmCore.Lib

abbrev Uuid := Nat

/-! ## The two stores -/

/-- The columns of `uq_data_object_sha_ps`. -/
structure Key where
  sha256 : String
  project_space_id : String
  deriving DecidableEq

/-- A row of `data_object`. -/
structure DataObject where
  id : Uuid
  key : Key
  location : Uuid
  ref_count : Int
  deriving DecidableEq

/-- SELECT by id. -/
def rowOf (rows : List DataObject) (id : Uuid) : Option DataObject := rows.find? (·.id = id)

/-- UPDATE `ref_count = ref_count + d` by id. -/
def addRefs (rows : List DataObject) (id : Uuid) (d : Int) : List DataObject :=
  rows.map fun r => if r.id = id then { r with ref_count := r.ref_count + d } else r

/-- DELETE by id. -/
def deleteById (rows : List DataObject) (id : Uuid) : List DataObject := rows.filter (·.id ≠ id)

/-! ## Requests -/

inductive Op where
  | reference
  | unreference
  | delete
  deriving DecidableEq

inductive Request where
  | upload (key : Key)
  | on (op : Op) (id : Uuid) (ps : String)

/-- Where a request stands: the statement or call it makes next. `hit` says that the statement
before changed a row. -/
inductive Task where
  | store (key : Key)
  | select (id : Uuid) (key : Key)
  /-- The upload of content that is there: its blob goes, the row is counted up. -/
  | discard (id eid : Uuid) (ps : String)
  | count (eid : Uuid) (ps : String)
  | commitCount (eid : Uuid) (ps : String) (hit : Bool)
  | insert (id : Uuid) (key : Key)
  | enqueueCreated (id : Uuid) (key : Key)
  | commitInsert (id : Uuid) (key : Key)
  | load (op : Op) (id : Uuid) (ps : String)
  | update (id : Uuid) (ps : String)
  /-- The load that ends an upload or a reference. -/
  | reload (id : Uuid) (ps : String) (hit : Bool)
  | decrement (id : Uuid)
  /-- `gc` if it is an unreference that deletes. -/
  | deleteRow (gc : Bool) (id location : Uuid)
  | enqueueDeleted (gc : Bool) (id location : Uuid) (hit : Bool)
  | commitDelete (gc : Bool) (id location : Uuid) (hit : Bool)
  | deleteBlob (gc : Bool) (id location : Uuid) (hit : Bool)
  | returned
  deriving DecidableEq

def Request.task : Request → Task
  | upload key => .store key
  | on op id ps => .load op id ps

/-- A transaction under way that has written the row. -/
def Task.locks (id : Uuid) : Task → Bool
  | commitCount eid _ hit => eid = id && hit
  | enqueueDeleted _ id' _ hit | commitDelete _ id' _ hit => id' = id && hit
  | _ => false

/-- A transaction under way that has inserted a row of the key. -/
def Task.inserting (key : Key) : Task → Bool
  | enqueueCreated _ key' | commitInsert _ key' => key' = key
  | _ => false

/-- The rows, the blobs and the requests. `next` is the next id. The last fields record what has
come of it so far: by id the successful uploads and references, the unreferences that have taken
effect and the calls of unreference, and for each success reported whether it took effect. -/
structure State where
  next : Uuid
  rows : List DataObject
  blobs : List Uuid
  tasks : List Task
  successes : Uuid → Nat
  unreferenced : Uuid → Nat
  calls : Uuid → Nat
  reports : List Bool

def State.initial : State := ⟨0, [], [], [], fun _ => 0, fun _ => 0, fun _ => 0, []⟩

def bump (f : Uuid → Nat) (id : Uuid) (n : Uuid) : Nat := if n = id then f n + 1 else f n

section Steps

variable (s : State)

def State.move (i : Nat) (t : Task) : State := { s with tasks := s.tasks.set i t }

def State.report (i : Nat) (tookEffect : Bool) : State :=
  { s.move i .returned with reports := tookEffect :: s.reports }

def State.locked (id : Uuid) : Bool := s.tasks.any (·.locks id)

/-- A committed row of the key. -/
def State.selectByKey (key : Key) : Option DataObject := s.rows.find? (·.key = key)

/-- An INSERT waits for the transaction that has written a row of its key. -/
def State.insertWaits (key : Key) : Bool :=
  s.tasks.any (·.inserting key) || s.rows.any fun r => r.key = key && s.locked r.id

/-- A step of request `i` that succeeds. -/
def State.succeed (i : Nat) : Task → State
  | .store key => { s.move i (.select s.next key) with
      next := s.next + 1, blobs := s.next :: s.blobs }
  | .select id key =>
    match s.selectByKey key with
    | some r => s.move i (.discard id r.id key.project_space_id)
    | none => s.move i (.insert id key)
  | .discard id eid ps => { s.move i (.count eid ps) with blobs := s.blobs.filter (· ≠ id) }
  | .count eid ps =>
    if s.locked eid then s
    else s.move i (.commitCount eid ps (rowOf s.rows eid).isSome)
  | .commitCount eid ps hit => { s.move i (.reload eid ps hit) with
      rows := if hit then addRefs s.rows eid 1 else s.rows }
  | .insert id key =>
    if s.insertWaits key then s
    else if (s.selectByKey key).isSome then s.move i .returned
    else s.move i (.enqueueCreated id key)
  | .enqueueCreated id key => s.move i (.commitInsert id key)
  | .commitInsert id key => { s.report i true with
      rows := s.rows ++ [⟨id, key, id, 1⟩], successes := bump s.successes id }
  | .load op id ps =>
    match rowOf s.rows id with
    | some r =>
      if r.key.project_space_id = ps then
        match op with
        | .reference => s.move i (.update id ps)
        | .unreference =>
          if r.ref_count ≤ 1 then s.move i (.deleteRow true id r.location)
          else s.move i (.decrement id)
        | .delete => s.move i (.deleteRow false id r.location)
      else s.move i .returned
    | none => s.move i .returned
  | .update id ps =>
    if s.locked id then s
    else { s.move i (.reload id ps (rowOf s.rows id).isSome) with rows := addRefs s.rows id 1 }
  | .reload id ps hit =>
    match rowOf s.rows id with
    | some r =>
      if r.key.project_space_id = ps then
        { s.report i hit with successes := bump s.successes id }
      else s.move i .returned
    | none => s.move i .returned
  | .decrement id =>
    if s.locked id then s
    else if (rowOf s.rows id).isSome then
      { s.report i true with
        rows := addRefs s.rows id (-1), unreferenced := bump s.unreferenced id }
    else s.report i false
  | .deleteRow gc id location =>
    if s.locked id then s
    else s.move i (.enqueueDeleted gc id location (rowOf s.rows id).isSome)
  | .enqueueDeleted gc id location hit => s.move i (.commitDelete gc id location hit)
  | .commitDelete gc id location hit => { s.move i (.deleteBlob gc id location hit) with
      rows := if hit then deleteById s.rows id else s.rows
      unreferenced := if gc && hit then bump s.unreferenced id else s.unreferenced }
  -- a delete that finds the row gone has nothing left to do
  | .deleteBlob gc id location hit =>
    { s.report i (if gc then hit else (rowOf s.rows id).isNone) with
      blobs := s.blobs.filter (· ≠ location) }
  | .returned => s

/-- A step of request `i` that fails: the transaction is rolled back and the request reports the
failure. That of `s3.delete` is logged, and the request goes on. -/
def State.fail (i : Nat) : Task → State
  | .discard _ eid ps => s.move i (.count eid ps)
  | .deleteBlob gc id _ hit => s.report i (if gc then hit else (rowOf s.rows id).isNone)
  | _ => s.move i .returned

/-- A request comes, or one under way makes a step, that may fail. -/
inductive Event where
  | call (r : Request)
  | step (i : Nat) (ok : Bool)

def step : Event → State
  | .call r => { s with
      tasks := s.tasks ++ [r.task]
      calls := match r with
        | .on .unreference id _ => bump s.calls id
        | _ => s.calls }
  | .step i ok =>
    match s.tasks[i]? with
    | some t => if ok then s.succeed i t else s.fail i t
    | none => s

end Steps

/-! ## What is promised -/

/-- An upload or a reference that has been counted and is still to report. -/
def Task.counted (id : Uuid) : Task → Bool
  | reload eid _ hit => eid = id && hit
  | _ => false

/-- The successful uploads and references of a file that are not yet unreferenced, those that
are still to report included. -/
def State.references (s : State) (id : Uuid) : Int :=
  s.successes id - s.unreferenced id + s.tasks.countP (·.counted id)

/-- Unreference is called at most once per earlier successful upload or reference. -/
def Promised (s : State) : Event → Prop
  | .call (.on .unreference id _) => s.calls id < s.successes id
  | _ => True

/-- A row or a blob goes by a delete, or when nothing references it. -/
def RemovedRightly (s : State) (e : Event) : Prop :=
  ∀ id, rowOf s.rows id ≠ none ∧ rowOf (step s e).rows id = none ∨
      id ∈ s.blobs ∧ id ∉ (step s e).blobs →
    (step s e).references id = 0 ∨ ∃ i location hit, e = .step i true ∧
      (s.tasks[i]? = some (.commitDelete false id location hit) ∨
        ∃ id', s.tasks[i]? = some (.deleteBlob false id' id hit))

/-- The count of each row is right and not zero, what reported success took effect, and when no
request is running the rows and the blobs correspond. -/
structure Right (s : State) : Prop where
  counts : ∀ id r, rowOf s.rows id = some r →
    r.ref_count = s.references id ∧ 1 ≤ r.ref_count
  reports : ∀ b ∈ s.reports, b = true
  stores : (∀ t ∈ s.tasks, t = .returned) → (s.rows.map (·.location)).Perm s.blobs

end PlmCore.Dst.DataService
