/-
The transactional outbox: a service writes its events as rows of `event_outbox` within the database
transaction of the operation, and pollers publish the rows and delete them.

A run interleaves statements of any number of operations and of any number of poller passes. An
enqueue, a publish and a DELETE are steps of their own, each of which can fail, and an operation or a
pass can end between any two of them. What an operation enqueued, what was published and which passes
finished is recorded beside the table.

The row ids are UUIDs in the code; here they are numbers in the order in which they are drawn.
-/
import Mathlib.Data.List.Nodup
import Mathlib.Logic.Function.Basic
import PlmCore.Lib.Run

set_option autoImplicit false

namespace PlmCore.Shared

open PlmCore.Lib

/-- A row of `event_outbox`. -/
structure OutboxRow where
  id : Nat
  destination : String
  payload : String
  createdAt : Nat
  deriving DecidableEq

/-- What a publisher is called with: the subject, and the envelope before it is JSON. -/
structure Message (α : Type) where
  destination : String
  payload : α

/-- The parts the code relies on. -/
structure Environment (α : Type) where
  /-- `ObjectMapper.writeValueAsString` of the envelope with its id; `none` is an exception. -/
  writeValueAsString : α → Nat → Option String
  /-- After a failed statement PostgreSQL refuses the rest of the transaction and its commit; H2
  undoes the statement and goes on. -/
  abortsOnError : Bool

/-! ## Operations -/

/-- A database transaction of a business operation. -/
structure Operation (α : Type) where
  /-- The messages it asked to enqueue. -/
  enqueued : List (Message α)
  /-- The rows it inserted. -/
  rows : List OutboxRow
  /-- It can only be rolled back. -/
  doomed : Bool

section Publishers

variable {α : Type} (env : Environment α)

/-- The row a message is written as. -/
def rowOf (m : Message α) (id now : Nat) : Option OutboxRow :=
  (env.writeValueAsString m.payload id).map fun json => ⟨id, m.destination, json, now⟩

/-- `PlmEventPublisher.enqueue`: every exception is caught and logged. -/
def enqueue (m : Message α) (id now : Nat) (insertFails : Bool) (o : Operation α) : Operation α :=
  match rowOf env m id now with
  | none => { o with enqueued := o.enqueued ++ [m] }
  | some row =>
    if o.doomed || insertFails then
      { o with
        enqueued := o.enqueued ++ [m]
        doomed := o.doomed || env.abortsOnError }
    else
      { o with
        enqueued := o.enqueued ++ [m]
        rows := o.rows ++ [row] }

/-- `Outbox.enqueueOnConn`: an error goes to the caller, whose `errdefer` rolls back. -/
def enqueueOnConn (m : Message α) (id now : Nat) (insertFails : Bool) (o : Operation α) :
    Operation α :=
  match rowOf env m id now with
  | none =>
    { o with
      enqueued := o.enqueued ++ [m]
      doomed := true }
  | some row =>
    if o.doomed || insertFails then
      { o with
        enqueued := o.enqueued ++ [m]
        doomed := true }
    else
      { o with
        enqueued := o.enqueued ++ [m]
        rows := o.rows ++ [row] }

end Publishers

/-! ## Pollers -/

/-- The pollers: `OutboxPoller.poll` of psm-api, `pollOnce` of dst and `poll_outbox` of
platform-api. -/
inductive Poller
  | poll
  | pollOnce
  | pollOutbox
  deriving DecidableEq

/-- The `SELECT` is `FOR UPDATE SKIP LOCKED`. -/
def Poller.skipsLocked : Poller → Bool
  | .poll => true
  | .pollOnce => true
  | .pollOutbox => false

/-- The pass is one database transaction; else each statement is its own. -/
def Poller.transactional : Poller → Bool
  | .poll => true
  | .pollOnce => true
  | .pollOutbox => false

/-- The failure of a `DELETE` is caught in the loop, as that of a publish is; else it ends the
pass. -/
def Poller.catchesDelete : Poller → Bool
  | .poll => true
  | .pollOnce => false
  | .pollOutbox => false

/-- A pass of a poller over the rows it read. -/
structure Pass where
  batch : List OutboxRow
  /-- The rows it has not published yet. -/
  rest : List OutboxRow
  /-- The row it published last, which it has not deleted yet. -/
  current : Option OutboxRow
  /-- The ids of the rows it deleted in its transaction. -/
  deleted : List Nat
  /-- A statement failed, and the database will refuse the commit. -/
  aborted : Bool
  /-- Every publish succeeded. -/
  clean : Bool
  deriving DecidableEq

/-- `LIMIT 50`. -/
def batchSize : Nat := 50

/-- The pass that read some rows, in this order. -/
def Pass.start (batch : List OutboxRow) : Pass := ⟨batch, batch, none, [], false, true⟩

/-! ## Runs -/

/-- The table with the operations and passes under way, and what happened. -/
structure Outbox (α : Type) where
  table : List OutboxRow
  /-- The ids of the rows a pass has locked. -/
  locked : List Nat
  nextId : Nat
  operations : Nat → Option (Operation α)
  passes : Nat → Option Pass
  committed : List (Operation α)
  discarded : List (Operation α)
  published : List OutboxRow
  finished : List Pass

/-- Before anything was enqueued. -/
def Outbox.empty (α : Type) : Outbox α := ⟨[], [], 0, fun _ => none, fun _ => none, [], [], [], []⟩

/-- The steps. A restart of a service is a `rollback` of its operations and a `restart` of its
pass. -/
inductive OutboxEvent (α : Type)
  | begin (operation : Nat)
  | enqueue (operation : Nat) (message : Message α) (now : Nat) (insertFails : Bool)
  | enqueueOnConn (operation : Nat) (message : Message α) (now : Nat) (insertFails : Bool)
  | commit (operation : Nat)
  | rollback (operation : Nat)
  | select (worker : Nat) (order : List OutboxRow)
  | publish (worker : Nat) (fails : Bool)
  | delete (worker : Nat) (fails : Bool)
  | finish (worker : Nat)
  | restart (worker : Nat)

namespace Outbox

variable {α : Type}

/-- The operation under way is replaced. -/
def setOperation (n : Nat) (o : Operation α) (s : Outbox α) : Outbox α :=
  { s with
    operations := Function.update s.operations n (some o)
    nextId := s.nextId + 1 }

/-- The operation ends without a trace in the table. -/
def discard (n : Nat) (o : Operation α) (s : Outbox α) : Outbox α :=
  { s with
    operations := Function.update s.operations n none
    discarded := s.discarded ++ [o] }

/-- `COMMIT` of an operation; the database rolls a doomed one back. -/
def commit (n : Nat) (o : Operation α) (s : Outbox α) : Outbox α :=
  if o.doomed then s.discard n o
  else
    { s with
      operations := Function.update s.operations n none
      table := s.table ++ o.rows
      committed := s.committed ++ [o] }

/-- The pass under way is replaced. -/
def setPass (w : Nat) (p : Pass) (s : Outbox α) : Outbox α :=
  { s with passes := Function.update s.passes w (some p) }

/-- A pass ends; its row locks go. -/
def endPass (poller : Poller) (w : Nat) (p : Pass) (s : Outbox α) : Outbox α :=
  { s with
    passes := Function.update s.passes w none
    locked := if poller.skipsLocked then s.locked.filter (· ∉ p.batch.map (·.id)) else s.locked }

/-- The rows the `SELECT` of a poller can return. -/
def visible (poller : Poller) (s : Outbox α) : List OutboxRow :=
  if poller.skipsLocked then s.table.filter (·.id ∉ s.locked) else s.table

/-- `SELECT … ORDER BY created_at LIMIT 50`; rows of one time come in any order. -/
def select (poller : Poller) (w : Nat) (order : List OutboxRow) (s : Outbox α) : Outbox α :=
  if s.passes w = none ∧ order.Perm (s.visible poller) ∧ order.Pairwise (·.createdAt ≤ ·.createdAt) then
    { s with
      passes := Function.update s.passes w (some (Pass.start (order.take batchSize)))
      locked :=
        if poller.skipsLocked then s.locked ++ (order.take batchSize).map (·.id) else s.locked }
  else s

/-- `publish` of the next row; a failure is logged, and the row left. -/
def publish (w : Nat) (p : Pass) (row : OutboxRow) (rest : List OutboxRow) (fails : Bool)
    (s : Outbox α) : Outbox α :=
  if fails then
    s.setPass w { p with
      rest := rest
      clean := false }
  else
    { s.setPass w { p with
        rest := rest
        current := some row } with
      published := s.published ++ [row] }

/-- `DELETE FROM event_outbox WHERE id = ?` of the row just published. -/
def delete (env : Environment α) (poller : Poller) (w : Nat) (p : Pass) (row : OutboxRow)
    (fails : Bool) (s : Outbox α) : Outbox α :=
  if p.aborted || fails then
    if poller.catchesDelete then
      s.setPass w { p with
        current := none
        aborted := p.aborted || env.abortsOnError }
    else s.endPass poller w p
  else if poller.transactional then
    s.setPass w { p with
      current := none
      deleted := p.deleted ++ [row.id] }
  else
    { s.setPass w { p with current := none } with table := s.table.filter (·.id ≠ row.id) }

/-- The end of a pass that has come through its rows, with the commit of its transaction. -/
def finish (poller : Poller) (w : Nat) (p : Pass) (s : Outbox α) : Outbox α :=
  if p.aborted then s.endPass poller w p
  else
    { s.endPass poller w p with
      table := s.table.filter (·.id ∉ p.deleted)
      finished := s.finished ++ [p] }

/-- One step. A step of an operation or a pass that is not under way does nothing. -/
def step (env : Environment α) (poller : Poller) (s : Outbox α) : OutboxEvent α → Outbox α
  | .begin n =>
    match s.operations n with
    | none => { s with operations := Function.update s.operations n (some ⟨[], [], false⟩) }
    | some _ => s
  | .enqueue n m now fails =>
    match s.operations n with
    | some o => s.setOperation n (Shared.enqueue env m s.nextId now fails o)
    | none => s
  | .enqueueOnConn n m now fails =>
    match s.operations n with
    | some o => s.setOperation n (Shared.enqueueOnConn env m s.nextId now fails o)
    | none => s
  | .commit n =>
    match s.operations n with
    | some o => s.commit n o
    | none => s
  | .rollback n =>
    match s.operations n with
    | some o => s.discard n o
    | none => s
  | .select w order => s.select poller w order
  | .publish w fails =>
    match s.passes w with
    | some p =>
      match p.current, p.rest with
      | none, row :: rest => s.publish w p row rest fails
      | _, _ => s
    | none => s
  | .delete w fails =>
    match s.passes w with
    | some p =>
      match p.current with
      | some row => s.delete env poller w p row fails
      | none => s
    | none => s
  | .finish w =>
    match s.passes w with
    | some p =>
      match p.current, p.rest with
      | none, [] => s.finish poller w p
      | _, _ => s
    | none => s
  -- the process of the poller dies; its transaction is rolled back
  | .restart w =>
    match s.passes w with
    | some p => s.endPass poller w p
    | none => s

/-- The rows of the operations that committed. -/
def committedRows (s : Outbox α) : List OutboxRow := s.committed.flatMap (·.rows)

/-- The rows of the operations that were rolled back. -/
def discardedRows (s : Outbox α) : List OutboxRow := s.discarded.flatMap (·.rows)

end Outbox

end PlmCore.Shared
