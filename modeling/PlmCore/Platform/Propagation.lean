/-
Propagation of the configuration: the admin database, psm-admin, the notifications and the
consumers that pull.

A write of the metamodel publishes `ConfigChangedEvent` inside its transaction, and the listener
sends `CONFIG_CHANGED` at once: the notification is out before the commit. A consumer answers a
notification with a pull; psm-admin answers a pull with `buildFullSnapshot`, which is
synchronized and reads the tables one after the other. The version counter, the snapshot built
last and its hash live in the psm-admin process; `CONFIG_CHANGED` carries no content, so the
notifications of a consumer are a number.

`commits`, `process`, `lastSince` and what a pull records beside its snapshot are history: no
step reads them. What psm-admin fetches from platform-api counts as one more table.
-/
import Mathlib.Logic.Function.Basic
import PlmCore.Lib.Run
import PlmCore.Platform.SnapshotBuilder

set_option autoImplicit false

namespace PlmCore.Platform

open PlmCore.Lib

variable {ι τ ν : Type}

/-! ## The parties -/

/-- A pull on its way. `since` is the number of commits before the build that answered it, and
`process` the psm-admin process that did. -/
inductive Pull (κ : Type) where
  | requested
  | building
  | answered (snap : Snapshot κ) (process since : Nat)

/-- A consumer that is up: its cache with the process the snapshot held comes from, the
notifications it has not taken up, and its pulls. -/
structure Consumer (κ : Type) where
  cache : ConfigCache κ
  process : Nat
  queue : Nat
  pulls : List (Pull κ)

/-- A call of `buildFullSnapshot`: for the pull of a consumer or for psm-admin itself, the
tables it has yet to read and what it has read. -/
structure Building (ι τ ν : Type) where
  forConsumer : Option ι
  todo : List τ
  got : τ → ν
  since : Nat

/-- A psm-admin process. `lastSince` is the `since` of the build finished last. -/
structure AdminProcess (ι τ ν : Type) where
  builder : SnapshotBuilder (τ → ν)
  building : Option (Building ι τ ν)
  lastSince : Option Nat

/-- The whole. `uncommitted` are the writes that are published and not yet committed,
`unpublished` counts those committed whose notification is yet to be sent. -/
structure Net (ι τ ν : Type) where
  db : τ → ν
  commits : Nat
  uncommitted : List ((τ → ν) → τ → ν)
  unpublished : Nat
  process : Nat
  admin : Option (AdminProcess ι τ ν)
  consumers : ι → Option (Consumer (τ → ν))

/-- Nothing is up and nothing was written. -/
def Net.initial (db : τ → ν) : Net ι τ ν := ⟨db, 0, [], 0, 0, none, fun _ => none⟩

/-! ## The steps -/

/-- The order in which a build reads the tables; it reads all. -/
structure TableOrder (τ : Type) where
  tables : List τ
  complete : ∀ t, t ∈ tables

inductive NetEvent (ι τ ν : Type) where
  /-- A write publishes inside its transaction. -/
  | publishWrite (w : (τ → ν) → τ → ν)
  | commitWrite (i : Nat)
  | rollbackWrite (i : Nat)
  /-- A write outside a transaction publishes behind its commit. -/
  | autocommitWrite (w : (τ → ν) → τ → ν)
  | publishLate
  | startConsumer (c : ι)
  | stopConsumer (c : ι)
  | handleNotification (c : ι)
  | startBuild (c : Option ι)
  | readTable
  | finishBuild
  | arrive (c : ι) (i : Nat)
  | failPull (c : ι) (i : Nat)
  | startAdmin
  | stopAdmin

/-- The first element that `p` finds is replaced. -/
def replaceFirst {α : Type} (p : α → Bool) (x : α) : List α → List α
  | [] => []
  | y :: ys => if p y then x :: ys else y :: replaceFirst p x ys

def Pull.isRequested {κ : Type} : Pull κ → Bool
  | .requested => true
  | _ => false

def Pull.isBuilding {κ : Type} : Pull κ → Bool
  | .building => true
  | _ => false

/-- `CONFIG_CHANGED` reaches every consumer that is subscribed. -/
def Consumer.notify {κ : Type} (x : Consumer κ) : Consumer κ := { x with queue := x.queue + 1 }

def Net.notify (s : Net ι τ ν) : Net ι τ ν :=
  { s with consumers := fun c => (s.consumers c).map Consumer.notify }

/-- The pull that is being built is answered. -/
def Consumer.answer {κ : Type} (x : Consumer κ) (snap : Snapshot κ) (process since : Nat) :
    Consumer κ :=
  { x with pulls := replaceFirst Pull.isBuilding (.answered snap process since) x.pulls }

/-- `pullConfigSnapshot` with the answer: the cache takes newer snapshots only. -/
def Consumer.take {κ : Type} (x : Consumer κ) (snap : Snapshot κ) (process : Nat) : Consumer κ :=
  { x with
    cache := x.cache.updateFromSnapshot snap
    process := if x.cache.accepts snap then process else x.process }

/-- The psm-admin process becomes `a`. -/
def Net.withAdmin (s : Net ι τ ν) (a : AdminProcess ι τ ν) : Net ι τ ν := { s with admin := some a }

variable [DecidableEq ι] [DecidableEq τ]

/-- The consumer `c` becomes `x`. -/
def Net.withConsumer (s : Net ι τ ν) (c : ι) (x : Option (Consumer (τ → ν))) : Net ι τ ν :=
  { s with consumers := Function.update s.consumers c x }

variable (order : TableOrder τ) (hash : (τ → ν) → Int)

/-- A build starts when none is running: for itself, or for a pull that has been requested. -/
def Net.startBuild (s : Net ι τ ν) (c : Option ι) : Net ι τ ν :=
  match s.admin with
  | none => s
  | some a =>
    match a.building with
    | some _ => s
    | none =>
      let s' := s.withAdmin { a with building := some ⟨c, order.tables, s.db, s.commits⟩ }
      match c with
      | none => s'
      | some c =>
        match s.consumers c with
        | none => s
        | some x =>
          if x.pulls.any Pull.isRequested then
            s'.withConsumer c (some { x with
              pulls := replaceFirst Pull.isRequested .building x.pulls })
          else s

def Net.readTable (s : Net ι τ ν) : Net ι τ ν :=
  match s.admin with
  | none => s
  | some a =>
    match a.building with
    | none => s
    | some b =>
      match b.todo with
      | [] => s
      | t :: todo => s.withAdmin { a with
          building := some { b with todo, got := Function.update b.got t (s.db t) } }

/-- psm-admin behind a build; a new number is announced. -/
def Net.built (s : Net ι τ ν) (r : Build (τ → ν)) (since : Nat) : Net ι τ ν :=
  if r.published then (s.withAdmin ⟨r.builder, none, some since⟩).notify
  else s.withAdmin ⟨r.builder, none, some since⟩

/-- The pull a build is for gets its answer. -/
def Net.answer (s : Net ι τ ν) (c : Option ι) (snap : Snapshot (τ → ν)) (since : Nat) :
    Net ι τ ν :=
  match c with
  | none => s
  | some c =>
    s.withConsumer c ((s.consumers c).map fun x => x.answer snap s.process since)

/-- The end of a build: all tables are read. -/
def Net.finishBuild (s : Net ι τ ν) : Net ι τ ν :=
  match s.admin with
  | none => s
  | some a =>
    match a.building with
    | none => s
    | some b =>
      if b.todo ≠ [] then s
      else
        let r := a.builder.buildFullSnapshot hash b.got
        (s.built r b.since).answer b.forConsumer r.snapshot b.since

def Net.step (s : Net ι τ ν) : NetEvent ι τ ν → Net ι τ ν
  | .publishWrite w =>
    -- within a transaction the event goes out before the commit
    if s.admin.isSome then { s with uncommitted := s.uncommitted ++ [w] }.notify else s
  | .commitWrite i =>
    match s.uncommitted[i]? with
    | none => s
    | some w => { s with
        db := w s.db, commits := s.commits + 1, uncommitted := s.uncommitted.eraseIdx i }
  | .rollbackWrite i => { s with uncommitted := s.uncommitted.eraseIdx i }
  | .autocommitWrite w =>
    -- without one it goes out after it, in a step of its own
    if s.admin.isSome then
      { s with db := w s.db, commits := s.commits + 1, unpublished := s.unpublished + 1 }
    else s
  | .publishLate =>
    match s.unpublished with
    | 0 => s
    | n + 1 => { s with unpublished := n }.notify
  | .startConsumer c =>
    match s.consumers c with
    | some _ => s
    -- a consumer that starts pulls once
    | none => s.withConsumer c (some ⟨.empty, 0, 0, [.requested]⟩)
  | .stopConsumer c => s.withConsumer c none
  | .handleNotification c =>
    match s.consumers c with
    | none => s
    | some x =>
      match x.queue with
      | 0 => s
      | n + 1 => s.withConsumer c (some { x with queue := n, pulls := x.pulls ++ [.requested] })
  | .startBuild c => s.startBuild order c
  | .readTable => s.readTable
  | .finishBuild => s.finishBuild hash
  | .arrive c i =>
    match s.consumers c with
    | none => s
    | some x =>
      match x.pulls[i]? with
      | some (.answered snap process _) =>
        s.withConsumer c (some ({ x with pulls := x.pulls.eraseIdx i }.take snap process))
      | _ => s
  | .failPull c i =>
    match s.consumers c with
    | none => s
    | some x => s.withConsumer c (some { x with pulls := x.pulls.eraseIdx i })
  | .startAdmin =>
    match s.admin with
    | some _ => s
    | none => { s with process := s.process + 1 }.withAdmin ⟨.started, none, none⟩
  -- transactions and answers end with the process; the database stays
  | .stopAdmin => { s with
      uncommitted := []
      unpublished := 0
      admin := none
      consumers := fun c => (s.consumers c).map fun x =>
        { x with pulls := x.pulls.filter fun p => !p.isBuilding } }

/-! ## Convergence -/

/-- All writes are committed and all notifications handled: psm-admin is up and has announced
itself, and no consumer has a notification or a pull left. -/
structure Net.Quiet (s : Net ι τ ν) : Prop where
  writes : s.uncommitted = [] ∧ s.unpublished = 0
  announced : ∃ a, s.admin = some a ∧ a.builder.cached ≠ none
  handled : ∀ c x, s.consumers c = some x → x.queue = 0 ∧ x.pulls = []

/-- Every consumer that is up holds the content of the database. -/
def Net.Converged (s : Net ι τ ν) : Prop :=
  ∀ c x, s.consumers c = some x → ∃ snap, x.cache.snapshot = some snap ∧ snap.content = s.db

/-- No build for a pull starts while a published write is uncommitted; the content of a build
has the hash of no other content; a snapshot of an earlier process is not newer than the one
held, and one of a later process is; a pull fails only while psm-admin is down or has not
announced itself. -/
def Orderly (s : Net ι τ ν) : NetEvent ι τ ν → Prop
  | .startBuild (some _) => s.uncommitted = []
  | .finishBuild => ∀ a b kept h, s.admin = some a → a.building = some b →
      a.builder.cached = some (kept, h) → hash kept.content = hash b.got → kept.content = b.got
  | .arrive c i => ∀ x snap p since held, s.consumers c = some x →
      x.pulls[i]? = some (.answered snap p since) → x.cache.snapshot = some held →
      (p < x.process → snap.version ≤ held.version) ∧ (x.process < p → held.version < snap.version)
  | .failPull _ _ => ∀ a, s.admin = some a → a.builder.cached = none
  | _ => True

end PlmCore.Platform
