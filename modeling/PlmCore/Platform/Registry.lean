/-
The environment registry (`registry_server.rs`) and the registries that follow it (`registry.rs`,
`registration.rs`).

The server keeps the registered instances and a revision. An operation changes the map, then
counts the revision up, then reads the map entry by entry into a snapshot with the revision read
last, checks the snapshot against the local mirror and stores it there: each of these is a step of
its own, and so are those of the snapshots that consumers pull. A handler publishes
ENVIRONMENT_CHANGED when its operations are done; a restart of the platform sends
PLATFORM_RESTARTED. The map of maps is kept as one list of entries.
-/
import Mathlib.Logic.Function.Basic
import PlmCore.Lib.Run
import PlmCore.Spe.Gateway

set_option autoImplicit false

namespace PlmCore.Platform.Environment

open PlmCore.Lib

/-! ## Instances -/

/-- A service code and an instance id. -/
abbrev Key := String × String

/-- `ServiceInstanceInfo`. -/
structure ServiceInstanceInfo where
  base_url : String
  version : Option String
  space_tag : Option String
  healthy : Bool
  deriving DecidableEq

/-- `Registration`: what a snapshot shows of it, and the failures counted. -/
structure Registration where
  info : ServiceInstanceInfo
  consecutive_failures : Nat

/-- The entry of a key. -/
def entryAt {β : Type} (entries : List (Key × β)) (k : Key) : Option β :=
  (entries.find? fun e => e.1 = k).map (·.2)

def remove {β : Type} (entries : List (Key × β)) (k : Key) : List (Key × β) :=
  entries.filter fun e => e.1 ≠ k

def insert {β : Type} (entries : List (Key × β)) (k : Key) (b : β) : List (Key × β) :=
  remove entries k ++ [(k, b)]

/-- The instances as a snapshot would show them. -/
def shown (entries : List (Key × Registration)) (k : Key) : Option ServiceInstanceInfo :=
  (entryAt entries k).map (·.info)

/-! ## Operations -/

/-- `RegisterRequest`, with the instance id that belongs to its base URL. -/
structure RegisterRequest where
  service_code : String
  instance_id : String
  base_url : String
  version : String
  space_tag : String

/-- A tag that is blank is none. -/
def tagOf (space_tag : String) : Option String :=
  if Spe.trim space_tag.toList = [] then none
  else some (String.ofList (Spe.trim space_tag.toList))

def RegisterRequest.registration (req : RegisterRequest) : Registration where
  info :=
    { base_url := req.base_url
      version := some (if req.version = "" then "unknown" else req.version)
      space_tag := tagOf req.space_tag
      healthy := true }
  consecutive_failures := 0

inductive Op where
  | register (req : RegisterRequest)
  | deregister_instance (k : Key)
  | deregister_service (service_code : String)
  /-- The probe of an instance answered, or did not. -/
  | record_probe (k : Key) (ok : Bool) (threshold : Nat)

/-- What an operation has done to the map at first. -/
inductive Touched where
  | unchanged
  /-- `mutated()` is to be called. -/
  | mutated
  /-- The instance is to be evicted. -/
  | evict (k : Key)
  deriving DecidableEq

/-- The first change an operation makes to the map. -/
def Op.touch (entries : List (Key × Registration)) : Op → List (Key × Registration) × Touched
  | register req => (insert entries (req.service_code, req.instance_id) req.registration, .mutated)
  | deregister_instance k =>
    if (entryAt entries k).isSome then (remove entries k, .mutated) else (entries, .unchanged)
  | deregister_service service_code =>
    if entries.any (·.1.1 = service_code) then
      (entries.filter (·.1.1 ≠ service_code), .mutated)
    else (entries, .unchanged)
  | record_probe k ok threshold =>
    match entryAt entries k with
    | none => (entries, .unchanged)
    | some r =>
      if ok then
        (insert entries k ⟨{ r.info with healthy := true }, 0⟩,
          if r.info.healthy = false ∨ 0 < r.consecutive_failures then .mutated else .unchanged)
      else
        (insert entries k ⟨{ r.info with healthy := false }, r.consecutive_failures + 1⟩,
          if threshold ≤ r.consecutive_failures + 1 then .evict k
          else if r.info.healthy then .mutated else .unchanged)

/-! ## Snapshots -/

/-- `RegistrySnapshot`, and the run of the platform it was read in. -/
structure RegistrySnapshot where
  version : Int
  services : List (Key × ServiceInstanceInfo)
  run : Nat
  deriving DecidableEq

/-- `build_snapshot` under way: the keys it will come by, and what it has read. -/
structure Reading where
  todo : List Key
  seen : List Key
  built : List (Key × ServiceInstanceInfo)

/-- One entry of the iteration. -/
def Reading.visit (entries : List (Key × Registration)) (r : Reading) (k : Key) : Reading where
  todo := r.todo
  seen := k :: r.seen
  built := match shown entries k with
    | some info => (k, info) :: r.built
    | none => r.built

/-- The state of a `LocalServiceRegistry`. -/
structure LocalServiceRegistry where
  version : Int
  services : List (Key × ServiceInstanceInfo)
  populated : Bool

def LocalServiceRegistry.default : LocalServiceRegistry := ⟨0, [], false⟩

/-- `i64::MIN`. -/
def minVersion : Int := -9223372036854775808

/-- The check of `update_from_snapshot`. -/
def LocalServiceRegistry.accepts (reg : LocalServiceRegistry) (snap : RegistrySnapshot) : Bool :=
  !(reg.populated && snap.version ≤ reg.version)

/-- A snapshot on its way: to be read, being read, received, found to be new. -/
inductive Refresh where
  | ask
  | reading (r : Reading)
  | received (snap : RegistrySnapshot)
  | accepted (snap : RegistrySnapshot)

/-! ## The parties -/

/-- Where a task of the server stands. The flag says that the instances have changed. -/
inductive Phase where
  | idle
  | evicting (k : Key) (changed : Bool)
  | mutated (changed : Bool)
  | refreshing (f : Refresh)

/-- A handler with its operation, or a round of the heartbeat with its probes; `changed` if there
is something to publish. -/
structure ServerTask where
  ops : List Op
  changed : Bool
  phase : Phase

/-- A task of a consumer: a pull, or the handling of PLATFORM_RESTARTED up to its pull. -/
inductive Pull where
  | refresh (f : Refresh)
  | resetting
  | resetStore (reg : LocalServiceRegistry)

/-- A consumer: its registry, the notifications it has not taken, its tasks. -/
structure Consumer (ι : Type) where
  registry : LocalServiceRegistry
  changed : Nat
  restarted : Nat
  pulls : ι → Option Pull

/-- The platform and its consumers, and the snapshots taken so far. -/
structure Net (ι κ : Type) where
  run : Nat
  revision : Int
  entries : List (Key × Registration)
  mirror : LocalServiceRegistry
  tasks : ι → Option ServerTask
  consumers : κ → Option (Consumer ι)
  taken : List RegistrySnapshot

def Net.initial (ι κ : Type) : Net ι κ :=
  ⟨0, 0, [], .default, fun _ => none, fun _ => none, []⟩

/-! ## Steps -/

section Steps

variable {ι κ : Type} [DecidableEq ι] [DecidableEq κ]

/-- The next step of a snapshot that is to be read or being read: `k` is the entry the iteration
comes by, or none when it is at its end. -/
def Net.read (s : Net ι κ) (k : Option Key) : Refresh → Refresh
  | .ask => .reading ⟨s.entries.map (·.1), [], []⟩
  | .reading r =>
    match k with
    | some k => if k ∈ r.seen then .reading r else .reading (r.visit s.entries k)
    | none =>
      if ∀ k ∈ r.todo, k ∈ r.seen then .received ⟨s.revision, r.built, s.run⟩ else .reading r
  | f => f

/-- The snapshot that such a step completes. -/
def completed : Refresh → List RegistrySnapshot
  | .received snap => [snap]
  | _ => []

def Net.withTask (s : Net ι κ) (i : ι) (t : Option ServerTask) : Net ι κ :=
  { s with tasks := Function.update s.tasks i t }

def Net.withConsumer (s : Net ι κ) (c : κ) (x : Consumer ι) : Net ι κ :=
  { s with consumers := Function.update s.consumers c (some x) }

def Consumer.withPull (x : Consumer ι) (i : ι) (p : Option Pull) : Consumer ι :=
  { x with pulls := Function.update x.pulls i p }

/-- `publish_changed`. -/
def Net.publish (s : Net ι κ) : Net ι κ :=
  { s with consumers := fun c => (s.consumers c).map fun x => { x with changed := x.changed + 1 } }

/-- The phase after the first change of an operation. -/
def Touched.phase (changed : Bool) : Touched → Phase
  | unchanged => .idle
  | mutated => .mutated changed
  | evict k => .evicting k changed

/-- The keys whose entry a snapshot would show differently. -/
def differ (entries entries' : List (Key × Registration)) : Bool :=
  (entries ++ entries').any fun e => shown entries e.1 ≠ shown entries' e.1

/-- A step of a task of the server. -/
def Net.serverStep (s : Net ι κ) (i : ι) (k : Option Key) (t : ServerTask) : Net ι κ :=
  match t.phase with
  | .idle =>
    match t.ops with
    | [] => (if t.changed then s.publish else s).withTask i none
    | op :: ops =>
      let (entries, touched) := op.touch s.entries
      { s with entries }.withTask i (some
        ⟨ops, t.changed || touched = Touched.mutated, touched.phase (differ s.entries entries)⟩)
  | .evicting key _ =>
    if (entryAt s.entries key).isSome then
      { s with entries := remove s.entries key }.withTask i (some ⟨t.ops, true, .mutated true⟩)
    else s.withTask i (some ⟨t.ops, t.changed, .idle⟩)
  | .mutated _ =>
    { s with revision := s.revision + 1 }.withTask i (some ⟨t.ops, t.changed, .refreshing .ask⟩)
  | .refreshing (.received snap) =>
    s.withTask i (some ⟨t.ops, t.changed,
      if s.mirror.accepts snap then .refreshing (.accepted snap) else .idle⟩)
  | .refreshing (.accepted snap) =>
    { s with mirror := ⟨snap.version, snap.services, true⟩ }.withTask i
      (some ⟨t.ops, t.changed, .idle⟩)
  | .refreshing f =>
    let f' := s.read k f
    { s with taken := s.taken ++ completed f' }.withTask i
      (some ⟨t.ops, t.changed, .refreshing f'⟩)

/-- A step of a task of a consumer. -/
def Net.pullStep (s : Net ι κ) (c : κ) (x : Consumer ι) (i : ι) (k : Option Key) :
    Pull → Net ι κ
  | .resetting => s.withConsumer c (x.withPull i (some (.resetStore x.registry)))
  | .resetStore reg =>
    s.withConsumer c ({ x with registry := ⟨minVersion, reg.services, reg.populated⟩ }.withPull i
      (some (.refresh .ask)))
  | .refresh (.received snap) =>
    s.withConsumer c (x.withPull i
      (if x.registry.accepts snap then some (.refresh (.accepted snap)) else none))
  | .refresh (.accepted snap) =>
    s.withConsumer c ({ x with registry := ⟨snap.version, snap.services, true⟩ }.withPull i none)
  | .refresh f =>
    let f' := s.read k f
    { s with taken := s.taken ++ completed f' }.withConsumer c (x.withPull i (some (.refresh f')))

/-- What a restart does to a consumer: its requests to the server fail, and it will be told. -/
def Consumer.cutOff (x : Consumer ι) : Consumer ι where
  registry := x.registry
  changed := x.changed
  restarted := x.restarted + 1
  pulls := fun i =>
    match x.pulls i with
    | some (.refresh (.reading _)) => none
    | p => p

inductive Event (ι κ : Type) where
  /-- A handler or a round of the heartbeat starts. -/
  | serve (i : ι) (ops : List Op)
  /-- The next step of a task of the server. -/
  | server (i : ι) (k : Option Key)
  /-- A consumer starts, with its first pull. -/
  | join (c : κ) (i : ι)
  /-- A consumer takes a notification. -/
  | notice (c : κ) (i : ι) (restarted : Bool)
  /-- The next step of a task of a consumer. -/
  | pull (c : κ) (i : ι) (k : Option Key)
  | restart

def Net.step (s : Net ι κ) : Event ι κ → Net ι κ
  | .serve i ops =>
    match s.tasks i with
    | none => s.withTask i (some ⟨ops, false, .idle⟩)
    | some _ => s
  | .server i k =>
    match s.tasks i with
    | none => s
    | some t => s.serverStep i k t
  | .join c i =>
    match s.consumers c with
    | none => s.withConsumer c
        -- a service that starts asks at once
        ⟨.default, 0, 0, Function.update (fun _ => none) i (some (.refresh .ask))⟩
    | some _ => s
  | .notice c i restarted =>
    match s.consumers c with
    | none => s
    | some x =>
      match x.pulls i with
      | some _ => s
      | none =>
        -- notifications of one kind are not told apart, so they are counted
        if restarted then
          if x.restarted = 0 then s
          else s.withConsumer c
            ({ x with restarted := x.restarted - 1 }.withPull i (some .resetting))
        else if x.changed = 0 then s
        else s.withConsumer c
          ({ x with changed := x.changed - 1 }.withPull i (some (.refresh .ask)))
  | .pull c i k =>
    match s.consumers c with
    | none => s
    | some x =>
      match x.pulls i with
      | none => s
      | some p => s.pullStep c x i k p
  | .restart =>
    -- tasks and fetches in flight end with the process
    { s with
      run := s.run + 1
      revision := 0
      entries := []
      mirror := .default
      tasks := fun _ => none
      consumers := fun c => (s.consumers c).map Consumer.cutOff }

end Steps

/-! ## What is asked for -/

/-- The snapshot shows the instances. -/
def Shows (services : List (Key × ServiceInstanceInfo)) (entries : List (Key × Registration)) :
    Prop := ∀ k, entryAt services k = shown entries k

section Claims

variable {ι κ : Type} (s : Net ι κ)

/-- Two snapshots of one run with the same version have the same content. -/
def Net.Numbered : Prop :=
  ∀ a ∈ s.taken, ∀ b ∈ s.taken, a.run = b.run → a.version = b.version →
    ∀ k, entryAt a.services k = entryAt b.services k

/-- All operations have returned, all notifications are handled. -/
def Net.Quiet : Prop :=
  (∀ i, s.tasks i = none) ∧ ∀ c x, s.consumers c = some x →
    x.changed = 0 ∧ x.restarted = 0 ∧ ∀ i, x.pulls i = none

/-- The local mirror and every consumer hold the instances of the server. -/
def Net.Converged : Prop :=
  Shows s.mirror.services s.entries ∧
    ∀ c x, s.consumers c = some x → Shows x.registry.services s.entries

/-! ## The condition on the steps -/

/-- Some task of the server is such. -/
def Net.SomeTask (P : ServerTask → Prop) : Prop := ∃ i t, s.tasks i = some t ∧ P t

/-- The instances have changed, and the revision is to be counted up next. -/
def Net.Increments : Prop := s.SomeTask fun t => t.phase = .mutated true

/-- The probe of an instance has changed it, and the instance is to be evicted next. -/
def Net.Evicts (k : Key) : Prop := s.SomeTask fun t => t.phase = .evicting k true

/-- The instances have changed, and the revision has still to be counted up. -/
def Net.Dirty : Prop := s.Increments ∨ ∃ k, s.Evicts k

/-- A snapshot is being read. -/
def Net.Reads (r : Reading) : Prop :=
  (s.SomeTask fun t => t.phase = .refreshing (.reading r)) ∨
    ∃ c x i, s.consumers c = some x ∧ x.pulls i = some (.refresh (.reading r))

/-- The consumer has still to reset its version after a restart. -/
def Consumer.AwaitsReset (x : Consumer ι) : Prop :=
  0 < x.restarted ∨ ∃ i, x.pulls i = some .resetting ∨ ∃ reg, x.pulls i = some (.resetStore reg)

end Claims

variable {ι κ : Type} [DecidableEq ι] [DecidableEq κ]

/-- The step keeps to the order the registry relies on. -/
structure Orderly (s : Net ι κ) (e : Event ι κ) : Prop where
  /-- No snapshot is begun between a change and its revision. -/
  begins : ∀ i k t, e = .server i k → s.tasks i = some t → t.phase = .refreshing .ask → ¬ s.Dirty
  pulls : ∀ c i k x, e = .pull c i k → s.consumers c = some x →
    x.pulls i = some (.refresh .ask) → ¬ s.Dirty
  /-- No instance changes while a snapshot is being read. -/
  changes : e ≠ .restart → (∃ k, shown (s.step e).entries k ≠ shown s.entries k) → ∀ r, ¬ s.Reads r
  /-- The mirror takes a snapshot that is still newer than its own. -/
  mirrors : ∀ i k t snap, e = .server i k → s.tasks i = some t →
    t.phase = .refreshing (.accepted snap) → s.mirror.accepts snap = true
  /-- So does a consumer, and of the present run, unless it awaits its reset. -/
  stores : ∀ c i k x snap, e = .pull c i k → s.consumers c = some x →
    x.pulls i = some (.refresh (.accepted snap)) →
    x.AwaitsReset ∨ (snap.run = s.run ∧ x.registry.accepts snap = true)

end PlmCore.Platform.Environment
