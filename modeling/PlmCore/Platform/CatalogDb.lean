/-
The registration of handlers, guards and contributions in the catalog of platform-api (`catalog_db.rs`).

A payload is compared with the catalog as a set of lines, and written statement by statement when a line is
missing. The tables are lists of rows; the database refuses a statement whose rows would break a constraint of
the schema, or a text that does not fit its column. Every statement commits on its own.

`to_lowercase` is taken as given.
-/
import PlmCore.Lib.Rows

set_option autoImplicit false

namespace PlmCore.Platform.CatalogDb

open PlmCore.Lib

/-! ## Columns -/

/-- A text on its way into a column `VARCHAR(n)`: PostgreSQL takes no NUL, and cuts blanks at the end off that
do not fit. -/
def varchar (n : Nat) (s : String) : Option String :=
  if '\x00' ∈ s.toList then none
  else if s.length ≤ n then some s
  else if (s.toList.drop n).all (· = ' ') then some (String.ofList (s.toList.take n))
  else none

/-- A nullable text of a hundred characters, as it is stored. -/
def storedModule : Option String → Option (Option String)
  | none => some none
  | some m => (varchar 100 m).map some

/-! ## The schema -/

/-- `algorithm_type`. -/
structure TypeRow where
  id : String
  service_code : String
  name : String
  java_interface : String
  deriving DecidableEq

/-- `algorithm`. -/
structure AlgorithmRow where
  id : String
  service_code : String
  algorithm_type_id : String
  code : String
  name : String
  handler_ref : String
  module_name : Option String
  deriving DecidableEq

/-- `algorithm_instance`. -/
structure InstanceRow where
  id : String
  service_code : String
  algorithm_id : String
  name : String
  deriving DecidableEq

/-- `uq_algorithm_code`. -/
def AlgorithmRow.key (a : AlgorithmRow) : String × String := (a.service_code, a.code)

/-- `uq_algorithm_instance_name`. -/
def InstanceRow.key (i : InstanceRow) : String × String := (i.service_code, i.name)

/-- A column `VARCHAR(n)` holds the text as it is. -/
def Held (n : Nat) (s : String) : Prop := varchar n s = some s

/-- What the columns that are read back hold. -/
structure AlgorithmRow.Fits (a : AlgorithmRow) : Prop where
  id : Held 100 a.id
  service_code : Held 50 a.service_code
  algorithm_type_id : Held 100 a.algorithm_type_id
  code : Held 100 a.code
  name : Held 200 a.name
  module_name : storedModule a.module_name = some a.module_name

/-- The constraints of the three tables. -/
structure Sound (types : List TypeRow) (algorithms : List AlgorithmRow) (instances : List InstanceRow) : Prop where
  typeId : UniqueBy TypeRow.id types
  algorithmId : UniqueBy AlgorithmRow.id algorithms
  algorithmKey : UniqueBy AlgorithmRow.key algorithms
  instanceId : UniqueBy InstanceRow.id instances
  instanceKey : UniqueBy InstanceRow.key instances
  typed : ∀ a ∈ algorithms, ∃ t ∈ types, t.id = a.algorithm_type_id
  linked : ∀ i ∈ instances, ∃ a ∈ algorithms, a.id = i.algorithm_id
  fits : ∀ a ∈ algorithms, a.Fits
  idFits : ∀ i ∈ instances, Held 100 i.id

structure Catalog where
  types : List TypeRow
  algorithms : List AlgorithmRow
  instances : List InstanceRow
  sound : Sound types algorithms instances
  deriving DecidableEq

section Decide

instance (n : Nat) (s : String) : Decidable (Held n s) := inferInstanceAs (Decidable (varchar n s = some s))

theorem AlgorithmRow.fits_iff (a : AlgorithmRow) :
    a.Fits ↔ Held 100 a.id ∧ Held 50 a.service_code ∧ Held 100 a.algorithm_type_id ∧ Held 100 a.code ∧
      Held 200 a.name ∧ storedModule a.module_name = some a.module_name :=
  ⟨fun ⟨h₁, h₂, h₃, h₄, h₅, h₆⟩ => ⟨h₁, h₂, h₃, h₄, h₅, h₆⟩, fun ⟨h₁, h₂, h₃, h₄, h₅, h₆⟩ => ⟨h₁, h₂, h₃, h₄, h₅, h₆⟩⟩

instance (a : AlgorithmRow) : Decidable a.Fits := decidable_of_iff' _ a.fits_iff

theorem sound_iff (types : List TypeRow) (algorithms : List AlgorithmRow) (instances : List InstanceRow) :
    Sound types algorithms instances ↔
      UniqueBy TypeRow.id types ∧ UniqueBy AlgorithmRow.id algorithms ∧ UniqueBy AlgorithmRow.key algorithms ∧
        UniqueBy InstanceRow.id instances ∧ UniqueBy InstanceRow.key instances ∧
        (∀ a ∈ algorithms, ∃ t ∈ types, t.id = a.algorithm_type_id) ∧
        (∀ i ∈ instances, ∃ a ∈ algorithms, a.id = i.algorithm_id) ∧ (∀ a ∈ algorithms, a.Fits) ∧
        ∀ i ∈ instances, Held 100 i.id :=
  ⟨fun ⟨h₁, h₂, h₃, h₄, h₅, h₆, h₇, h₈, h₉⟩ => ⟨h₁, h₂, h₃, h₄, h₅, h₆, h₇, h₈, h₉⟩,
    fun ⟨h₁, h₂, h₃, h₄, h₅, h₆, h₇, h₈, h₉⟩ => ⟨h₁, h₂, h₃, h₄, h₅, h₆, h₇, h₈, h₉⟩⟩

instance (types : List TypeRow) (algorithms : List AlgorithmRow) (instances : List InstanceRow) :
    Decidable (Sound types algorithms instances) :=
  decidable_of_iff' _ (sound_iff types algorithms instances)

end Decide

/-- A statement leaves these rows, or fails. -/
def commit (types : List TypeRow) (algorithms : List AlgorithmRow) (instances : List InstanceRow) :
    Option Catalog :=
  if h : Sound types algorithms instances then some ⟨types, algorithms, instances, h⟩ else none

/-! ## The payload -/

/-- `HandlerEntry`, `GuardEntry` and `AlgorithmInput` have the same fields. -/
structure Entry where
  code : String
  label : Option String
  module : Option String

abbrev HandlerEntry := Entry

abbrev GuardEntry := Entry

abbrev AlgorithmInput := Entry

def Entry.label_or_code (e : Entry) : String := e.label.getD e.code

structure ContributionInput where
  type_id : String
  type_name : String
  java_interface : Option String
  algorithms : List AlgorithmInput

/-- The arguments of `persist_to_db`. -/
structure Payload where
  handlers : List HandlerEntry
  guards : List GuardEntry
  contributions : List ContributionInput

/-- `nz`. -/
def nz (s : Option String) : String := s.getD ""

/-! ## The lines -/

def typeLine (id name : String) : String := "type|" ++ id ++ "|" ++ name

def algLine (code name module type_id : String) : String :=
  "alg|" ++ code ++ "|" ++ name ++ "|" ++ module ++ "|" ++ type_id

def instLine (name : String) : String := "inst|" ++ name

def handler_type_id (svc : String) : String := "sys-handler-" ++ svc

def guard_type_id (svc : String) : String := "sys-guard-" ++ svc

/-- The lines of an algorithm of the payload. -/
def Entry.lines (type_id : String) (e : Entry) : List String :=
  [algLine e.code e.label_or_code (nz e.module) type_id, instLine e.label_or_code]

/-- `incoming_fingerprint`. -/
def incoming_fingerprint (svc : String) (p : Payload) : List String :=
  (if p.handlers = [] then [] else [typeLine (handler_type_id svc) "Action Handler"]) ++
    (if p.guards = [] then [] else [typeLine (guard_type_id svc) "Action Guard"]) ++
    p.handlers.flatMap (Entry.lines (handler_type_id svc)) ++
    p.guards.flatMap (Entry.lines (guard_type_id svc)) ++
    p.contributions.flatMap fun c =>
      if c.algorithms = [] then []
      else typeLine c.type_id c.type_name :: c.algorithms.flatMap (Entry.lines c.type_id)

/-- The rows of a service. -/
def currentLines (svc : String) (c : Catalog) : List String :=
  (c.types.filter (·.service_code = svc)).map (fun t => typeLine t.id t.name) ++
    (c.algorithms.filter (·.service_code = svc)).map
      (fun a => algLine a.code a.name (nz a.module_name) a.algorithm_type_id) ++
    (c.instances.filter (·.service_code = svc)).map fun i => instLine i.name

/-- `current_fingerprint`. A parameter with a NUL makes it fail. -/
def current_fingerprint (svc : String) (c : Catalog) : Option (List String) :=
  if '\x00' ∈ svc.toList then none else some (currentLines svc c)

/-! ## The statements -/

section Statements

variable (svc : String)

/-- An `INSERT` into `algorithm_type`. Where the id is stored, the name is overwritten or nothing happens. -/
structure TypeStatement where
  id : String
  name : String
  java_interface : String
  renames : Bool

/-- The row that a statement proposes. -/
def TypeStatement.proposed (t : TypeStatement) : Option TypeRow := do
  let id ← varchar 100 t.id
  let service_code ← varchar 50 svc
  let name ← varchar 200 t.name
  let java_interface ← varchar 500 t.java_interface
  return ⟨id, service_code, name, java_interface⟩

/-- The row that a statement leaves under an id, from the one that was there. -/
def TypeStatement.leaves (t : TypeStatement) (new : TypeRow) : Option TypeRow → TypeRow
  | none => new
  | some stored => if t.renames then { stored with name := new.name } else stored

def insertType (t : TypeStatement) (c : Catalog) : Option Catalog := do
  let new ← t.proposed svc
  let row := t.leaves new (c.types.find? fun stored => stored.id = new.id)
  commit (upsert TypeRow.id row c.types) c.algorithms c.instances

/-- The arguments of `upsert_algorithm_with_instance`. -/
structure Item where
  type_id : String
  alg_id : String
  inst_id : String
  code : String
  label : String
  module : Option String

/-- The row that the `INSERT` into `algorithm` proposes. -/
def Item.proposed (x : Item) : Option AlgorithmRow := do
  let id ← varchar 100 x.alg_id
  let service_code ← varchar 50 svc
  let type_id ← varchar 100 x.type_id
  let code ← varchar 100 x.code
  let name ← varchar 200 x.label
  let handler_ref ← varchar 500 x.code
  let module_name ← storedModule x.module
  return ⟨id, service_code, type_id, code, name, handler_ref, module_name⟩

/-- What it leaves under the service and the code. -/
def Item.leaves (new : AlgorithmRow) : Option AlgorithmRow → AlgorithmRow
  | none => new
  | some stored => { stored with name := new.name, module_name := new.module_name }

/-- The `INSERT` into `algorithm`. -/
def upsertAlgorithm (x : Item) (c : Catalog) : Option Catalog := do
  let new ← x.proposed svc
  let row := Item.leaves new (c.algorithms.find? fun stored => stored.key = new.key)
  commit c.types (upsert AlgorithmRow.key row c.algorithms) c.instances

/-- The id of the algorithm with a code. -/
def resolved (x : Item) (c : Catalog) : String :=
  ((c.algorithms.find? fun a => a.key = (svc, x.code)).map AlgorithmRow.id).getD x.alg_id

/-- Who has a name. -/
def name_owner (name : String) (c : Catalog) : Option String :=
  (c.instances.find? fun i => i.key = (svc, name)).map InstanceRow.id

/-- What the `INSERT` into `algorithm_instance` leaves under the id. -/
def InstanceRow.leaves (new : InstanceRow) : Option InstanceRow → InstanceRow
  | none => new
  | some stored => { stored with algorithm_id := new.algorithm_id, name := new.name }

/-- The `INSERT` into `algorithm_instance`. Where the id is stored, algorithm and name are overwritten. -/
def upsertInstance (inst_id algorithm_id name : String) (c : Catalog) : Option Catalog := do
  let id ← varchar 100 inst_id
  let service_code ← varchar 50 svc
  let algorithm_id ← varchar 100 algorithm_id
  let name ← varchar 200 name
  let row := InstanceRow.leaves ⟨id, service_code, algorithm_id, name⟩ (c.instances.find? fun stored => stored.id = id)
  commit c.types c.algorithms (upsert InstanceRow.id row c.instances)

/-- `upsert_algorithm_with_instance`. -/
def upsert_algorithm_with_instance (x : Item) (c : Catalog) : Option Catalog := do
  let c ← upsertAlgorithm svc x c
  if (name_owner svc x.label c).all (· = x.inst_id) then upsertInstance svc x.inst_id (resolved svc x c) x.label c
  else return c

end Statements

/-! ## `persist_to_db` -/

section Persist

variable (to_lowercase : String → String) (svc : String)

/-- `safe_code`. -/
def safe_code (code : String) : String := (to_lowercase code).map fun ch => if ch = '_' then '-' else ch

/-- The call for an algorithm of a class: the ids begin with `alg-<svc>-`, `ainst-<svc>-` and a prefix of the
class. -/
def Entry.item (type_id classPrefix : String) (e : Entry) : Item where
  type_id := type_id
  alg_id := "alg-" ++ svc ++ "-" ++ classPrefix ++ safe_code to_lowercase e.code
  inst_id := "ainst-" ++ svc ++ "-" ++ classPrefix ++ safe_code to_lowercase e.code
  code := e.code
  label := e.label_or_code
  module := e.module

def handlerItem (h : HandlerEntry) : Item := h.item to_lowercase svc (handler_type_id svc) ""

def guardItem (g : GuardEntry) : Item := g.item to_lowercase svc (guard_type_id svc) "g-"

def contributionItem (type_id : String) (a : AlgorithmInput) : Item := a.item to_lowercase svc type_id "c-"

def handlerType : TypeStatement := ⟨handler_type_id svc, "Action Handler", "ActionHandler", false⟩

def guardType : TypeStatement := ⟨guard_type_id svc, "Action Guard", "ActionGuard", false⟩

def contributionType (c : ContributionInput) : TypeStatement :=
  ⟨c.type_id, c.type_name, c.java_interface.getD c.type_name, true⟩

/-- The loop over the algorithms of a contribution. -/
def persistContribution (k : ContributionInput) (c : Catalog) : Option Catalog :=
  if k.algorithms = [] then some c
  else do
    let c ← insertType svc (contributionType k) c
    k.algorithms.foldlM (fun c a => upsert_algorithm_with_instance svc (contributionItem to_lowercase svc k.type_id a) c) c

/-- `persist_to_db`: whether something was written, or a failure. -/
def persist_to_db (p : Payload) (c : Catalog) : Option (Catalog × Bool) := do
  let current ← current_fingerprint svc c
  if incoming_fingerprint svc p ⊆ current then return (c, false)
  else
    let c ← (if p.handlers = [] then some c else insertType svc (handlerType svc) c)
    let c ← (if p.guards = [] then some c else insertType svc (guardType svc) c)
    let c ← p.handlers.foldlM (fun c h => upsert_algorithm_with_instance svc (handlerItem to_lowercase svc h) c) c
    let c ← p.guards.foldlM (fun c g => upsert_algorithm_with_instance svc (guardItem to_lowercase svc g) c) c
    let c ← p.contributions.foldlM (fun c k => persistContribution to_lowercase svc k c) c
    return (c, true)

end Persist

end PlmCore.Platform.CatalogDb
