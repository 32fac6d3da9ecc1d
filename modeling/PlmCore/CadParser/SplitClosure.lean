/-
The closures of `splitStepFromFile`: which records belong into the part file of a product.

The records that the scanner delivers give a graph of references, forwards and backwards. From a product
`findDefinitionalChain` goes backwards to the records that define it, `collectForwardClosure` adds all they
refer to, and `expandSRRClosure` crosses the relationships between representations, except to those of
other products.

Sets and maps of the source are lists in the order of insertion. The tables that are read from the product
structure are taken as given.
-/
import PlmCore.CadParser.StepScan
import PlmCore.Lib.WorkList

set_option autoImplicit false

namespace PlmCore.CadParser

open PlmCore.Lib

/-- The id of a record, without `#`. -/
abbrev Id := List Char

local instance : LawfulBEq Id := inferInstance

/-- `set.add(a)`. -/
def setAdd {α : Type} [DecidableEq α] (set : List α) (a : α) : List α := if a ∈ set then set else set ++ [a]

/-- `new Set(xs)`. -/
def newSet {α : Type} [DecidableEq α] (xs : List α) : List α := xs.foldl setAdd []

/-! ## The index of `splitStepFromFile` -/

/-- The matches of `/#(\d+)/g`. A digit is no `#`, so the search can go on behind the `#`. -/
def references : List Char → List Id
  | [] => []
  | c :: cs =>
    if c = '#' ∧ cs.takeWhile Char.isDigit ≠ [] then cs.takeWhile Char.isDigit :: references cs
    else references cs

/-- `text.slice(text.indexOf('=') + 1)`. -/
def recordBody (text : List Char) : List Char :=
  if '=' ∈ text then (text.dropWhile (· ≠ '=')).drop 1 else text

/-- The references of a record. -/
def ScannedEntity.references (e : ScannedEntity) : List Id := CadParser.references (recordBody e.text)

variable (es : List ScannedEntity)

/-- `refGraph[id] ?? new Set()`. -/
def refGraph (id : Id) : List Id :=
  newSet ((es.filter (·.id = some id)).flatMap ScannedEntity.references)

/-- `reverseRefGraph[id] ?? []`. -/
def reverseRefGraph (id : Id) : List Id :=
  newSet ((es.filter (id ∈ ·.references)).filterMap ScannedEntity.id)

/-- The keys of `entities`. -/
def entityIds : List Id := newSet (es.filterMap ScannedEntity.id)

/-- `entities.get(id)`: a record replaces an earlier one with its id. -/
def entity (id : Id) : Option ScannedEntity := (es.filter (·.id = some id)).getLast?

/-- The type of the record in the index is `SHAPE_REPRESENTATION_RELATIONSHIP`. -/
def ScannedEntity.IsRelationship (e : ScannedEntity) : Prop :=
  e.type = some "SHAPE_REPRESENTATION_RELATIONSHIP".toList ∨
    (e.type = some "_COMPOUND_".toList ∧ "REPRESENTATION_RELATIONSHIP".toList <:+: e.text ∧
      "SHAPE_REPRESENTATION_RELATIONSHIP".toList <:+: e.text)

instance (e : ScannedEntity) : Decidable e.IsRelationship :=
  inferInstanceAs (Decidable (_ ∨ (_ ∧ _ ∧ _)))

/-- `reverseFromSRR[id] ?? []`. -/
def reverseFromSRR (id : Id) : List Id :=
  (entityIds es).filter fun srrId =>
    (entity es srrId).any (fun e => decide e.IsRelationship) && id ∈ refGraph es srrId

/-- The tables of products: `productStepIds`, `prodDefs` and `srToProductId`. The keys of the last are
`allEntrySRIds`. -/
structure ProductTables where
  productStepIds : List Id
  prodDefs : Id → Option Id
  srToProductId : Id → Option Id

namespace ProductTables

variable (t : ProductTables) (stepId : Id)

/-- `myProdDefIds.has(id)`. -/
def isOwnDefinition (id : Id) : Bool := t.prodDefs id = some stepId

/-- `prodDefs[id] !== undefined && prodDefs[id] !== productStepId`. -/
def isOtherDefinition (id : Id) : Bool := (t.prodDefs id).any (· ≠ stepId)

/-- `allEntrySRIds.has(id) && srToProductId[id] !== stepId`. -/
def isOtherEntry (id : Id) : Bool := (t.srToProductId id).any (· ≠ stepId)

end ProductTables

/-! ## The closures -/

variable (t : ProductTables) (stepId : Id)

/-- The referrers that the definitional chain takes. -/
def chainReferrers (id : Id) : List Id :=
  (reverseRefGraph es id).filter fun referrer =>
    referrer ∉ t.productStepIds &&
      !((refGraph es referrer).any (t.isOwnDefinition stepId) &&
        (refGraph es referrer).any (t.isOtherDefinition stepId))

/-- `findDefinitionalChain`, for a number of rounds. -/
def findDefinitionalChain (rounds : Nat) : Option (List Id) :=
  workList (chainReferrers es t stepId) rounds [] [stepId]

/-- `collectForwardClosure`, for a number of rounds. -/
def collectForwardClosure (rounds : Nat) (seeds : List Id) : Option (List Id) :=
  workList (refGraph es) rounds [] seeds

/-- The variables of `expandSRRClosure`: what `srrCheckQueue` holds from `i` on is `pending`. -/
structure Expansion where
  closure : List Id
  pending : List Id
  checkedForSRR : List Id

/-- `if (!closure.has(id)) { closure.add(id); srrCheckQueue.push(id); }`. -/
def Expansion.include (x : Expansion) (id : Id) : Expansion :=
  if id ∈ x.closure then x else { x with closure := x.closure ++ [id], pending := x.pending ++ [id] }

/-- The body of the loop over `reverseRefGraph[srrId]`: what it adds for a referrer it does not follow. -/
def Expansion.includeReferrer (x : Expansion) (cdsr : Id) : Expansion :=
  if cdsr ∈ x.closure then x else (refGraph es cdsr).foldl Expansion.include (x.include cdsr)

/-- The body of the loop over `reverseFromSRR[entityId]`. -/
def Expansion.cross (rounds : Nat) (x : Expansion) (srrId : Id) : Option Expansion :=
  if srrId ∈ x.closure then some x
  else
    let newRefs := (refGraph es srrId).filter (· ∉ x.closure)
    let crossRefs := newRefs.filter (t.isOtherEntry stepId)
    let safeRefs := newRefs.filter (· ∉ crossRefs)
    let x := x.include srrId
    if crossRefs.length > 0 then
      let x := { x with closure := crossRefs.foldl setAdd x.closure }
      (collectForwardClosure es rounds safeRefs).map fun sub =>
        (reverseRefGraph es srrId).foldl (Expansion.includeReferrer es) (sub.foldl Expansion.include x)
    else (collectForwardClosure es rounds newRefs).map fun sub => sub.foldl Expansion.include x

/-- The loop of `expandSRRClosure`. -/
def expandLoop (rounds : Nat) : Nat → Expansion → Option (List Id)
  | _, ⟨closure, [], _⟩ => some closure
  | 0, ⟨_, _ :: _, _⟩ => none
  | turns + 1, ⟨closure, entityId :: pending, checkedForSRR⟩ =>
    if entityId ∈ checkedForSRR then expandLoop rounds turns ⟨closure, pending, checkedForSRR⟩
    else
      ((reverseFromSRR es entityId).foldlM (Expansion.cross es t stepId rounds)
        ⟨closure, pending, setAdd checkedForSRR entityId⟩).bind (expandLoop rounds turns)

/-- `expandSRRClosure`, for a number of rounds of each loop. -/
def expandSRRClosure (rounds : Nat) (closure : List Id) : Option (List Id) :=
  expandLoop es t stepId rounds rounds ⟨closure, closure, []⟩

/-- The closure of a product in `splitStepFromFile`. -/
def partClosure (rounds : Nat) : Option (List Id) :=
  (findDefinitionalChain es t stepId rounds).bind fun chain =>
    (collectForwardClosure es rounds chain).bind (expandSRRClosure es t stepId rounds)

end PlmCore.CadParser
