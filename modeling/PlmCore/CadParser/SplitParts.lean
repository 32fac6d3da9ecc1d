/-
The parts that `splitStepFromFile` makes of the products of a file.

Each loop ends, and what the chain and its forward closure contain does not depend on the order of records
or references, nor does the whole part when no relationship that is reached leads to the representation of
another product. A relationship that does is where the part is cut: that representation is in the part, and
what it refers to is not.
-/
import Mathlib.Data.List.Pairwise
import PlmCore.CadParser.PartFile

set_option autoImplicit false

namespace PlmCore.CadParser

open PlmCore.Lib Relation

/-! ## Other orders -/

/-- The records have the same references and the same relationships are among them, in whatever order. -/
structure SameRecords (es es' : List ScannedEntity) : Prop where
  refs : ∀ id r, r ∈ refGraph es id ↔ r ∈ refGraph es' id
  relationships : ∀ id, IsRelationship es id ↔ IsRelationship es' id

variable {es es' : List ScannedEntity} {t : ProductTables} {stepId id : Id} {part : List Id}

theorem SameRecords.symm (h : SameRecords es es') : SameRecords es' es :=
  ⟨fun id r => (h.refs id r).symm, fun id => (h.relationships id).symm⟩

theorem SameRecords.chainReferrers_subset (h : SameRecords es es') (id : Id) :
    chainReferrers es t stepId id ⊆ chainReferrers es' t stepId id := by
  intro a ha
  rw [mem_chainReferrers] at ha ⊢
  simp only [h.refs] at ha
  exact ha

theorem SameRecords.inChain (h : SameRecords es es') (hid : InChain es t stepId id) : InChain es' t stepId id :=
  Reach.mono h.chainReferrers_subset (List.Subset.refl _) hid

theorem SameRecords.owned (h : SameRecords es es') (hid : Owned es t stepId id) : Owned es' t stepId id := by
  obtain ⟨c, hc, hreach⟩ := hid
  exact ⟨c, h.inChain hc, ReflTransGen.mono (fun a b hb => (h.refs a b).mp hb) _ _ hreach⟩

theorem SameRecords.reached (h : SameRecords es es') (hid : Reached es t stepId id) :
    Reached es' t stepId id := by
  induction hid with
  | chain hc => exact .chain (h.inChain hc)
  | ref _ hr ih => exact ih.ref ((h.refs _ _).mp hr)
  | relationship _ hsrr ih =>
    obtain ⟨hrelationship, hid⟩ := mem_reverseFromSRR.mp hsrr
    exact ih.relationship (mem_reverseFromSRR.mpr ⟨(h.relationships _).mp hrelationship, (h.refs _ _).mp hid⟩)

theorem SameRecords.staysInside (h : SameRecords es es') (hstays : StaysInside es t stepId) :
    StaysInside es' t stepId := by
  intro srrId hreached hrelationship r hr hother
  refine h.owned (hstays srrId (h.symm.reached hreached) ((h.relationships srrId).mpr hrelationship) r
    ((h.refs srrId r).mpr hr) hother)

/-! ## The parts -/

/-- A record of a type with references. -/
def scanned (id type : String) (body : String) : ScannedEntity :=
  ⟨some id.toList, some type.toList, ("#" ++ id ++ "=" ++ type ++ "(" ++ body ++ ")").toList, 0, 1⟩

/-- Two products, each with a shape representation, and a relationship between the representations. The
second has an axis placement. -/
def twoProducts : List ScannedEntity :=
  [scanned "1" "PRODUCT" "'a','a','',()", scanned "2" "PRODUCT_DEFINITION_FORMATION" "'','',#1",
    scanned "3" "PRODUCT_DEFINITION" "'','',#2,$", scanned "4" "PRODUCT_DEFINITION_SHAPE" "'','',#3",
    scanned "5" "SHAPE_REPRESENTATION" "'',(),$", scanned "6" "SHAPE_DEFINITION_REPRESENTATION" "#4,#5",
    scanned "11" "PRODUCT" "'b','b','',()", scanned "12" "PRODUCT_DEFINITION_FORMATION" "'','',#11",
    scanned "13" "PRODUCT_DEFINITION" "'','',#12,$", scanned "14" "PRODUCT_DEFINITION_SHAPE" "'','',#13",
    scanned "15" "SHAPE_REPRESENTATION" "'',(#17),$", scanned "16" "SHAPE_DEFINITION_REPRESENTATION" "#14,#15",
    scanned "17" "CARTESIAN_POINT" "'',(0.,0.,0.)",
    scanned "20" "SHAPE_REPRESENTATION_RELATIONSHIP" "'','',#5,#15"]

/-- The tables that are read from these records. -/
def twoProductTables : ProductTables where
  productStepIds := ["1".toList, "11".toList]
  prodDefs id := [("3".toList, "1".toList), ("13".toList, "11".toList)].lookup id
  srToProductId id := [("5".toList, "1".toList), ("15".toList, "11".toList)].lookup id

end PlmCore.CadParser
