/-
Walking a graph by names.

Each place has children, listed in an order that may differ from one time to the next, and each child has
a name. A walk takes the first child of the next name. Whatever the orders, a walk by the names on the way
to a place ends there exactly when no place that can be reached has two children of one name.
-/
import Mathlib.Logic.Relation
import Mathlib.Tactic.Common

set_option autoImplicit false

namespace PlmCore.Lib

variable {S N ι : Type*} [DecidableEq N]

/-- The walk; the first order is for the first step. -/
def walkNames (children : ι → S → List S) (name : S → N) : (Nat → ι) → S → List N → Option S
  | _, s, [] => some s
  | orders, s, n :: ns =>
    match (children (orders 0) s).find? (name · = n) with
    | none => none
    | some c => walkNames children name (fun k => orders (k + 1)) c ns

/-- A child in some order. -/
def NamedChild (children : ι → S → List S) (s c : S) : Prop := ∃ i, c ∈ children i s

/-- The names on a way from one place to another. -/
inductive NamedWay (children : ι → S → List S) (name : S → N) : S → List N → S → Prop
  | here (s : S) : NamedWay children name s [] s
  | step {s c t : S} {ns : List N} :
      NamedChild children s c → NamedWay children name c ns t → NamedWay children name s (name c :: ns) t

/-- No place that can be reached has two children of one name. -/
def ToldByName (children : ι → S → List S) (name : S → N) (root : S) : Prop :=
  ∀ s, Relation.ReflTransGen (NamedChild children) root s →
    ∀ c c', NamedChild children s c → NamedChild children s c' → name c = name c' → c = c'

section Walks

variable {children : ι → S → List S} {name : S → N}

omit [DecidableEq N] in
/-- Each name on a way is that of a child on it. -/
theorem NamedWay.exists_child {s t : S} {ns : List N} (h : NamedWay children name s ns t) {n : N}
    (hn : n ∈ ns) :
    ∃ u c, Relation.ReflTransGen (NamedChild children) s u ∧ NamedChild children u c ∧ name c = n := by
  induction h with
  | here => cases hn
  | @step s c t ns hchild _ ih =>
    obtain rfl | hn := List.mem_cons.mp hn
    · exact ⟨s, c, .refl, hchild, rfl⟩
    · obtain ⟨u, c', hu, hlast⟩ := ih hn
      exact ⟨u, c', .head hchild hu, hlast⟩

omit [DecidableEq N] in
theorem namedWay_concat_iff {s t : S} {ns : List N} {n : N} :
    NamedWay children name s (ns ++ [n]) t ↔
      ∃ u, NamedWay children name s ns u ∧ NamedChild children u t ∧ name t = n := by
  constructor
  · intro h
    induction ns generalizing s with
    | nil =>
      cases h with
      | step hchild hrest =>
        cases hrest
        exact ⟨s, .here s, hchild, rfl⟩
    | cons m ns ih =>
      cases h with
      | step hchild hrest =>
        obtain ⟨u, hu, hlast⟩ := ih hrest
        exact ⟨u, .step hchild hu, hlast⟩
  · rintro ⟨u, hu, hchild, rfl⟩
    induction hu with
    | here s => exact .step hchild (.here t)
    | step hfirst _ ih => exact .step hfirst (ih hchild)

omit [DecidableEq N] in
/-- What can be reached has names that lead to it. -/
theorem exists_namedWay {s t : S} (h : Relation.ReflTransGen (NamedChild children) s t) :
    ∃ ns, NamedWay children name s ns t := by
  induction h with
  | refl => exact ⟨[], .here _⟩
  | @tail b c _ hchild ih =>
    obtain ⟨ns, hns⟩ := ih
    exact ⟨ns ++ [name c], namedWay_concat_iff.mpr ⟨b, hns, hchild, rfl⟩⟩

/-- The names of a walk lead to where it ends. -/
theorem namedWay_of_walkNames {orders : Nat → ι} {s t : S} {ns : List N}
    (h : walkNames children name orders s ns = some t) : NamedWay children name s ns t := by
  induction ns generalizing orders s with
  | nil =>
    cases h
    exact .here _
  | cons n ns ih =>
    unfold walkNames at h
    split at h
    · cases h
    · rename_i c hfind
      have hfound := List.find?_some hfind
      obtain rfl : name c = n := of_decide_eq_true hfound
      exact .step ⟨_, List.mem_of_find?_eq_some hfind⟩ (ih h)

theorem walkNames_append (orders : Nat → ι) (s : S) (ns ms : List N) :
    walkNames children name orders s (ns ++ ms) =
      (walkNames children name orders s ns).bind fun t =>
        walkNames children name (fun k => orders (k + ns.length)) t ms := by
  induction ns generalizing orders s with
  | nil => rfl
  | cons n ns ih =>
    rw [List.cons_append, walkNames, walkNames]
    split
    · rfl
    · rw [ih]
      rfl

/-- All orders list the same children. -/
def SameChildren (children : ι → S → List S) : Prop := ∀ i j s c, c ∈ children i s → c ∈ children j s

/-- Names that tell children apart lead the walk to where they lead. -/
theorem walkNames_of_namedWay (hsame : SameChildren children) {root t : S} {ns : List N}
    (htold : ToldByName children name root) (h : NamedWay children name root ns t) (orders : Nat → ι) :
    walkNames children name orders root ns = some t := by
  induction h generalizing orders with
  | here s => rfl
  | @step s c t ns hchild _ ih =>
    have hrest : ToldByName children name c := fun u hu => htold u (.head hchild hu)
    obtain ⟨i, hi⟩ := hchild
    obtain ⟨c', hfind⟩ : ∃ c', (children (orders 0) s).find? (name · = name c) = some c' :=
      Option.isSome_iff_exists.mp (List.find?_isSome.mpr ⟨c, hsame i _ s c hi, decide_eq_true rfl⟩)
    have hfound := List.find?_some hfind
    have hname : name c' = name c := of_decide_eq_true hfound
    obtain rfl : c' = c :=
      htold s .refl c' c ⟨_, List.mem_of_find?_eq_some hfind⟩ ⟨i, hi⟩ hname
    rw [walkNames, hfind]
    exact ih hrest _

/-- **A walk ends where its names lead**, in every order, exactly when names tell children apart. -/
theorem walkNames_iff_told (hsame : SameChildren children) (root : S) :
    (∀ ns t, NamedWay children name root ns t → ∀ orders, walkNames children name orders root ns = some t) ↔
      ToldByName children name root := by
  refine ⟨fun h s hs c c' hc hc' hname => ?_, fun h ns t hway => walkNames_of_namedWay hsame h hway⟩
  obtain ⟨ns, hns⟩ : ∃ ns, NamedWay children name root ns s := exists_namedWay hs
  obtain ⟨i, hi⟩ := hc
  have hfirst := h _ _ (namedWay_concat_iff.mpr ⟨s, hns, ⟨i, hi⟩, rfl⟩) fun _ => i
  have hsecond := h _ _ (namedWay_concat_iff.mpr ⟨s, hns, hc', hname.symm⟩) fun _ => i
  exact Option.some.inj (hfirst.symm.trans hsecond)

end Walks

end PlmCore.Lib
