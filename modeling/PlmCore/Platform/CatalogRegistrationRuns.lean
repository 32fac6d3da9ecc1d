/-
Whole registrations: the run of all statements, the lines that it leaves, and the second registration.
-/
import PlmCore.Platform.CatalogRegistration

set_option autoImplicit false

namespace PlmCore.Platform.CatalogDb

open PlmCore.Lib

variable {svc : String} {c c' s F : Catalog}

theorem itemsOf_append (before after : List Statement) :
    itemsOf (before ++ after) = itemsOf before ++ itemsOf after := List.filterMap_append

theorem typesOf_append (before after : List Statement) :
    typesOf (before ++ after) = typesOf before ++ typesOf after := List.filterMap_append

theorem mem_typesOf {sts : List Statement} {t : TypeStatement} : t ∈ typesOf sts ↔ .type t ∈ sts := by
  unfold typesOf
  rw [List.mem_filterMap]
  constructor
  · rintro ⟨st, hst, heq⟩
    cases st with
    | type t' =>
      cases heq
      exact hst
    | algorithm z => cases heq
  · exact fun h => ⟨_, h, rfl⟩

/-! ## The statements of a payload -/

/-- The type of every algorithm is among the types written before it, or among `ids`. -/
def TypedFrom : List String → List Statement → Prop
  | _, [] => True
  | ids, .type t :: sts => TypedFrom (t.id :: ids) sts
  | ids, .algorithm x :: sts => x.type_id ∈ ids ∧ TypedFrom ids sts

theorem TypedFrom.mono {sts : List Statement} {ids ids' : List String} (h : TypedFrom ids sts) (hids : ids ⊆ ids') :
    TypedFrom ids' sts := by
  induction sts generalizing ids ids' with
  | nil => trivial
  | cons st sts ih =>
    cases st with
    | type t => exact ih h (List.cons_subset_cons _ hids)
    | algorithm x => exact ⟨hids h.1, ih h.2 hids⟩

theorem TypedFrom.append {before after : List Statement} {ids : List String} (h : TypedFrom ids before)
    (hafter : TypedFrom ids after) : TypedFrom ids (before ++ after) := by
  induction before generalizing ids with
  | nil => exact hafter
  | cons st sts ih =>
    cases st with
    | type t => exact ih h (hafter.mono (List.subset_cons_self _ _))
    | algorithm x => exact ⟨h.1, ih h.2 hafter⟩

theorem typedFrom_map {α : Type} {f : α → Item} {xs : List α} {type_id : String} (h : ∀ x, (f x).type_id = type_id)
    {ids : List String} (hids : xs ≠ [] → type_id ∈ ids) : TypedFrom ids (xs.map fun x => .algorithm (f x)) := by
  induction xs with
  | nil => trivial
  | cons x xs ih =>
    have hmem := hids (List.cons_ne_nil x xs)
    exact ⟨h x ▸ hmem, ih fun _ => hmem⟩

section Statements

variable (to_lowercase : String → String) (p : Payload)

theorem typedFrom_contributions (ks : List ContributionInput) (ids : List String) :
    TypedFrom ids (ks.flatMap (contributionStatements to_lowercase svc)) := by
  induction ks with
  | nil => trivial
  | cons k ks ih =>
    rw [List.flatMap_cons]
    refine TypedFrom.append ?_ ih
    unfold contributionStatements
    split
    case isTrue => trivial
    case isFalse =>
      change TypedFrom (k.type_id :: ids)
        (k.algorithms.map fun a => .algorithm (contributionItem to_lowercase svc k.type_id a))
      exact typedFrom_map (f := contributionItem to_lowercase svc k.type_id) (fun _ => rfl) fun _ => List.mem_cons_self

/-- **Every algorithm of a payload comes after its type.** -/
theorem typedFrom_statements : TypedFrom [] (statements to_lowercase svc p) := by
  have hrest : ∀ ids : List String, (p.handlers ≠ [] → handler_type_id svc ∈ ids) →
      (p.guards ≠ [] → guard_type_id svc ∈ ids) →
      TypedFrom ids (p.handlers.map (fun h => Statement.algorithm (handlerItem to_lowercase svc h)) ++
        p.guards.map (fun g => .algorithm (guardItem to_lowercase svc g)) ++
        p.contributions.flatMap (contributionStatements to_lowercase svc)) := fun ids hh hg =>
    ((typedFrom_map (f := handlerItem to_lowercase svc) (fun _ => rfl) hh).append
      (typedFrom_map (f := guardItem to_lowercase svc) (fun _ => rfl) hg)).append
      (typedFrom_contributions to_lowercase p.contributions ids)
  unfold statements
  rw [List.append_assoc, List.append_assoc, List.append_assoc, ← List.append_assoc (p.handlers.map _)]
  split
  case isTrue hh =>
    split
    case isTrue hg => exact hrest [] (fun h => absurd hh h) fun h => absurd hg h
    case isFalse => exact hrest [_] (fun h => absurd hh h) fun _ => List.mem_singleton_self _
  case isFalse =>
    split
    case isTrue hg => exact hrest [_] (fun _ => List.mem_singleton_self _) fun h => absurd hg h
    case isFalse =>
      exact hrest [_, _] (fun _ => List.mem_cons_of_mem _ (List.mem_singleton_self _)) fun _ => List.mem_cons_self

/-- The codes of a payload. -/
def Payload.codes (p : Payload) : List String :=
  p.handlers.map Entry.code ++ p.guards.map Entry.code ++ p.contributions.flatMap fun k => k.algorithms.map Entry.code

theorem items_codes : (items to_lowercase svc p).map Item.code = p.codes := by
  have hmap : ∀ {f : Entry → Item} (es : List Entry), (∀ e, (f e).code = e.code) →
      (itemsOf (es.map fun e => .algorithm (f e))).map Item.code = es.map Entry.code := by
    intro f es h
    induction es with
    | nil => rfl
    | cons e es ih => exact congrArg₂ _ (h e) ih
  have htype : ∀ (t : TypeStatement) (cond : Prop) [Decidable cond],
      itemsOf (if cond then [] else [.type t]) = [] := by
    intro t cond _
    split <;> rfl
  have hcontributions : ∀ ks : List ContributionInput,
      (itemsOf (ks.flatMap (contributionStatements to_lowercase svc))).map Item.code =
        ks.flatMap fun k => k.algorithms.map Entry.code := by
    intro ks
    induction ks with
    | nil => rfl
    | cons k ks ih =>
      rw [List.flatMap_cons, itemsOf_append, List.map_append, ih, List.flatMap_cons]
      refine congrArg (· ++ _) ?_
      unfold contributionStatements
      split
      case isTrue hnil => rw [hnil]; rfl
      case isFalse => exact hmap k.algorithms fun _ => rfl
  unfold items statements
  rw [itemsOf_append, itemsOf_append, itemsOf_append, itemsOf_append, htype, htype, List.map_append, List.map_append,
    hcontributions]
  exact congrArg (· ++ _) (congrArg₂ (· ++ ·) (hmap _ fun _ => rfl) (hmap _ fun _ => rfl))

end Statements

/-! ## The types after a run -/

theorem Statement.run_types {st : Statement} (hfits : ∀ x, st = .algorithm x → x.Fits svc)
    (h : st.run svc c = some c') (id : String) :
    c'.types.find? (fun r => r.id = id) = finalType svc [st] id (c.types.find? fun r => r.id = id) := by
  cases st with
  | type t => exact find?_insertType h id
  | algorithm x =>
    obtain ⟨row, hwrites⟩ := upsert_writes (hfits x rfl) h
    rw [hwrites.types]
    rfl

theorem finalType_cons (st : Statement) (sts : List Statement) (id : String) (row : Option TypeRow) :
    finalType svc (st :: sts) id row = finalType svc sts id (finalType svc [st] id row) := by
  cases st with
  | type t => rfl
  | algorithm x => rfl

/-- **The row of every type after a run** is what the statements make of the row before it. -/
theorem find?_runAll {sts : List Statement} (hfits : ∀ x ∈ itemsOf sts, x.Fits svc) (h : runAll svc sts c = some c')
    (id : String) :
    c'.types.find? (fun r => r.id = id) = finalType svc sts id (c.types.find? fun r => r.id = id) := by
  induction sts generalizing c with
  | nil =>
    cases h
    rfl
  | cons st sts ih =>
    rw [runAll_cons] at h
    obtain ⟨mid, hmid, hrest⟩ := Option.bind_eq_some_iff.mp h
    have hhead : ∀ x, st = .algorithm x → x.Fits svc := fun x hx =>
      hfits x (mem_itemsOf.mpr (hx ▸ List.mem_cons_self))
    have htail : ∀ x ∈ itemsOf sts, x.Fits svc := fun x hx =>
      hfits x (mem_itemsOf.mpr (List.mem_cons_of_mem st (mem_itemsOf.mp hx)))
    rw [ih htail hrest, Statement.run_types hhead hmid, ← finalType_cons]

/-! ## The lines of a catalog -/

theorem typeLine_ne_algLine (id name code label module type_id : String) :
    typeLine id name ≠ algLine code label module type_id := by
  intro h
  have hlist := congrArg String.toList h
  simp [typeLine, algLine] at hlist

theorem typeLine_ne_instLine (id name label : String) : typeLine id name ≠ instLine label := by
  intro h
  have hlist := congrArg String.toList h
  simp [typeLine, instLine] at hlist

theorem algLine_ne_instLine (code label module type_id name : String) :
    algLine code label module type_id ≠ instLine name := by
  intro h
  have hlist := congrArg String.toList h
  simp [algLine, instLine] at hlist

/-- A type of the service reads so. -/
theorem typeLine_mem_iff {id name : String} :
    typeLine id name ∈ currentLines svc c ↔
      ∃ r ∈ c.types, r.service_code = svc ∧ typeLine r.id r.name = typeLine id name := by
  simp only [currentLines, List.mem_append, List.mem_map, List.mem_filter, decide_eq_true_eq]
  constructor
  · rintro ((⟨r, ⟨hr, hservice⟩, hline⟩ | ⟨a, -, hline⟩) | ⟨i, -, hline⟩)
    · exact ⟨r, hr, hservice, hline⟩
    · exact absurd hline.symm (typeLine_ne_algLine _ _ _ _ _ _)
    · exact absurd hline.symm (typeLine_ne_instLine _ _ _)
  · rintro ⟨r, hr, hservice, hline⟩
    exact .inl (.inl ⟨r, ⟨hr, hservice⟩, hline⟩)

/-- An instance of the service has the name. -/
theorem instLine_mem_iff {name : String} : instLine name ∈ currentLines svc c ↔ Named svc c name := by
  simp only [currentLines, List.mem_append, List.mem_map, List.mem_filter, decide_eq_true_eq]
  constructor
  · rintro ((⟨r, -, hline⟩ | ⟨a, -, hline⟩) | ⟨i, ⟨hi, hservice⟩, hline⟩)
    · exact absurd hline (typeLine_ne_instLine _ _ _)
    · exact absurd hline (algLine_ne_instLine _ _ _ _ _)
    · exact ⟨i, hi, Prod.ext hservice ((String.append_right_inj _).mp hline)⟩
  · rintro ⟨i, hi, hkey⟩
    obtain ⟨hservice, hname⟩ := Prod.mk.inj hkey
    exact .inr ⟨i, ⟨hi, hservice⟩, congrArg instLine hname⟩

theorem Item.Stored.line_mem {y : Item} {a : AlgorithmRow} (h : y.Stored svc c a) :
    algLine y.code y.label (nz y.module) y.type_id ∈ currentLines svc c := by
  obtain ⟨hservice, hcode⟩ := Prod.mk.inj h.key
  simp only [currentLines, List.mem_append, List.mem_map, List.mem_filter, decide_eq_true_eq]
  refine .inl (.inr ⟨a, ⟨h.mem, hservice⟩, ?_⟩)
  rw [hcode, h.name, h.module_name, h.type_id]

section Lines

variable (to_lowercase : String → String) (p : Payload)

/-- **When a catalog that covers the payload has all its lines**: the types read so, and every label is the
name of an instance of the service. -/
theorem incoming_subset_iff (hcovers : Covers svc (items to_lowercase svc p) c) :
    incoming_fingerprint svc p ⊆ currentLines svc c ↔
      (∀ t ∈ typesOf (statements to_lowercase svc p), typeLine t.id t.name ∈ currentLines svc c) ∧
        ∀ y ∈ items to_lowercase svc p, Named svc c y.label := by
  constructor
  · intro h
    refine ⟨fun t ht => h ((mem_incoming_iff to_lowercase svc p _).mpr ⟨_, mem_typesOf.mp ht, ?_⟩),
      fun y hy => instLine_mem_iff.mp (h ((mem_incoming_iff to_lowercase svc p _).mpr ⟨_, mem_itemsOf.mp hy, ?_⟩))⟩
    · exact List.mem_singleton_self _
    · exact List.mem_cons_of_mem _ (List.mem_singleton_self _)
  · rintro ⟨htypes, hnamed⟩ l hl
    obtain ⟨st, hst, hl⟩ := (mem_incoming_iff to_lowercase svc p l).mp hl
    cases st with
    | type t =>
      obtain rfl := List.mem_singleton.mp hl
      exact htypes t (mem_typesOf.mpr hst)
    | algorithm y =>
      have hy := mem_itemsOf.mpr hst
      obtain rfl | hl := List.mem_cons.mp hl
      · obtain ⟨a, hstored, -⟩ := hcovers y hy
        exact hstored.line_mem
      · obtain rfl := List.mem_singleton.mp hl
        exact instLine_mem_iff.mpr (hnamed y hy)

/-- The types of the payload read so after a run if the statements make them so. -/
theorem typesNamed_iff {sts : List Statement} (hfits : ∀ x ∈ itemsOf sts, x.Fits svc)
    (h : runAll svc sts c = some c') :
    TypesNamed svc sts c ↔ ∀ t ∈ typesOf sts, typeLine t.id t.name ∈ currentLines svc c' := by
  unfold TypesNamed
  refine forall₂_congr fun t _ => ?_
  rw [typeLine_mem_iff]
  constructor
  · rintro ⟨id, r, hfinal, hservice, hline⟩
    rw [← find?_runAll hfits h] at hfinal
    exact ⟨r, List.mem_of_find?_eq_some hfinal, hservice, hline⟩
  · rintro ⟨r, hr, hservice, hline⟩
    refine ⟨r.id, r, ?_, hservice, hline⟩
    rw [← find?_runAll hfits h]
    exact (find?_eq_some_iff_of_unique c'.sound.typeId).mpr ⟨hr, rfl⟩

end Lines

end PlmCore.Platform.CatalogDb
