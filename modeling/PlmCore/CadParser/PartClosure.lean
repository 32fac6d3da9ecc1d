/-
What the closures of a product contain.

The definitional chain and its forward closure are what can be reached over references, so they do not
depend on the order in which records and references come, and the forward closure contains what its records
refer to. The expansion keeps this but for two kinds of records that it adds and does not follow: the
representation of another product that a relationship leads to, and what a referrer of such a relationship
refers to.
-/
import PlmCore.CadParser.SplitClosure

set_option autoImplicit false

namespace PlmCore.CadParser

open PlmCore.Lib Relation

/-! ## Sets in the order of insertion -/

section Sets

variable {α : Type} [DecidableEq α] {set xs : List α} {a b : α}

@[simp] theorem mem_setAdd : b ∈ setAdd set a ↔ b ∈ set ∨ b = a := by
  unfold setAdd
  split
  case isTrue h =>
    refine ⟨Or.inl, ?_⟩
    rintro (hb | rfl)
    · exact hb
    · exact h
  case isFalse => rw [List.mem_append, List.mem_singleton]

theorem nodup_setAdd (h : set.Nodup) : (setAdd set a).Nodup := by
  unfold setAdd
  split
  case isTrue => exact h
  case isFalse hnew => exact List.nodup_append.mpr ⟨h, List.nodup_singleton a, by grind⟩

theorem mem_foldl_setAdd : b ∈ xs.foldl setAdd set ↔ b ∈ set ∨ b ∈ xs := by
  induction xs generalizing set with
  | nil => simp
  | cons a xs ih => rw [List.foldl_cons, ih, mem_setAdd, List.mem_cons, or_assoc]

theorem nodup_foldl_setAdd (h : set.Nodup) : (xs.foldl setAdd set).Nodup := by
  induction xs generalizing set with
  | nil => exact h
  | cons a xs ih => exact ih (nodup_setAdd h)

/-- Adding keeps what is there in its place. -/
theorem foldl_setAdd_eq (set xs : List α) : ∃ new, xs.foldl setAdd set = set ++ new ∧ ∀ a ∈ new, a ∈ xs := by
  induction xs generalizing set with
  | nil => exact ⟨[], by simp⟩
  | cons a xs ih =>
    rw [List.foldl_cons]
    obtain ⟨new, hnew, hmem⟩ := ih (setAdd set a)
    rw [hnew]
    unfold setAdd
    split
    case isTrue => exact ⟨new, rfl, fun b hb => List.mem_cons_of_mem a (hmem b hb)⟩
    case isFalse =>
      refine ⟨a :: new, by simp, ?_⟩
      rintro b hb
      obtain rfl | hb := List.mem_cons.mp hb
      · exact List.mem_cons_self
      · exact List.mem_cons_of_mem a (hmem b hb)

@[simp] theorem mem_newSet : b ∈ newSet xs ↔ b ∈ xs := by
  rw [newSet, mem_foldl_setAdd]
  simp

theorem nodup_newSet : (newSet xs).Nodup := nodup_foldl_setAdd List.nodup_nil

end Sets

/-! ## The graph -/

variable {es : List ScannedEntity} {t : ProductTables} {stepId id r srrId : Id}

theorem mem_refGraph : r ∈ refGraph es id ↔ ∃ e ∈ es, e.id = some id ∧ r ∈ e.references := by
  simp [refGraph, and_assoc]

/-- The graphs have the same edges. -/
theorem mem_reverseRefGraph : id ∈ reverseRefGraph es r ↔ r ∈ refGraph es id := by
  simp only [reverseRefGraph, mem_refGraph, mem_newSet, List.mem_filterMap, List.mem_filter,
    decide_eq_true_eq]
  constructor
  · rintro ⟨e, ⟨he, hr⟩, hid⟩
    exact ⟨e, he, hid, hr⟩
  · rintro ⟨e, he, hid, hr⟩
    exact ⟨e, ⟨he, hr⟩, hid⟩

/-- The record with an id is a relationship. -/
def IsRelationship (es : List ScannedEntity) (srrId : Id) : Prop :=
  ∃ e, entity es srrId = some e ∧ e.IsRelationship

theorem mem_of_entity {e : ScannedEntity} (h : entity es id = some e) : e ∈ es ∧ e.id = some id := by
  have hmem := List.mem_filter.mp (List.mem_of_getLast? h)
  exact ⟨hmem.1, of_decide_eq_true hmem.2⟩

theorem mem_reverseFromSRR :
    srrId ∈ reverseFromSRR es id ↔ IsRelationship es srrId ∧ id ∈ refGraph es srrId := by
  simp only [reverseFromSRR, entityIds, List.mem_filter, mem_newSet, List.mem_filterMap, Bool.and_eq_true,
    Option.any_eq_true, decide_eq_true_eq, IsRelationship]
  constructor
  · rintro ⟨-, hrelationship, hid⟩
    exact ⟨hrelationship, hid⟩
  · rintro ⟨⟨e, he, hrelationship⟩, hid⟩
    exact ⟨⟨e, mem_of_entity he⟩, ⟨e, he, hrelationship⟩, hid⟩

/-- The ids that occur. -/
def allIds (es : List ScannedEntity) (stepId : Id) : List Id :=
  stepId :: (es.filterMap ScannedEntity.id ++ es.flatMap ScannedEntity.references)

theorem refGraph_subset : refGraph es id ⊆ allIds es stepId := by
  intro r hr
  obtain ⟨e, he, -, hr⟩ := mem_refGraph.mp hr
  exact List.mem_cons_of_mem _ (List.mem_append_right _ (List.mem_flatMap.mpr ⟨e, he, hr⟩))

/-- What refers to something is an id that occurs. -/
theorem mem_allIds_of_ref (h : r ∈ refGraph es id) : id ∈ allIds es stepId := by
  obtain ⟨e, he, hid, -⟩ := mem_refGraph.mp h
  exact List.mem_cons_of_mem _ (List.mem_append_left _ (List.mem_filterMap.mpr ⟨e, he, hid⟩))

theorem mem_chainReferrers : id ∈ chainReferrers es t stepId r ↔ r ∈ refGraph es id ∧
    id ∉ t.productStepIds ∧ ¬ ((∃ d ∈ refGraph es id, t.isOwnDefinition stepId d = true) ∧
      ∃ d ∈ refGraph es id, t.isOtherDefinition stepId d = true) := by
  simp only [chainReferrers, List.mem_filter, mem_reverseRefGraph, Bool.and_eq_true, decide_eq_true_eq,
    Bool.not_eq_true', ← Bool.not_eq_true, List.any_eq_true]

theorem chainReferrers_subset : chainReferrers es t stepId id ⊆ allIds es stepId := fun _ h =>
  mem_allIds_of_ref (mem_chainReferrers.mp h).1

/-! ## The chain and what it refers to -/

/-- What `findDefinitionalChain` finds. -/
def InChain (es : List ScannedEntity) (t : ProductTables) (stepId : Id) : Id → Prop :=
  Reach (chainReferrers es t stepId) [stepId]

/-- What the chain refers to, at any remove. -/
def Owned (es : List ScannedEntity) (t : ProductTables) (stepId id : Id) : Prop :=
  ∃ c, InChain es t stepId c ∧ ReflTransGen (fun a b => b ∈ refGraph es a) c id

theorem Owned.ref (h : Owned es t stepId id) (hr : r ∈ refGraph es id) : Owned es t stepId r := by
  obtain ⟨c, hc, hreach⟩ := h
  exact ⟨c, hc, hreach.tail hr⟩

/-- The rounds that are enough for every loop. -/
def enoughRounds (es : List ScannedEntity) (stepId : Id) : Nat := (allIds es stepId).length

/-- **The chain** ends. -/
theorem findDefinitionalChain_spec (es : List ScannedEntity) (t : ProductTables) (stepId : Id) :
    ∃ chain, (∀ rounds, enoughRounds es stepId ≤ rounds →
        findDefinitionalChain es t stepId rounds = some chain) ∧
      chain.Nodup ∧ ∀ id, id ∈ chain ↔ InChain es t stepId id := by
  have hnodup : ([] ++ [stepId] : List Id).Nodup := List.nodup_singleton stepId
  have hstart : [] ++ [stepId] ⊆ allIds es stepId := List.cons_subset.mpr ⟨List.mem_cons_self, List.nil_subset _⟩
  obtain ⟨chain, hchain⟩ : ∃ chain, findDefinitionalChain es t stepId (enoughRounds es stepId) = some chain :=
    workList_isSome (fun _ _ => chainReferrers_subset) hnodup hstart (Nat.le_refl _)
  exact ⟨chain, fun rounds hrounds => workList_mono hchain hrounds, workList_nodup hnodup hchain,
    fun id => mem_workList_iff hchain⟩

/-- **The forward closure** ends. -/
theorem collectForwardClosure_spec (es : List ScannedEntity) (stepId : Id) {seeds : List Id} (hnodup : seeds.Nodup)
    (hseeds : seeds ⊆ allIds es stepId) :
    ∃ closure, (∀ rounds, enoughRounds es stepId ≤ rounds →
        collectForwardClosure es rounds seeds = some closure) ∧
      closure.Nodup ∧ ∀ id, id ∈ closure ↔ Reach (refGraph es) seeds id := by
  have hnodup : ([] ++ seeds).Nodup := hnodup
  obtain ⟨closure, hclosure⟩ :
      ∃ closure, collectForwardClosure es (enoughRounds es stepId) seeds = some closure :=
    workList_isSome (fun _ _ => refGraph_subset) hnodup hseeds (Nat.le_refl _)
  exact ⟨closure, fun rounds hrounds => workList_mono hclosure hrounds, workList_nodup hnodup hclosure,
    fun id => mem_workList_iff hclosure⟩

/-! ## One relationship -/

namespace Expansion

variable {x y : Expansion} {ids : List Id}

/-- Records that are added to the closure and to the queue. -/
def extend (x : Expansion) (new : List Id) : Expansion :=
  { x with closure := x.closure ++ new, pending := x.pending ++ new }

@[simp] theorem extend_nil : x.extend [] = x := by simp [extend]

@[simp] theorem extend_extend (new more : List Id) : (x.extend new).extend more = x.extend (new ++ more) := by
  simp [extend]

/-- Including ids adds those that are not there, each once. -/
theorem foldl_include (x : Expansion) (ids : List Id) :
    ∃ new, ids.foldl Expansion.include x = x.extend new ∧ (x.closure.Nodup → (x.closure ++ new).Nodup) ∧
      ∀ id, id ∈ new ↔ id ∈ ids ∧ id ∉ x.closure := by
  induction ids generalizing x with
  | nil => exact ⟨[], by simp⟩
  | cons a ids ih =>
    rw [List.foldl_cons]
    obtain ⟨new, hfold, hnodup, hmem⟩ := ih (x.include a)
    by_cases ha : a ∈ x.closure
    · have hsame : x.include a = x := if_pos ha
      rw [hsame] at hfold hnodup hmem ⊢
      refine ⟨new, hfold, hnodup, fun id => ?_⟩
      rw [hmem, List.mem_cons]
      grind
    · have hadd : x.include a = x.extend [a] := if_neg ha
      rw [hadd] at hfold hnodup hmem ⊢
      refine ⟨a :: new, by rw [hfold, extend_extend, List.singleton_append], fun hx => ?_, fun id => ?_⟩
      · have hxa : (x.closure ++ [a]).Nodup := List.nodup_append.mpr ⟨hx, List.nodup_singleton a, by grind⟩
        simpa [extend] using hnodup hxa
      · simp only [extend, List.mem_append, List.mem_cons, List.not_mem_nil, or_false] at hmem ⊢
        rw [hmem]
        grind

/-- A referrer that is added comes with what it refers to. -/
theorem foldl_includeReferrer (es : List ScannedEntity) (x : Expansion) (cs : List Id) :
    ∃ new, cs.foldl (Expansion.includeReferrer es) x = x.extend new ∧
      (x.closure.Nodup → (x.closure ++ new).Nodup) ∧
      ∀ id ∈ new, ∃ c ∈ cs, refGraph es c ⊆ x.closure ++ new ∧ c ∈ new ∧ (id = c ∨ id ∈ refGraph es c) := by
  induction cs generalizing x with
  | nil => exact ⟨[], by simp⟩
  | cons c cs ih =>
    rw [List.foldl_cons]
    by_cases hc : c ∈ x.closure
    · have hsame : x.includeReferrer es c = x := if_pos hc
      rw [hsame]
      obtain ⟨new, hfold, hnodup, hmem⟩ := ih x
      refine ⟨new, hfold, hnodup, fun id hid => ?_⟩
      obtain ⟨d, hd, hrest⟩ := hmem id hid
      exact ⟨d, List.mem_cons_of_mem c hd, hrest⟩
    · have hadd : x.includeReferrer es c = (c :: refGraph es c).foldl Expansion.include x := if_neg hc
      obtain ⟨first, hfirst, hfirstNodup, hfirstMem⟩ := foldl_include x (c :: refGraph es c)
      rw [hadd, hfirst]
      obtain ⟨new, hfold, hnodup, hmem⟩ := ih (x.extend first)
      have hcFirst : c ∈ first := (hfirstMem c).mpr ⟨List.mem_cons_self, hc⟩
      refine ⟨first ++ new, by rw [hfold, extend_extend], fun hx => ?_, fun id hid => ?_⟩
      · rw [← List.append_assoc]
        exact hnodup (hfirstNodup hx)
      · rw [← List.append_assoc]
        obtain hid | hid := List.mem_append.mp hid
        · refine ⟨c, List.mem_cons_self, fun r hr => ?_, List.mem_append_left _ hcFirst, ?_⟩
          · refine List.mem_append_left _ (List.mem_append.mpr ?_)
            by_cases hrx : r ∈ x.closure
            · exact .inl hrx
            · exact .inr ((hfirstMem r).mpr ⟨List.mem_cons_of_mem c hr, hrx⟩)
          · exact List.mem_cons.mp ((hfirstMem id).mp hid).1
        · obtain ⟨d, hd, hrefs, hdNew, hid⟩ := hmem id hid
          exact ⟨d, List.mem_cons_of_mem c hd, hrefs, List.mem_append_right _ hdNew, hid⟩

/-- What a relationship adds to a closure: itself, the entry representations of other products it leads
to, and what else belongs to it. -/
structure Adds (es : List ScannedEntity) (t : ProductTables) (stepId : Id) (closure : List Id) (srrId : Id)
    (others new : List Id) : Prop where
  nodup : (closure ++ srrId :: (others ++ new)).Nodup
  within : srrId :: (others ++ new) ⊆ allIds es stepId
  refs : refGraph es srrId ⊆ closure ++ srrId :: (others ++ new)
  leads : ∀ id ∈ others, id ∈ refGraph es srrId ∧ t.isOtherEntry stepId id = true
  follows : ∀ id ∈ new, refGraph es id ⊆ closure ++ srrId :: (others ++ new) ∨
    (∃ r ∈ refGraph es srrId, t.isOtherEntry stepId r = true) ∧
      ∃ c ∈ new, srrId ∈ refGraph es c ∧ id ∈ refGraph es c
  inside : (∀ r ∈ refGraph es srrId, t.isOtherEntry stepId r = true → r ∈ closure) →
    others = [] ∧ ∀ id ∈ new, Reach (refGraph es) (refGraph es srrId) id ∧
      refGraph es id ⊆ closure ++ srrId :: (others ++ new)

theorem nodup_refGraph : (refGraph es id).Nodup := nodup_newSet

/-- The ids reached from references occur. -/
theorem reach_mem_allIds {seeds : List Id} (hseeds : seeds ⊆ allIds es stepId)
    (h : Reach (refGraph es) seeds id) : id ∈ allIds es stepId :=
  h.mem_of_closed (fun _ ha => hseeds ha) fun _ _ _ hb => refGraph_subset hb

/-- A relationship that leads nowhere else adds all that it refers to, at any remove. -/
theorem cross_inside (hnodup : x.closure.Nodup) (hsrr : srrId ∈ allIds es stepId)
    (hnew : srrId ∉ x.closure)
    (hinside : ∀ r ∈ refGraph es srrId, t.isOtherEntry stepId r = true → r ∈ x.closure) :
    ∃ new, (∀ rounds, enoughRounds es stepId ≤ rounds →
        x.cross es t stepId rounds srrId = some (x.extend (srrId :: new))) ∧
      Adds es t stepId x.closure srrId [] new := by
  have hnone : ((refGraph es srrId).filter (· ∉ x.closure)).filter (t.isOtherEntry stepId) = [] := by
    rw [List.filter_eq_nil_iff]
    intro r hr hother
    obtain ⟨hr, hfresh⟩ := List.mem_filter.mp hr
    exact of_decide_eq_true hfresh (hinside r hr hother)
  have hseeds : (refGraph es srrId).filter (· ∉ x.closure) ⊆ refGraph es srrId := List.filter_subset_self _
  obtain ⟨sub, hsub, -, hsubMem⟩ :=
    collectForwardClosure_spec es stepId (nodup_refGraph.filter _) (List.Subset.trans hseeds refGraph_subset)
  have hadd : x.include srrId = x.extend [srrId] := if_neg hnew
  obtain ⟨new, hfold, hnewNodup, hnewMem⟩ := foldl_include (x.extend [srrId]) sub
  have hall : (x.closure ++ [srrId]).Nodup :=
    List.nodup_append.mpr ⟨hnodup, List.nodup_singleton srrId, by grind⟩
  have hassoc : (x.closure ++ [srrId]) ++ new = x.closure ++ srrId :: ([] ++ new) := by simp
  have hcover : ∀ r, Reach (refGraph es) ((refGraph es srrId).filter (· ∉ x.closure)) r →
      r ∈ x.closure ++ srrId :: ([] ++ new) := by
    intro r hr
    rw [← hassoc, List.mem_append]
    by_cases hold : r ∈ x.closure ++ [srrId]
    · exact .inl hold
    · exact .inr ((hnewMem r).mpr ⟨(hsubMem r).mpr hr, hold⟩)
  have hreach : ∀ id ∈ new, Reach (refGraph es) ((refGraph es srrId).filter (· ∉ x.closure)) id :=
    fun id hid => (hsubMem id).mp ((hnewMem id).mp hid).1
  refine ⟨new, fun rounds hrounds => ?_, ⟨?_, ?_, ?_, ?_, ?_, ?_⟩⟩
  · rw [Expansion.cross, if_neg hnew]
    simp only [hnone, List.length_nil, Nat.lt_irrefl, gt_iff_lt, if_false, hsub rounds hrounds, hadd,
      Option.map_some, hfold, extend_extend, List.singleton_append]
  · rw [← hassoc]
    exact hnewNodup hall
  · refine List.cons_subset.mpr ⟨hsrr, fun id hid => ?_⟩
    exact reach_mem_allIds (List.Subset.trans hseeds refGraph_subset) (hreach id hid)
  · intro r hr
    by_cases hold : r ∈ x.closure
    · exact List.mem_append_left _ hold
    · exact hcover r (.start (List.mem_filter.mpr ⟨hr, decide_eq_true hold⟩))
  · exact fun id hid => absurd hid List.not_mem_nil
  · exact fun id hid => .inl fun r hr => hcover r ((hreach id hid).tail hr)
  · exact fun _ => ⟨rfl, fun id hid => ⟨(hreach id hid).mono (fun _ => List.Subset.refl _) hseeds,
      fun r hr => hcover r ((hreach id hid).tail hr)⟩⟩

/-- A relationship that leads to another product does not follow it there. -/
theorem cross_outside (hnodup : x.closure.Nodup) (hsrr : srrId ∈ allIds es stepId)
    (hnew : srrId ∉ x.closure) {r : Id} (hr : r ∈ refGraph es srrId) (hother : t.isOtherEntry stepId r = true) (hout : r ∉ x.closure) :
    ∃ others new, (∀ rounds, enoughRounds es stepId ≤ rounds → x.cross es t stepId rounds srrId =
        some ⟨x.closure ++ srrId :: (others ++ new), x.pending ++ srrId :: new, x.checkedForSRR⟩) ∧
      Adds es t stepId x.closure srrId others new := by
  set newRefs := (refGraph es srrId).filter (· ∉ x.closure) with hnewRefs
  set crossRefs := newRefs.filter (t.isOtherEntry stepId) with hcrossRefs
  set safeRefs := newRefs.filter (· ∉ crossRefs) with hsafeRefs
  have hrCross : r ∈ crossRefs :=
    List.mem_filter.mpr ⟨List.mem_filter.mpr ⟨hr, decide_eq_true hout⟩, hother⟩
  have hseeds : safeRefs ⊆ refGraph es srrId :=
    List.Subset.trans (List.filter_subset_self _) (List.filter_subset_self _)
  have hsafe : safeRefs.Nodup := (nodup_refGraph.filter _).filter _
  obtain ⟨sub, hsub, -, hsubMem⟩ :=
    collectForwardClosure_spec es stepId hsafe (List.Subset.trans hseeds refGraph_subset)
  have hadd : x.include srrId = x.extend [srrId] := if_neg hnew
  have hall : (x.closure ++ [srrId]).Nodup :=
    List.nodup_append.mpr ⟨hnodup, List.nodup_singleton srrId, by grind⟩
  obtain ⟨others, hothers, hothersMem⟩ := foldl_setAdd_eq (x.closure ++ [srrId]) crossRefs
  have hothersNodup : (x.closure ++ [srrId] ++ others).Nodup := hothers ▸ nodup_foldl_setAdd hall
  set x' : Expansion := ⟨x.closure ++ [srrId] ++ others, x.pending ++ [srrId], x.checkedForSRR⟩ with hx'
  obtain ⟨first, hfirst, hfirstNodup, hfirstMem⟩ := foldl_include x' sub
  obtain ⟨more, hmore, hmoreNodup, hmoreMem⟩ :=
    foldl_includeReferrer es (x'.extend first) (reverseRefGraph es srrId)
  have hassoc : (x'.extend first).closure ++ more = x.closure ++ srrId :: (others ++ (first ++ more)) := by
    simp [hx', extend]
  have hcover : ∀ id, Reach (refGraph es) safeRefs id →
      id ∈ x.closure ++ srrId :: (others ++ (first ++ more)) := by
    intro id hid
    rw [← hassoc]
    refine List.mem_append_left more (List.mem_append.mpr ?_)
    by_cases hold : id ∈ x'.closure
    · exact .inl hold
    · exact .inr ((hfirstMem id).mpr ⟨(hsubMem id).mpr hid, hold⟩)
  refine ⟨others, first ++ more, fun rounds hrounds => ?_, ⟨?_, ?_, ?_, ?_, ?_, ?_⟩⟩
  · rw [Expansion.cross, if_neg hnew]
    have hlength : crossRefs.length > 0 := List.length_pos_of_mem hrCross
    simp only [← hnewRefs, ← hcrossRefs, ← hsafeRefs, hlength, if_true, hsub rounds hrounds, hadd,
      Option.map_some]
    have hclosure : crossRefs.foldl setAdd (x.extend [srrId]).closure = x'.closure := hothers
    rw [hclosure]
    change some ((reverseRefGraph es srrId).foldl (Expansion.includeReferrer es)
      (sub.foldl Expansion.include x')) = _
    rw [hfirst, hmore]
    simp [hx', extend]
  · rw [← hassoc]
    exact hmoreNodup (hfirstNodup hothersNodup)
  · refine List.cons_subset.mpr ⟨hsrr, fun id hid => ?_⟩
    obtain hid | hid := List.mem_append.mp hid
    · have hidCross := List.mem_filter.mp (List.mem_filter.mp (hothersMem id hid)).1
      exact refGraph_subset hidCross.1
    obtain hid | hid := List.mem_append.mp hid
    · exact reach_mem_allIds (List.Subset.trans hseeds refGraph_subset) ((hsubMem id).mp ((hfirstMem id).mp hid).1)
    · obtain ⟨c, hc, -, -, rfl | hid⟩ := hmoreMem id hid
      · exact mem_allIds_of_ref (mem_reverseRefGraph.mp hc)
      · exact refGraph_subset hid
  · intro id hid
    by_cases hold : id ∈ x.closure
    · exact List.mem_append_left _ hold
    · have hidNew : id ∈ newRefs := List.mem_filter.mpr ⟨hid, decide_eq_true hold⟩
      by_cases hidCross : id ∈ crossRefs
      · have hmem : id ∈ x'.closure := by
          rw [hx', ← hothers, mem_foldl_setAdd]
          exact .inr hidCross
        rw [← hassoc]
        exact List.mem_append_left more (List.mem_append_left first hmem)
      · exact hcover id (.start (List.mem_filter.mpr ⟨hidNew, decide_eq_true hidCross⟩))
  · intro id hid
    have hidCross := List.mem_filter.mp (hothersMem id hid)
    exact ⟨(List.mem_filter.mp hidCross.1).1, hidCross.2⟩
  · intro id hid
    obtain hid | hid := List.mem_append.mp hid
    · exact .inl fun s hs => hcover s (((hsubMem id).mp ((hfirstMem id).mp hid).1).tail hs)
    · obtain ⟨c, hc, hrefs, hcMore, rfl | hid⟩ := hmoreMem id hid
      · exact .inl (hassoc ▸ hrefs)
      · exact .inr ⟨⟨r, hr, hother⟩, c, List.mem_append_right first hcMore, mem_reverseRefGraph.mp hc, hid⟩
  · exact fun hinside => absurd (hinside r hr hother) hout

/-- **One relationship** is in the closure, or is added with what belongs to it. -/
theorem cross_cases (es : List ScannedEntity) (t : ProductTables) (hnodup : x.closure.Nodup)
    (hsrr : srrId ∈ allIds es stepId) :
    ∃ y, (∀ rounds, enoughRounds es stepId ≤ rounds → x.cross es t stepId rounds srrId = some y) ∧
      ((srrId ∈ x.closure ∧ y = x) ∨ (srrId ∉ x.closure ∧ ∃ others new,
        y = ⟨x.closure ++ srrId :: (others ++ new), x.pending ++ srrId :: new, x.checkedForSRR⟩ ∧
          Adds es t stepId x.closure srrId others new)) := by
  by_cases hold : srrId ∈ x.closure
  · exact ⟨x, fun _ _ => if_pos hold, .inl ⟨hold, rfl⟩⟩
  · by_cases hinside : ∀ r ∈ refGraph es srrId, t.isOtherEntry stepId r = true → r ∈ x.closure
    · obtain ⟨new, hcross, hadds⟩ := cross_inside hnodup hsrr hold hinside
      exact ⟨_, hcross, .inr ⟨hold, [], new, rfl, hadds⟩⟩
    · push Not at hinside
      obtain ⟨r, hr, hother, hout⟩ := hinside
      obtain ⟨others, new, hcross, hadds⟩ := cross_outside hnodup hsrr hold hr hother hout
      exact ⟨_, hcross, .inr ⟨hold, others, new, rfl, hadds⟩⟩

end Expansion

/-! ## The loop -/

/-- A record that the expansion adds and does not follow: the entry representation of another product that
a relationship leads to, or what a referrer of such a relationship refers to. -/
inductive NotFollowed (es : List ScannedEntity) (t : ProductTables) (stepId : Id) (part : List Id) (id : Id) :
    Prop
  | otherEntry {srrId : Id} (hsrr : srrId ∈ part) (hrelationship : IsRelationship es srrId)
      (hid : id ∈ refGraph es srrId) (hother : t.isOtherEntry stepId id = true)
  | beside {srrId r c : Id} (hsrr : srrId ∈ part) (hrelationship : IsRelationship es srrId)
      (hr : r ∈ refGraph es srrId) (hother : t.isOtherEntry stepId r = true) (hc : c ∈ part)
      (hreferrer : srrId ∈ refGraph es c) (hid : id ∈ refGraph es c)

theorem NotFollowed.mono {part part' : List Id} (h : NotFollowed es t stepId part id) (hsub : part ⊆ part') :
    NotFollowed es t stepId part' id := by
  cases h with
  | otherEntry hsrr hrelationship hid hother => exact .otherEntry (hsub hsrr) hrelationship hid hother
  | beside hsrr hrelationship hr hother hc hreferrer hid =>
    exact .beside (hsub hsrr) hrelationship hr hother (hsub hc) hreferrer hid

/-- What is reached from the product when relationships are crossed in both directions. -/
inductive Reached (es : List ScannedEntity) (t : ProductTables) (stepId : Id) : Id → Prop
  | chain {id : Id} (h : InChain es t stepId id) : Reached es t stepId id
  | ref {id r : Id} (h : Reached es t stepId id) (hr : r ∈ refGraph es id) : Reached es t stepId r
  | relationship {id srrId : Id} (h : Reached es t stepId id) (hsrr : srrId ∈ reverseFromSRR es id) :
      Reached es t stepId srrId

/-- No relationship that is reached leads to the representation of another product. -/
def StaysInside (es : List ScannedEntity) (t : ProductTables) (stepId : Id) : Prop :=
  ∀ srrId, Reached es t stepId srrId → IsRelationship es srrId →
    ∀ r ∈ refGraph es srrId, t.isOtherEntry stepId r = true → Owned es t stepId r

/-- The expansion, with the relationships of the records `crossed` followed. -/
structure Expanding (es : List ScannedEntity) (t : ProductTables) (stepId : Id) (crossed : List Id)
    (x : Expansion) : Prop where
  nodup : x.closure.Nodup
  within : x.closure ⊆ allIds es stepId
  queueNodup : (x.checkedForSRR ++ x.pending).Nodup
  queue : x.checkedForSRR ++ x.pending ⊆ x.closure
  owned : ∀ id, Owned es t stepId id → id ∈ x.checkedForSRR ++ x.pending
  others : ∀ id ∈ x.closure, id ∈ x.checkedForSRR ++ x.pending ∨ ∃ srrId ∈ x.closure,
    IsRelationship es srrId ∧ id ∈ refGraph es srrId ∧ t.isOtherEntry stepId id = true
  closed : ∀ id ∈ x.closure, refGraph es id ⊆ x.closure ∨ NotFollowed es t stepId x.closure id
  crossed : ∀ id ∈ crossed, reverseFromSRR es id ⊆ x.closure
  inside : StaysInside es t stepId → ∀ id ∈ x.closure, Reached es t stepId id ∧ refGraph es id ⊆ x.closure

variable {crossed : List Id} {x : Expansion}

/-- What a relationship adds keeps the invariant. -/
theorem Expanding.adds (h : Expanding es t stepId crossed x) {others new : List Id}
    (hid : id ∈ x.closure) (hsrr : srrId ∈ reverseFromSRR es id) (hfresh : srrId ∉ x.closure)
    (hadds : Expansion.Adds es t stepId x.closure srrId others new) :
    Expanding es t stepId crossed
      ⟨x.closure ++ srrId :: (others ++ new), x.pending ++ srrId :: new, x.checkedForSRR⟩ := by
  obtain ⟨hrelationship, hidRef⟩ := mem_reverseFromSRR.mp hsrr
  have hold : x.closure ⊆ x.closure ++ srrId :: (others ++ new) := List.subset_append_left _ _
  have hsrrIn : srrId ∈ x.closure ++ srrId :: (others ++ new) :=
    List.mem_append_right _ List.mem_cons_self
  have hqueueNew : (srrId :: new).Sublist (srrId :: (others ++ new)) :=
    (List.sublist_append_right others new).cons_cons srrId
  constructor
  case nodup => exact hadds.nodup
  case within => exact List.append_subset.mpr ⟨h.within, hadds.within⟩
  case queueNodup =>
    rw [← List.append_assoc]
    obtain ⟨-, htail, hdisjoint⟩ := List.nodup_append.mp hadds.nodup
    refine List.nodup_append.mpr ⟨h.queueNodup, htail.sublist hqueueNew, fun a ha b hb => ?_⟩
    exact hdisjoint a (h.queue ha) b (hqueueNew.subset hb)
  case queue =>
    rw [← List.append_assoc]
    exact List.append_subset.mpr ⟨fun a ha => hold (h.queue ha), fun a ha =>
      List.mem_append_right _ (hqueueNew.subset ha)⟩
  case owned =>
    intro a ha
    rw [← List.append_assoc]
    exact List.mem_append_left _ (h.owned a ha)
  case others =>
    intro a ha
    rw [← List.append_assoc]
    simp only [List.mem_append, List.mem_cons] at ha
    obtain ha | rfl | ha | ha := ha
    · obtain hqueued | ⟨s, hs, hrest⟩ := h.others a ha
      · exact .inl (List.mem_append_left _ hqueued)
      · exact .inr ⟨s, hold hs, hrest⟩
    · exact .inl (List.mem_append_right _ List.mem_cons_self)
    · exact .inr ⟨srrId, hsrrIn, hrelationship, hadds.leads a ha⟩
    · exact .inl (List.mem_append_right _ (List.mem_cons_of_mem srrId ha))
  case closed =>
    intro a ha
    simp only [List.mem_append, List.mem_cons] at ha
    obtain ha | rfl | ha | ha := ha
    · exact (h.closed a ha).imp (fun hrefs => List.Subset.trans hrefs hold) fun hnot => hnot.mono hold
    · exact .inl hadds.refs
    · exact .inr (.otherEntry hsrrIn hrelationship (hadds.leads a ha).1 (hadds.leads a ha).2)
    · obtain hrefs | ⟨⟨r, hr, hother⟩, c, hc, hreferrer, hac⟩ := hadds.follows a ha
      · exact .inl hrefs
      · have hcIn : c ∈ x.closure ++ srrId :: (others ++ new) :=
          List.mem_append_right _ (List.mem_cons_of_mem srrId (List.mem_append_right others hc))
        exact .inr (.beside hsrrIn hrelationship hr hother hcIn hreferrer hac)
  case crossed => exact fun a ha => List.Subset.trans (h.crossed a ha) hold
  case inside =>
    intro hstays a ha
    have hsrrReached : Reached es t stepId srrId := .relationship (h.inside hstays id hid).1 hsrr
    obtain ⟨rfl, hnew⟩ := hadds.inside fun r hr hother =>
      h.queue (h.owned r (hstays srrId hsrrReached hrelationship r hr hother))
    simp only [List.mem_append, List.mem_cons, List.nil_append] at ha
    obtain ha | rfl | ha := ha
    · obtain ⟨hreached, hrefs⟩ := h.inside hstays a ha
      exact ⟨hreached, List.Subset.trans hrefs hold⟩
    · exact ⟨hsrrReached, hadds.refs⟩
    · obtain ⟨hreach, hrefs⟩ := hnew a ha
      exact ⟨hreach.mem_of_closed (fun r hr => hsrrReached.ref hr) fun _ hb _ hc => hb.ref hc, hrefs⟩

/-- The relationships of one record, in turn. -/
theorem Expanding.crossAll (h : Expanding es t stepId crossed x) (hid : id ∈ x.closure) {srrIds : List Id}
    (hsrrs : srrIds ⊆ reverseFromSRR es id) :
    ∃ y, (∀ rounds, enoughRounds es stepId ≤ rounds →
        srrIds.foldlM (Expansion.cross es t stepId rounds) x = some y) ∧
      Expanding es t stepId crossed y ∧ y.checkedForSRR = x.checkedForSRR ∧ x.closure ⊆ y.closure ∧
        srrIds ⊆ y.closure := by
  induction srrIds generalizing x with
  | nil => exact ⟨x, fun _ _ => rfl, h, rfl, List.Subset.refl _, List.nil_subset _⟩
  | cons srrId srrIds ih =>
    obtain ⟨hsrr, hrest⟩ := List.cons_subset.mp hsrrs
    have hsrrAll : srrId ∈ allIds es stepId := mem_allIds_of_ref (mem_reverseFromSRR.mp hsrr).2
    obtain ⟨y, hcross, hcases⟩ := Expansion.cross_cases es t h.nodup hsrrAll
    have hy : Expanding es t stepId crossed y ∧ y.checkedForSRR = x.checkedForSRR ∧
        x.closure ⊆ y.closure ∧ srrId ∈ y.closure := by
      obtain ⟨hold, rfl⟩ | ⟨hfresh, others, new, rfl, hadds⟩ := hcases
      · exact ⟨h, rfl, List.Subset.refl _, hold⟩
      · exact ⟨h.adds hid hsrr hfresh hadds, rfl, List.subset_append_left _ _,
          List.mem_append_right _ List.mem_cons_self⟩
    obtain ⟨hy, hchecked, hsub, hsrrIn⟩ := hy
    obtain ⟨z, hfold, hz, hzChecked, hzSub, hzIn⟩ := ih hy (hsub hid) hrest
    refine ⟨z, fun rounds hrounds => ?_, hz, hzChecked.trans hchecked, List.Subset.trans hsub hzSub,
      List.cons_subset.mpr ⟨hzSub hsrrIn, hzIn⟩⟩
    rw [List.foldlM_cons, hcross rounds hrounds]
    exact hfold rounds hrounds

/-- **One turn** of the loop takes a record from the queue and follows its relationships. -/
theorem Expanding.turn {pending checked : List Id} {closure : List Id}
    (h : Expanding es t stepId checked ⟨closure, id :: pending, checked⟩) :
    ∃ y, (∀ rounds, enoughRounds es stepId ≤ rounds → (reverseFromSRR es id).foldlM
        (Expansion.cross es t stepId rounds) ⟨closure, pending, setAdd checked id⟩ = some y) ∧
      Expanding es t stepId y.checkedForSRR y ∧ y.checkedForSRR = checked ++ [id] := by
  have hfresh : id ∉ checked := fun hid =>
    (List.nodup_append.mp h.queueNodup).2.2 id hid id List.mem_cons_self rfl
  have hadd : setAdd checked id = checked ++ [id] := if_neg hfresh
  have hqueue : (checked ++ [id]) ++ pending = checked ++ id :: pending := by simp
  have hid : id ∈ closure := h.queue (List.mem_append_right _ List.mem_cons_self)
  have htaken : Expanding es t stepId checked ⟨closure, pending, checked ++ [id]⟩ := by
    refine ⟨h.nodup, h.within, ?_, ?_, ?_, ?_, h.closed, h.crossed, h.inside⟩
    · exact hqueue ▸ h.queueNodup
    · exact hqueue ▸ h.queue
    · exact hqueue ▸ h.owned
    · exact hqueue ▸ h.others
  rw [hadd]
  obtain ⟨y, hfold, hy, hchecked, -, hin⟩ := htaken.crossAll hid (List.Subset.refl _)
  refine ⟨y, hfold, { hy with crossed := ?_ }, hchecked⟩
  intro a ha
  rw [hchecked] at ha
  obtain ha | ha := List.mem_append.mp ha
  · exact hy.crossed a ha
  · exact List.mem_singleton.mp ha ▸ hin

/-- **The loop** ends with nothing in the queue. Every turn checks one more id. -/
theorem expandLoop_spec (h : Expanding es t stepId x.checkedForSRR x) :
    ∃ part checked, (∀ rounds turns, enoughRounds es stepId ≤ rounds →
        enoughRounds es stepId ≤ turns + x.checkedForSRR.length →
          expandLoop es t stepId rounds turns x = some part) ∧
      Expanding es t stepId checked ⟨part, [], checked⟩ := by
  obtain ⟨closure, pending, checked⟩ := x
  induction hleft : enoughRounds es stepId - checked.length generalizing closure pending checked with
  | zero =>
    cases pending with
    | nil => exact ⟨closure, checked, fun _ turns _ _ => by rw [expandLoop], h⟩
    | cons id pending =>
      have hle := (h.queueNodup.subperm (List.Subset.trans h.queue h.within)).length_le
      rw [List.length_append, List.length_cons] at hle
      dsimp only at hle
      rw [← enoughRounds] at hle
      omega
  | succ left ih =>
    cases pending with
    | nil => exact ⟨closure, checked, fun _ turns _ _ => by rw [expandLoop], h⟩
    | cons id pending =>
      have hfresh : id ∉ checked := fun hid =>
        (List.nodup_append.mp h.queueNodup).2.2 id hid id List.mem_cons_self rfl
      obtain ⟨⟨closure', pending', checked'⟩, hfold, hy, rfl⟩ := h.turn
      have hlength : (checked ++ [id]).length = checked.length + 1 := List.length_append
      obtain ⟨part, checked', hloop, hpart⟩ := ih closure' pending' (checked ++ [id]) hy (by omega)
      refine ⟨part, checked', fun rounds turns hrounds hturns => ?_, hpart⟩
      dsimp only at hturns
      obtain ⟨turns, rfl⟩ : ∃ n, turns = n + 1 := ⟨turns - 1, by omega⟩
      rw [expandLoop, if_neg hfresh, hfold rounds hrounds]
      exact hloop rounds turns hrounds (by dsimp only; omega)

/-! ## The part of a product -/

theorem InChain.mem_allIds (h : InChain es t stepId id) : id ∈ allIds es stepId := by
  refine Reach.mem_of_closed (fun a ha => ?_) (fun a _ b hb => chainReferrers_subset hb) h
  exact List.mem_singleton.mp ha ▸ List.mem_cons_self

theorem Owned.mem_allIds (h : Owned es t stepId id) : id ∈ allIds es stepId := by
  obtain ⟨c, hc, hreach⟩ := h
  exact Expansion.reach_mem_allIds (List.cons_subset.mpr ⟨hc.mem_allIds, List.nil_subset _⟩) ⟨c, List.mem_singleton_self c, hreach⟩

theorem Owned.reached (h : Owned es t stepId id) : Reached es t stepId id := by
  obtain ⟨c, hc, hreach⟩ := h
  induction hreach with
  | refl => exact .chain hc
  | tail _ hstep ih => exact ih.ref hstep

theorem owned_product : Owned es t stepId stepId := ⟨stepId, .start (List.mem_singleton_self _), .refl⟩

/-- The expansion begins with what the chain refers to. -/
theorem expanding_start {closure : List Id} (hnodup : closure.Nodup)
    (howned : ∀ id, id ∈ closure ↔ Owned es t stepId id) :
    Expanding es t stepId [] ⟨closure, closure, []⟩ where
  nodup := hnodup
  within id hid := ((howned id).mp hid).mem_allIds
  queueNodup := hnodup
  queue := List.Subset.refl closure
  owned id hid := (howned id).mpr hid
  others _ hid := .inl hid
  closed id hid := .inl fun r hr => (howned r).mpr (((howned id).mp hid).ref hr)
  crossed _ hid := absurd hid List.not_mem_nil
  inside _ id hid :=
    ⟨((howned id).mp hid).reached, fun r hr => (howned r).mpr (((howned id).mp hid).ref hr)⟩

/-- When no relationship leads away, the expansion finds all that is reached, and nothing else. -/
theorem Expanding.mem_iff {part checked : List Id} (h : Expanding es t stepId checked ⟨part, [], checked⟩)
    (hstays : StaysInside es t stepId) : id ∈ part ↔ Reached es t stepId id := by
  have hqueue : ∀ a, Owned es t stepId a → a ∈ checked := fun a ha =>
    List.append_nil checked ▸ h.owned a ha
  refine ⟨fun hid => (h.inside hstays id hid).1, fun hid => ?_⟩
  induction hid with
  | chain hc => exact h.queue (h.owned _ ⟨_, hc, .refl⟩)
  | ref _ hr ih => exact (h.inside hstays _ ih).2 hr
  | @relationship a srrId _ hsrr ih =>
    obtain hchecked | ⟨s, hs, hrelationship, has, hother⟩ := h.others a ih
    · exact h.crossed a (List.append_nil checked ▸ hchecked) hsrr
    · exact h.crossed a (hqueue a (hstays s (h.inside hstays s hs).1 hrelationship a has hother)) hsrr

/-- **The closures of a product**: the chain, what it refers to, and the expansion of that. -/
theorem closures_spec (es : List ScannedEntity) (t : ProductTables) (stepId : Id) :
    ∃ chain closure part checked, (∀ rounds, enoughRounds es stepId ≤ rounds →
        findDefinitionalChain es t stepId rounds = some chain ∧
          collectForwardClosure es rounds chain = some closure ∧
          expandSRRClosure es t stepId rounds closure = some part) ∧
      (∀ id, id ∈ chain ↔ InChain es t stepId id) ∧ (∀ id, id ∈ closure ↔ Owned es t stepId id) ∧
      Expanding es t stepId checked ⟨part, [], checked⟩ := by
  obtain ⟨chain, hchain, hnodup, hmem⟩ := findDefinitionalChain_spec es t stepId
  obtain ⟨closure, hclosure, hclosureNodup, hclosureMem⟩ :=
    collectForwardClosure_spec es stepId hnodup fun id hid => ((hmem id).mp hid).mem_allIds
  have howned : ∀ id, id ∈ closure ↔ Owned es t stepId id := by
    intro id
    rw [hclosureMem]
    constructor
    · rintro ⟨c, hc, hreach⟩
      exact ⟨c, (hmem c).mp hc, hreach⟩
    · rintro ⟨c, hc, hreach⟩
      exact ⟨c, (hmem c).mpr hc, hreach⟩
  have hstart : Expanding es t stepId [] ⟨closure, closure, []⟩ := expanding_start hclosureNodup howned
  obtain ⟨part, checked, hpart, hexpanding⟩ :=
    expandLoop_spec (x := (⟨closure, closure, []⟩ : Expansion)) hstart
  refine ⟨chain, closure, part, checked, fun rounds hrounds => ⟨hchain rounds hrounds,
    hclosure rounds hrounds, hpart rounds rounds hrounds ?_⟩, hmem, howned, hexpanding⟩
  exact hrounds

end PlmCore.CadParser
