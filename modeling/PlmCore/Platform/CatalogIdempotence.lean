/-
Registering a payload twice: when the first registration succeeds, covers the payload and leaves nothing for the
second.
-/
import PlmCore.Platform.CatalogRegistrationRuns

set_option autoImplicit false

namespace PlmCore.Platform.CatalogDb

open PlmCore.Lib

variable {svc : String} {c c' s s' F : Catalog}

/-! ## Statements that find the catalog ready -/

/-- What holds when the statements `before` were run and `after` are to come. -/
structure Progress (svc : String) (before after : List Statement) (s : Catalog) : Prop where
  fits : ∀ y ∈ itemsOf before, y.Fits svc
  covered : Covers svc (itemsOf before) s
  /-- A label of an algorithm has an instance, or a later algorithm has the label. -/
  named : ∀ y ∈ itemsOf before, Named svc s y.label ∨ ∃ z ∈ itemsOf after, z.label = y.label
  /-- The types of the algorithms to come are stored, or come before them. -/
  typed : ∃ ids, TypedFrom ids after ∧ ∀ id ∈ ids, Held 100 id → ∃ r ∈ s.types, r.id = id

theorem TypeStatement.proposed_id {t : TypeStatement} {new : TypeRow} (h : t.proposed svc = some new) :
    varchar 100 t.id = some new.id := by
  unfold TypeStatement.proposed at h
  obtain ⟨id, hid, h⟩ := Option.bind_eq_some_iff.mp h
  obtain ⟨service_code, -, h⟩ := Option.bind_eq_some_iff.mp h
  obtain ⟨name, -, h⟩ := Option.bind_eq_some_iff.mp h
  obtain ⟨java_interface, -, h⟩ := Option.bind_eq_some_iff.mp h
  cases h
  exact hid

theorem itemsOf_type (t : TypeStatement) (sts : List Statement) : itemsOf (.type t :: sts) = itemsOf sts := rfl

theorem itemsOf_algorithm (x : Item) (sts : List Statement) :
    itemsOf (.algorithm x :: sts) = x :: itemsOf sts := rfl

/-- Before the first statement. -/
theorem Progress.start {sts : List Statement} (htyped : TypedFrom [] sts) (c : Catalog) : Progress svc [] sts c where
  fits y hy := by cases hy
  covered y hy := by cases hy
  named y hy := by cases hy
  typed := ⟨[], htyped, fun id hid => by cases hid⟩

section Step

variable {before after : List Statement}

/-- A type is written. -/
theorem Progress.type {t : TypeStatement} (h : Progress svc before (.type t :: after) s)
    (hready : (t.proposed svc).isSome) :
    ∃ s', insertType svc t s = some s' ∧ Progress svc (before ++ [.type t]) after s' := by
  obtain ⟨s', hs'⟩ := exists_insertType (c := s) hready
  obtain ⟨new, hnew⟩ := Option.isSome_iff_exists.mp hready
  obtain ⟨-, halgorithms, hinstances, -⟩ := insertType_eq_some_iff.mp hs'
  obtain ⟨ids, htyped, hids⟩ := h.typed
  have hbefore : itemsOf (before ++ [.type t]) = itemsOf before := by
    rw [itemsOf_append, itemsOf_type]
    exact List.append_nil _
  refine ⟨s', hs', hbefore ▸ h.fits, ?_, ?_, t.id :: ids, htyped, fun id hid hheld => (insertType_ids hs' hnew).mpr ?_⟩
  · rw [hbefore]
    intro y hy
    obtain ⟨a, hstored, i, hi, hlink⟩ := h.covered y hy
    exact ⟨a, { hstored with mem := halgorithms ▸ hstored.mem }, i, hinstances ▸ hi, hlink⟩
  · rw [hbefore]
    intro y hy
    obtain ⟨i, hi, hkey⟩ | hlater := h.named y hy
    · exact .inl ⟨i, hinstances ▸ hi, hkey⟩
    · exact .inr hlater
  · obtain rfl | hid := List.mem_cons.mp hid
    · exact .inl (Option.some.inj (hheld.symm.trans (TypeStatement.proposed_id hnew)))
    · exact .inr (hids id hid hheld)

/-- An algorithm is written. -/
theorem Progress.algorithm {x : Item} (h : Progress svc before (.algorithm x :: after) s)
    (hready : x.Ready svc (itemsOf before) (itemsOf after) s) (hcodes : ∀ y ∈ itemsOf before, y.code ≠ x.code) :
    ∃ s', upsert_algorithm_with_instance svc x s = some s' ∧ Progress svc (before ++ [.algorithm x]) after s' := by
  obtain ⟨ids, ⟨hmem, htyped⟩, hids⟩ := h.typed
  obtain ⟨s', hs'⟩ := hready.exists_upsert (hids x.type_id hmem hready.fits.type_id)
  obtain ⟨row, hwrites⟩ := upsert_writes hready.fits hs'
  have hbefore : itemsOf (before ++ [.algorithm x]) = itemsOf before ++ [x] := itemsOf_append _ _
  refine ⟨s', hs', ?_, ?_, ?_, ids, htyped, fun id hid hheld => hwrites.types ▸ hids id hid hheld⟩
  · rw [hbefore]
    intro y hy
    obtain hy | hy := List.mem_append.mp hy
    · exact h.fits y hy
    · exact List.mem_singleton.mp hy ▸ hready.fits
  · rw [hbefore]
    intro y hy
    obtain hy | hy := List.mem_append.mp hy
    · obtain ⟨a, hstored, hlinked⟩ := h.covered y hy
      exact ⟨a, hready.keeps_covered hwrites hy (hcodes y hy) hstored hlinked⟩
    · obtain rfl := List.mem_singleton.mp hy
      exact ⟨row, hready.covered hwrites⟩
  · rw [hbefore]
    intro y hy
    obtain hy | hy := List.mem_append.mp hy
    · exact hready.keeps_named hwrites hy (h.named y hy)
    · obtain rfl := List.mem_singleton.mp hy
      exact hready.named hwrites

end Step

/-- **The run lemma.** Statements that all find the catalog ready leave it covered, with an instance for every
label. -/
theorem Progress.runAll {before after : List Statement} (h : Progress svc before after s)
    (hs : CatalogDb.runAll svc before c = some s) (hready : RunReady svc (before ++ after) c)
    (hcodes : ((itemsOf (before ++ after)).map Item.code).Nodup) :
    ∃ F, CatalogDb.runAll svc after s = some F ∧ Progress svc (before ++ after) [] F := by
  induction after generalizing before s with
  | nil => exact ⟨s, rfl, (List.append_nil before).symm ▸ h⟩
  | cons st after ih =>
    have hst := hready before st after rfl s hs
    have hstep : ∃ s', st.run svc s = some s' ∧ Progress svc (before ++ [st]) after s' := by
      cases st with
      | type t => exact h.type hst
      | algorithm x =>
        refine h.algorithm hst fun y hy heq => ?_
        rw [itemsOf_append, itemsOf_algorithm, List.map_append, List.map_cons] at hcodes
        exact (List.disjoint_of_nodup_append hcodes) (List.mem_map_of_mem hy) (heq ▸ List.mem_cons_self)
    obtain ⟨s', hrun, hprogress⟩ := hstep
    have hbefore : CatalogDb.runAll svc (before ++ [st]) c = some s' := by
      rw [runAll_append, hs, Option.bind_some, runAll_cons, hrun]
      rfl
    obtain ⟨F, hF, hdone⟩ := ih hprogress hbefore (List.append_cons before st after ▸ hready)
      (List.append_cons before st after ▸ hcodes)
    refine ⟨F, ?_, List.append_cons before st after ▸ hdone⟩
    rw [runAll_cons, hrun, Option.bind_some, hF]

/-! ## Statements that leave the catalog covered -/

/-- What is stored fits its columns. -/
theorem Item.Stored.fits {y : Item} {a : AlgorithmRow} (h : y.Stored svc c a) : y.Fits svc := by
  have hfits := c.sound.fits a h.mem
  obtain ⟨hservice, hcode⟩ := Prod.mk.inj h.key
  refine ⟨hservice ▸ hfits.service_code, h.type_id ▸ hfits.algorithm_type_id, hcode ▸ hfits.code,
    h.name ▸ hfits.name, ?_⟩
  have hstored := hfits.module_name
  have hsame := h.module_name
  cases hy : y.module with
  | none => rfl
  | some m =>
    rw [hy] at hsame
    cases ha : a.module_name with
    | none =>
      -- the empty module reads like none
      rw [ha] at hsame
      obtain rfl : "" = m := hsame
      rfl
    | some m' =>
      rw [ha] at hsame hstored
      obtain rfl : m' = m := hsame
      exact hstored

/-- **Every statement found the catalog ready** when the run left all algorithms covered and every label with
an instance. -/
theorem runReady_of_covers {sts : List Statement} (hcodes : ((itemsOf sts).map Item.code).Nodup)
    (h : runAll svc sts c = some F) (hcovers : Covers svc (itemsOf sts) F)
    (hnamed : ∀ y ∈ itemsOf sts, Named svc F y.label) : RunReady svc sts c := by
  rintro before st after rfl s hs
  rw [runAll_append, hs, Option.bind_some, runAll_cons] at h
  obtain ⟨s', hrun, hrest⟩ := Option.bind_eq_some_iff.mp h
  cases st with
  | type t => exact (insertType_eq_some_iff.mp hrun).1
  | algorithm x =>
    rw [itemsOf_append, itemsOf_algorithm] at hcovers hnamed hcodes
    have hsplit : (itemsOf before ++ x :: itemsOf after).map Item.code =
        ((itemsOf before).map Item.code ++ [x.code]) ++ (itemsOf after).map Item.code := by simp
    have hearlier : ∀ y ∈ x :: itemsOf before, y ∈ itemsOf before ++ x :: itemsOf after := by
      intro y hy
      obtain rfl | hy := List.mem_cons.mp hy
      · exact List.mem_append_right _ List.mem_cons_self
      · exact List.mem_append_left _ hy
    have hlater : ∀ z ∈ itemsOf after, z ∈ itemsOf before ++ x :: itemsOf after := fun z hz =>
      List.mem_append_right _ (List.mem_cons_of_mem x hz)
    have hfits : ∀ y ∈ itemsOf before ++ x :: itemsOf after, y.Fits svc := by
      intro y hy
      obtain ⟨a, hstored, -⟩ := hcovers y hy
      exact hstored.fits
    have hafter : ∀ z ∈ itemsOf after, z.Fits svc := fun z hz => hfits z (hlater z hz)
    have hne : ∀ y ∈ x :: itemsOf before, ∀ z ∈ itemsOf after, y.code ≠ z.code := by
      intro y hy z hz heq
      have hmem : y.code ∈ (itemsOf after).map Item.code := List.mem_map.mpr ⟨z, hz, heq.symm⟩
      rw [hsplit] at hcodes
      refine List.disjoint_of_nodup_append hcodes ?_ hmem
      obtain rfl | hy := List.mem_cons.mp hy
      · exact List.mem_append_right _ (List.mem_singleton_self _)
      · exact List.mem_append_left _ (List.mem_map_of_mem hy)
    refine ready_of_writes (hfits x (hearlier x List.mem_cons_self)) hrun (fun y hy heq => ?_)
      (fun y hy => covered_of_runAll hafter (hne y hy) hrest (hcovers y (hearlier y hy)))
      fun y hy hlast => named_of_runAll hafter (fun z hz heq => hlast z hz heq.symm) hrest (hnamed y (hearlier y hy))
    rw [List.map_append, List.map_cons] at hcodes
    exact List.disjoint_of_nodup_append hcodes (List.mem_map_of_mem hy) (heq ▸ List.mem_cons_self)

/-! ## Registrations -/

section Registers

variable {to_lowercase : String → String} {p : Payload}

/-- The lines are compared when the name of the service can be sent. -/
theorem persist_to_db_of_subset (hnul : '\x00' ∉ svc.toList)
    (h : incoming_fingerprint svc p ⊆ currentLines svc c) : persist_to_db to_lowercase svc p c = some (c, false) := by
  rw [persist_to_db_eq, if_neg hnul, if_pos h]

theorem persist_to_db_of_not_subset (hnul : '\x00' ∉ svc.toList)
    (h : ¬ incoming_fingerprint svc p ⊆ currentLines svc c) :
    persist_to_db to_lowercase svc p c = (runAll svc (statements to_lowercase svc p) c).map fun c => (c, true) := by
  rw [persist_to_db_eq, if_neg hnul, if_neg h]

/-- `false` means that no line is missing. -/
theorem subset_of_persist_to_db (h : persist_to_db to_lowercase svc p c = some (c', false)) :
    incoming_fingerprint svc p ⊆ currentLines svc c := by
  rw [persist_to_db_eq] at h
  split at h
  case isTrue => cases h
  case isFalse =>
    split at h
    case isTrue hsubset => exact hsubset
    case isFalse =>
      obtain ⟨F, -, heq⟩ := Option.map_eq_some_iff.mp h
      cases heq

theorem no_nul_of_persist_to_db {changed : Bool} (h : persist_to_db to_lowercase svc p c = some (c', changed)) :
    '\x00' ∉ svc.toList := by
  intro hnul
  rw [persist_to_db_eq, if_pos hnul] at h
  cases h

/-- **When a registration does what the code promises**, for a payload with different codes: nothing is missing
and the catalog covers the payload, or every statement finds a catalog that it may write to and the types of the
payload read like it in the end. -/
theorem registers_iff (hcodes : p.codes.Nodup) :
    Registers to_lowercase svc p c ↔ RegistersWhen to_lowercase svc p c := by
  have hcodes' : ((itemsOf (statements to_lowercase svc p)).map Item.code).Nodup :=
    (items_codes to_lowercase p).symm ▸ hcodes
  constructor
  · rintro ⟨F, changed, hfirst, hcovers, hagain⟩
    have hnul := no_nul_of_persist_to_db hfirst
    refine ⟨hnul, ?_⟩
    split
    case isTrue hsubset =>
      rw [persist_to_db_of_subset hnul hsubset] at hfirst
      cases hfirst
      exact hcovers
    case isFalse hmissing =>
      rw [persist_to_db_of_not_subset hnul hmissing] at hfirst
      obtain ⟨F', hrun, heq⟩ := Option.map_eq_some_iff.mp hfirst
      cases heq
      obtain ⟨htypes, hnamed⟩ :=
        (incoming_subset_iff to_lowercase p hcovers).mp (subset_of_persist_to_db hagain)
      have hfits : ∀ y ∈ items to_lowercase svc p, y.Fits svc := by
        intro y hy
        obtain ⟨a, hstored, -⟩ := hcovers y hy
        exact hstored.fits
      exact ⟨(typesNamed_iff hfits hrun).mpr htypes, runReady_of_covers hcodes' hrun hcovers hnamed⟩
  · rintro ⟨hnul, h⟩
    split at h
    case isTrue hsubset =>
      have hpersist : persist_to_db to_lowercase svc p c = some (c, false) := persist_to_db_of_subset hnul hsubset
      exact ⟨c, false, hpersist, h, hpersist⟩
    case isFalse hmissing =>
      obtain ⟨htypes, hready⟩ := h
      have hstart : Progress svc [] (statements to_lowercase svc p) c :=
        Progress.start (typedFrom_statements to_lowercase p) c
      obtain ⟨F, hrun, hdone⟩ := hstart.runAll rfl hready hcodes'
      have hnamed : ∀ y ∈ items to_lowercase svc p, Named svc F y.label := by
        intro y hy
        obtain hnamed | ⟨z, hz, -⟩ := hdone.named y hy
        · exact hnamed
        · cases hz
      have hlines := (incoming_subset_iff to_lowercase p hdone.covered).mpr
        ⟨(typesNamed_iff hdone.fits hrun).mp htypes, hnamed⟩
      refine ⟨F, true, ?_, hdone.covered, persist_to_db_of_subset hnul hlines⟩
      rw [persist_to_db_of_not_subset hnul hmissing, hrun]
      rfl

end Registers

/-- A handler without a label and without a module. -/
def bare (code : String) : HandlerEntry := ⟨code, none, none⟩

def emptyCatalog : Catalog := ⟨[], [], [], by decide⟩

def lock : Payload := ⟨[bare "LOCK"], [], []⟩

/-- What `lock` leaves of the empty catalog. -/
def lockCatalog : Catalog where
  types := [⟨"sys-handler-psm", "psm", "Action Handler", "ActionHandler"⟩]
  algorithms := [⟨"alg-psm-lock", "psm", "sys-handler-psm", "LOCK", "LOCK", "LOCK", none⟩]
  instances := [⟨"ainst-psm-lock", "psm", "alg-psm-lock", "LOCK"⟩]
  sound := by decide +kernel

/-- A handler registers in the empty catalog, so the condition holds there. -/
theorem registers_iff_lock :
    lock.codes.Nodup ∧ RegistersWhen String.toLower "psm" lock emptyCatalog := by
  have hfirst : persist_to_db String.toLower "psm" lock emptyCatalog = some (lockCatalog, true) := by decide +kernel
  have hagain : persist_to_db String.toLower "psm" lock lockCatalog = some (lockCatalog, false) := by decide +kernel
  have hcovers : Covers "psm" (items String.toLower "psm" lock) lockCatalog := by
    intro y hy
    obtain rfl := List.mem_singleton.mp hy
    exact ⟨_, ⟨List.mem_singleton_self _, rfl, rfl, rfl, rfl⟩, _, List.mem_singleton_self _, rfl⟩
  exact ⟨by decide, (registers_iff (by decide)).mp ⟨lockCatalog, true, hfirst, hcovers, hagain⟩⟩

/-- Different codes of one safe code. -/
def twins : Payload := ⟨[bare "A_B", bare "A-B"], [], []⟩

/-- The second handler has the primary key of the first, and the registration fails halfway. -/
theorem twins_are_refused :
    twins.codes.Nodup ∧ persist_to_db String.toLower "psm" twins emptyCatalog = none ∧
      ¬ Registers String.toLower "psm" twins emptyCatalog := by
  have hnone : persist_to_db String.toLower "psm" twins emptyCatalog = none := by decide +kernel
  refine ⟨by decide, hnone, ?_⟩
  rintro ⟨c', changed, hfirst, -⟩
  rw [hnone] at hfirst
  cases hfirst

end PlmCore.Platform.CatalogDb
