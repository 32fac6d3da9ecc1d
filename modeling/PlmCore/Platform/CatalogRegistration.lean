/-
When a registration succeeds, covers its payload and is a no-op the second time.

The code promises it for every catalog. It fails when two codes have one derived id, when a stored algorithm
has another type, and when a label belongs to an instance of another algorithm. The condition is on the catalog
that each statement finds: what one statement leaves alone of the others is said first, forwards and backwards,
and then by induction what a whole run leaves.
-/
import PlmCore.Platform.CatalogDbSteps

set_option autoImplicit false

namespace PlmCore.Platform.CatalogDb

open PlmCore.Lib

/-! ## What a registration is for -/

/-- The algorithm is stored with its label, its module (none and the empty one are the same) and its type. -/
structure Item.Stored (svc : String) (y : Item) (c : Catalog) (a : AlgorithmRow) : Prop where
  mem : a ∈ c.algorithms
  key : a.key = (svc, y.code)
  name : a.name = y.label
  module_name : nz a.module_name = nz y.module
  type_id : a.algorithm_type_id = y.type_id

/-- An algorithm has an instance. -/
def Linked (c : Catalog) (algorithm_id : String) : Prop := ∃ i ∈ c.instances, i.algorithm_id = algorithm_id

/-- An instance of the service has the name. -/
def Named (svc : String) (c : Catalog) (name : String) : Prop := ∃ i ∈ c.instances, i.key = (svc, name)

/-- The catalog covers the payload. -/
def Covers (svc : String) (ys : List Item) (c : Catalog) : Prop :=
  ∀ y ∈ ys, ∃ a, y.Stored svc c a ∧ Linked c a.id

/-- **What the code promises**: the registration succeeds, the catalog then covers the payload, and the same
payload again returns `false` and writes nothing. -/
def Registers (to_lowercase : String → String) (svc : String) (p : Payload) (c : Catalog) : Prop :=
  ∃ c' changed, persist_to_db to_lowercase svc p c = some (c', changed) ∧
    Covers svc (items to_lowercase svc p) c' ∧ persist_to_db to_lowercase svc p c' = some (c', false)

/-! ## When it does -/

/-- The stored instance `r` under the derived id may be given to the algorithm and named after it. `before` and
`after` are the algorithms of the payload before and after it. -/
structure MayMove (svc : String) (before after : List Item) (x : Item) (c : Catalog) (r : InstanceRow) : Prop where
  /-- In the service of the instance nobody else has the label. -/
  free : LabelFree x.label c r
  /-- The instance is of this service, or a later algorithm has the same label. -/
  service : (∀ y ∈ after, y.label ≠ x.label) → r.service_code = svc
  /-- It is not the last instance of an earlier algorithm. -/
  link : ∀ y ∈ before, ∀ a ∈ c.algorithms, a.key = (svc, y.code) → r.algorithm_id = a.id →
    ∃ i ∈ c.instances, i.id ≠ r.id ∧ i.algorithm_id = a.id
  /-- A name that it gives up is none of an earlier algorithm, or a later one has it again. -/
  name : r.service_code = svc → r.name ≠ x.label → (∃ y ∈ before, y.label = r.name) → ∃ y ∈ after, y.label = r.name

/-- An algorithm may be written into the catalog that its call finds. -/
structure Item.Ready (svc : String) (before after : List Item) (x : Item) (c : Catalog) : Prop where
  fits : x.Fits svc
  id : (varchar 100 x.alg_id).isSome
  /-- It is stored with its type, or it is new and its derived id is free. -/
  algorithm : (∃ a ∈ c.algorithms, a.key = (svc, x.code) ∧ a.algorithm_type_id = x.type_id) ∨
    ∀ a ∈ c.algorithms, a.key ≠ (svc, x.code) ∧ varchar 100 x.alg_id ≠ some a.id
  /-- Where the label belongs to another instance, the algorithm has an instance already. -/
  linked : ¬ x.Touches svc c → ∃ a ∈ c.algorithms, a.key = (svc, x.code) ∧ Linked c a.id
  /-- Where it does not, the instance can be written. -/
  moves : x.Touches svc c → ∃ id, varchar 100 x.inst_id = some id ∧
    ∀ r ∈ c.instances, r.id = id → MayMove svc before after x c r

def Statement.Ready (svc : String) (before after : List Item) (c : Catalog) : Statement → Prop
  | .type t => (t.proposed svc).isSome
  | .algorithm x => x.Ready svc before after c

/-- Every statement finds a catalog that it may write to. -/
def RunReady (svc : String) (sts : List Statement) (c : Catalog) : Prop :=
  ∀ before st after, sts = before ++ st :: after → ∀ s, runAll svc before c = some s →
    st.Ready svc (itemsOf before) (itemsOf after) s

def typesOf (sts : List Statement) : List TypeStatement :=
  sts.filterMap fun st => match st with
    | .type t => some t
    | .algorithm _ => none

/-- What the statements make of the row of a type. -/
def finalType (svc : String) (sts : List Statement) (id : String) (row : Option TypeRow) : Option TypeRow :=
  (typesOf sts).foldl (fun row t => t.effect svc id row) row

/-- For each type of the payload, a type that is of the service in the end reads like it. -/
def TypesNamed (svc : String) (sts : List Statement) (c : Catalog) : Prop :=
  ∀ t ∈ typesOf sts, ∃ id r, finalType svc sts id (c.types.find? fun r => r.id = id) = some r ∧
    r.service_code = svc ∧ typeLine r.id r.name = typeLine t.id t.name

/-- The condition under which a registration does what the code promises. -/
def RegistersWhen (to_lowercase : String → String) (svc : String) (p : Payload) (c : Catalog) : Prop :=
  '\x00' ∉ svc.toList ∧
    if incoming_fingerprint svc p ⊆ currentLines svc c then Covers svc (items to_lowercase svc p) c
    else TypesNamed svc (statements to_lowercase svc p) c ∧ RunReady svc (statements to_lowercase svc p) c

variable {svc : String} {c c' s F : Catalog} {x y : Item} {row : AlgorithmRow}

/-! ## What one call leaves alone -/

namespace Item.Writes

theorem key_ne (h : x.Writes svc c c' row) (hcode : y.code ≠ x.code) {a : AlgorithmRow}
    (ha : a.key = (svc, y.code)) : a.key ≠ row.key := by
  rw [ha, h.hasRow.key]
  exact fun heq => hcode (Prod.mk.inj heq).2

/-- The row of another algorithm. -/
theorem mem_iff (h : x.Writes svc c c' row) (hcode : y.code ≠ x.code) {a : AlgorithmRow}
    (ha : a.key = (svc, y.code)) : a ∈ c'.algorithms ↔ a ∈ c.algorithms := by
  have hne := h.key_ne hcode ha
  rw [h.algorithms]
  exact ⟨fun hmem => hmem.elim (fun heq => absurd (congrArg AlgorithmRow.key heq) hne) And.left,
    fun hmem => .inr ⟨hmem, hne⟩⟩

theorem row_mem (h : x.Writes svc c c' row) : row ∈ c'.algorithms := (h.algorithms row).mpr (.inl rfl)

/-- Another algorithm has another id. -/
theorem id_ne (h : x.Writes svc c c' row) (hcode : y.code ≠ x.code) {a : AlgorithmRow}
    (ha : a.key = (svc, y.code)) (hmem : a ∈ c'.algorithms) : a.id ≠ row.id := by
  intro heq
  exact h.key_ne hcode ha (congrArg AlgorithmRow.key (c'.sound.algorithmId a hmem row h.row_mem heq))

/-- An instance of another algorithm was there before. -/
theorem linked_of (h : x.Writes svc c c' row) {id : String} (hid : id ≠ row.id) (hlinked : Linked c' id) :
    Linked c id := by
  obtain ⟨i, hi, hlink⟩ := hlinked
  by_cases htouch : x.Touches svc c
  · obtain ⟨inst, hinst, hmem⟩ := h.touched htouch
    obtain rfl | ⟨hi, -⟩ := (hmem i).mp hi
    · exact absurd (hlink.symm.trans hinst.algorithm_id) hid
    · exact ⟨i, hi, hlink⟩
  · exact ⟨i, h.skipped htouch ▸ hi, hlink⟩

/-- A name that is not the label was there before. -/
theorem named_of (h : x.Writes svc c c' row) {name : String} (hname : name ≠ x.label) (hnamed : Named svc c' name) :
    Named svc c name := by
  obtain ⟨i, hi, hkey⟩ := hnamed
  by_cases htouch : x.Touches svc c
  · obtain ⟨inst, hinst, hmem⟩ := h.touched htouch
    obtain rfl | ⟨hi, -⟩ := (hmem i).mp hi
    · exact absurd ((Prod.mk.inj hkey).2.symm.trans hinst.name) hname
    · exact ⟨i, hi, hkey⟩
  · exact ⟨i, h.skipped htouch ▸ hi, hkey⟩

end Item.Writes

/-- What holds after every statement of a run only if it held before held at its start. -/
theorem of_runAll {P : Catalog → Prop} {sts : List Statement}
    (hstep : ∀ st ∈ sts, ∀ c c', st.run svc c = some c' → P c' → P c) (h : runAll svc sts s = some F) (hF : P F) :
    P s := by
  induction sts generalizing s with
  | nil =>
    cases h
    exact hF
  | cons st sts ih =>
    rw [runAll_cons] at h
    obtain ⟨mid, hmid, hrest⟩ := Option.bind_eq_some_iff.mp h
    exact hstep st List.mem_cons_self s mid hmid (ih (fun st hst => hstep st (List.mem_cons_of_mem _ hst)) hrest)

theorem mem_itemsOf {sts : List Statement} : x ∈ itemsOf sts ↔ .algorithm x ∈ sts := by
  unfold itemsOf
  rw [List.mem_filterMap]
  constructor
  · rintro ⟨st, hst, heq⟩
    cases st with
    | type t => cases heq
    | algorithm z =>
      cases heq
      exact hst
  · exact fun h => ⟨_, h, rfl⟩

/-- An algorithm that is covered in the end was covered before the calls for others. -/
theorem covered_of_runAll {sts : List Statement} (hfits : ∀ z ∈ itemsOf sts, z.Fits svc)
    (hcodes : ∀ z ∈ itemsOf sts, y.code ≠ z.code) (h : runAll svc sts s = some F)
    (hF : ∃ a, y.Stored svc F a ∧ Linked F a.id) : ∃ a, y.Stored svc s a ∧ Linked s a.id := by
  refine of_runAll (P := fun c => ∃ a, y.Stored svc c a ∧ Linked c a.id) (fun st hst c c' hrun => ?_) h hF
  cases st with
  | type t =>
    obtain ⟨-, halgorithms, hinstances, -⟩ := insertType_eq_some_iff.mp hrun
    rintro ⟨a, hstored, i, hi, hlink⟩
    exact ⟨a, { hstored with mem := halgorithms ▸ hstored.mem }, i, hinstances ▸ hi, hlink⟩
  | algorithm z =>
    have hz := mem_itemsOf.mpr hst
    obtain ⟨row, hwrites⟩ := upsert_writes (hfits z hz) hrun
    rintro ⟨a, hstored, hlinked⟩
    have hne := hwrites.id_ne (hcodes z hz) hstored.key hstored.mem
    exact ⟨a, { hstored with mem := (hwrites.mem_iff (hcodes z hz) hstored.key).mp hstored.mem },
      hwrites.linked_of hne hlinked⟩

/-- A name that is there in the end was there before the calls with other labels. -/
theorem named_of_runAll {sts : List Statement} {name : String} (hfits : ∀ z ∈ itemsOf sts, z.Fits svc)
    (hlabels : ∀ z ∈ itemsOf sts, name ≠ z.label) (h : runAll svc sts s = some F) (hF : Named svc F name) :
    Named svc s name := by
  refine of_runAll (P := fun c => Named svc c name) (fun st hst c c' hrun => ?_) h hF
  cases st with
  | type t =>
    obtain ⟨-, -, hinstances, -⟩ := insertType_eq_some_iff.mp hrun
    rintro ⟨i, hi, hkey⟩
    exact ⟨i, hinstances ▸ hi, hkey⟩
  | algorithm z =>
    have hz := mem_itemsOf.mpr hst
    obtain ⟨row, hwrites⟩ := upsert_writes (hfits z hz) hrun
    exact hwrites.named_of (hlabels z hz)

/-! ## A call that leaves the rest covered found the catalog ready -/

section Necessary

variable {before after : List Item}

theorem Item.HasInstance.service_eq {id : String} {inst r : InstanceRow} (h : x.HasInstance svc c id inst)
    (hr : r ∈ c.instances) (hid : r.id = inst.id) : inst.service_code = r.service_code := by
  obtain ⟨i, hi, hiid, hservice⟩ | ⟨hnew, -⟩ := h.origin
  · rw [← hservice, c.sound.instanceId i hi r hr (hiid.trans hid.symm)]
  · exact absurd hid (hnew r hr)

theorem upsert_id_isSome (hfits : x.Fits svc) (hrun : upsert_algorithm_with_instance svc x c = some c') :
    (varchar 100 x.alg_id).isSome := by
  obtain ⟨mid, hmid, -⟩ := Option.bind_eq_some_iff.mp hrun
  unfold upsertAlgorithm at hmid
  rw [hfits.proposed_eq] at hmid
  obtain ⟨new, hnew, -⟩ := Option.bind_eq_some_iff.mp hmid
  obtain ⟨id, hid, -⟩ := Option.map_eq_some_iff.mp hnew
  exact Option.isSome_iff_exists.mpr ⟨id, hid⟩

/-- The instance that was written may have been moved. -/
theorem mayMove_of_writes (hcodes : ∀ y ∈ before, y.code ≠ x.code)
    (hcovered : ∀ y ∈ before, ∃ a, y.Stored svc c' a ∧ Linked c' a.id)
    (hnamed : ∀ y ∈ x :: before, (∀ z ∈ after, z.label ≠ y.label) → Named svc c' y.label)
    (hwrites : x.Writes svc c c' row) (htouch : x.Touches svc c) {inst r : InstanceRow}
    (hinst : x.HasInstance svc c row.id inst)
    (hmem : ∀ i, i ∈ c'.instances ↔ i = inst ∨ i ∈ c.instances ∧ i.id ≠ inst.id) (hr : r ∈ c.instances)
    (hid : r.id = inst.id) : MayMove svc before after x c r := by
  have hservice := hinst.service_eq hr hid
  have hinstMem : inst ∈ c'.instances := (hmem inst).mpr (.inl rfl)
  constructor
  case free =>
    intro i hi hkey
    by_contra hne
    have hine : i.id ≠ inst.id := fun heq => hne (c.sound.instanceId i hi r hr (heq.trans hid.symm))
    have hsame : i.key = inst.key := by rw [hkey, InstanceRow.key, hinst.name, hservice]
    exact hine (congrArg InstanceRow.id
      (c'.sound.instanceKey i ((hmem i).mpr (.inr ⟨hi, hine⟩)) inst hinstMem hsame))
  case service =>
    intro hlast
    obtain ⟨i, hi, hkey⟩ := hnamed x List.mem_cons_self hlast
    obtain rfl | ⟨hi, hine⟩ := (hmem i).mp hi
    · rw [← hservice]
      exact (Prod.mk.inj hkey).1
    · have hheld := c.sound.idFits i hi
      rw [htouch i hi hkey, Held, hinst.id, Option.some.injEq] at hheld
      exact absurd ((htouch i hi hkey).trans hheld.symm) hine
  case link =>
    intro y hy a ha hkey hlink
    obtain ⟨b, hstored, i, hi, hi'⟩ := hcovered y hy
    have hmem' := (hwrites.mem_iff (hcodes y hy) hstored.key).mp hstored.mem
    obtain rfl := c.sound.algorithmKey a ha b hmem' (hkey.trans hstored.key.symm)
    obtain rfl | ⟨hi, hine⟩ := (hmem i).mp hi
    · exact absurd (hi'.symm.trans hinst.algorithm_id) (hwrites.id_ne (hcodes y hy) hkey hstored.mem)
    · exact ⟨i, hi, hid ▸ hine, hi'⟩
  case name =>
    rintro hrsvc hrname ⟨y, hy, hlabel⟩
    by_contra hnone
    push Not at hnone
    obtain ⟨i, hi, hkey⟩ := hnamed y (List.mem_cons_of_mem _ hy) (hlabel ▸ hnone)
    obtain rfl | ⟨hi, hine⟩ := (hmem i).mp hi
    · exact hrname (hlabel.symm.trans ((Prod.mk.inj hkey).2.symm.trans hinst.name))
    · have hsame : i.key = r.key := by rw [hkey, InstanceRow.key, hrsvc, hlabel]
      exact hine (c.sound.instanceKey i hi r hr hsame ▸ hid)

/-- **A call that leaves everything covered** up to its algorithm found the catalog ready. -/
theorem ready_of_writes (hfits : x.Fits svc) (hrun : upsert_algorithm_with_instance svc x c = some c')
    (hcodes : ∀ y ∈ before, y.code ≠ x.code)
    (hcovered : ∀ y ∈ x :: before, ∃ a, y.Stored svc c' a ∧ Linked c' a.id)
    (hnamed : ∀ y ∈ x :: before, (∀ z ∈ after, z.label ≠ y.label) → Named svc c' y.label) :
    x.Ready svc before after c := by
  obtain ⟨row, hwrites⟩ := upsert_writes hfits hrun
  obtain ⟨a, hstored, hlinked⟩ := hcovered x List.mem_cons_self
  obtain rfl : a = row := c'.sound.algorithmKey a hstored.mem row hwrites.row_mem
    (hstored.key.trans hwrites.hasRow.key.symm)
  -- a stored row with the id is the row of the code
  have hown : ∀ b ∈ c.algorithms, b.id = a.id → b.key = a.key := by
    intro b hb hid
    by_contra hne
    have hbmem := (hwrites.algorithms b).mpr (.inr ⟨hb, hne⟩)
    exact hne (congrArg AlgorithmRow.key (c'.sound.algorithmId b hbmem a hwrites.row_mem hid))
  refine ⟨hfits, upsert_id_isSome hfits hrun, ?_, fun hnot => ?_, fun htouch => ?_⟩
  · obtain ⟨b, hb, hkey, -, htype⟩ | ⟨hnew, hid, -⟩ := hwrites.hasRow.origin
    · exact .inl ⟨b, hb, hkey.trans hwrites.hasRow.key, htype.trans hstored.type_id⟩
    · refine .inr fun b hb => ⟨hwrites.hasRow.key ▸ hnew b hb, fun hvar => ?_⟩
      rw [hid, Option.some.injEq] at hvar
      exact hnew b hb (hown b hb hvar.symm)
  · obtain ⟨i, hi, hlink⟩ := hlinked
    rw [hwrites.skipped hnot] at hi
    obtain ⟨b, hb, hbid⟩ := c.sound.linked i hi
    have hid := hbid.trans hlink
    exact ⟨b, hb, (hown b hb hid).trans hwrites.hasRow.key, i, hi, hbid.symm⟩
  · obtain ⟨inst, hinst, hmem⟩ := hwrites.touched htouch
    exact ⟨inst.id, hinst.id, fun r hr hid => mayMove_of_writes hcodes
      (fun y hy => hcovered y (List.mem_cons_of_mem _ hy)) hnamed hwrites htouch hinst hmem hr hid⟩

end Necessary

/-! ## A call that finds the catalog ready covers its algorithm -/

section Sufficient

variable {before after : List Item}

theorem Item.Ready.exists_upsert (h : x.Ready svc before after c) (htype : ∃ t ∈ c.types, t.id = x.type_id) :
    ∃ c', upsert_algorithm_with_instance svc x c = some c' := by
  refine CatalogDb.exists_upsert h.fits h.id htype ?_ fun htouch => ?_
  · obtain ⟨a, ha, hkey, -⟩ | hfree := h.algorithm
    · exact .inl ⟨a, ha, hkey⟩
    · exact .inr fun a ha => (hfree a ha).2
  · obtain ⟨id, hid, hmoves⟩ := h.moves htouch
    exact ⟨id, hid, fun r hr hrid => (hmoves r hr hrid).free⟩

/-- The algorithm of the call is covered. -/
theorem Item.Ready.covered (h : x.Ready svc before after c) (hwrites : x.Writes svc c c' row) :
    x.Stored svc c' row ∧ Linked c' row.id := by
  have hrow := hwrites.hasRow
  refine ⟨⟨hwrites.row_mem, hrow.key, hrow.name, congrArg nz hrow.module_name, ?_⟩, ?_⟩
  · obtain ⟨b, hb, hkey, -, htype⟩ | ⟨-, -, htype⟩ := hrow.origin
    · obtain ⟨a, ha, hakey, hatype⟩ | hnew := h.algorithm
      · rw [← htype, ← hatype, c.sound.algorithmKey a ha b hb (hakey.trans (hrow.key.symm.trans hkey.symm))]
      · exact absurd (hkey.trans hrow.key) (hnew b hb).1
    · exact htype
  · by_cases htouch : x.Touches svc c
    · obtain ⟨inst, hinst, hmem⟩ := hwrites.touched htouch
      exact ⟨inst, (hmem inst).mpr (.inl rfl), hinst.algorithm_id⟩
    · obtain ⟨a, ha, hkey, i, hi, hlink⟩ := h.linked htouch
      obtain ⟨b, hb, hbkey, hbid, -⟩ | ⟨hnew, -⟩ := hrow.cases
      · rw [← hbid, ← c.sound.algorithmKey a ha b hb (hkey.trans (hrow.key.symm.trans hbkey.symm))]
        exact ⟨i, hwrites.skipped htouch ▸ hi, hlink⟩
      · exact absurd hkey (hnew a ha)

/-- The algorithms before stay covered. -/
theorem Item.Ready.keeps_covered (h : x.Ready svc before after c) (hwrites : x.Writes svc c c' row)
    (hy : y ∈ before) (hcode : y.code ≠ x.code) {a : AlgorithmRow} (hstored : y.Stored svc c a)
    (hlinked : Linked c a.id) : y.Stored svc c' a ∧ Linked c' a.id := by
  refine ⟨{ hstored with mem := (hwrites.mem_iff hcode hstored.key).mpr hstored.mem }, ?_⟩
  by_cases htouch : x.Touches svc c
  · obtain ⟨inst, hinst, hmem⟩ := hwrites.touched htouch
    obtain ⟨id, hid, hmoves⟩ := h.moves htouch
    have hsame : inst.id = id := Option.some.inj (hinst.id.symm.trans hid)
    obtain ⟨i, hi, hlink⟩ := hlinked
    by_cases hiid : i.id = inst.id
    · obtain ⟨k, hk, hkne, hklink⟩ :=
        (hmoves i hi (hiid.trans hsame)).link y hy a hstored.mem hstored.key hlink
      exact ⟨k, (hmem k).mpr (.inr ⟨hk, hiid ▸ hkne⟩), hklink⟩
    · exact ⟨i, (hmem i).mpr (.inr ⟨hi, hiid⟩), hlink⟩
  · obtain ⟨i, hi, hlink⟩ := hlinked
    exact ⟨i, hwrites.skipped htouch ▸ hi, hlink⟩

/-- The label has an instance, or a later algorithm has the label. -/
theorem Item.Ready.named (h : x.Ready svc before after c) (hwrites : x.Writes svc c c' row) :
    Named svc c' x.label ∨ ∃ z ∈ after, z.label = x.label := by
  by_cases hlater : ∃ z ∈ after, z.label = x.label
  · exact .inr hlater
  · push Not at hlater
    left
    by_cases htouch : x.Touches svc c
    · obtain ⟨inst, hinst, hmem⟩ := hwrites.touched htouch
      obtain ⟨id, hid, hmoves⟩ := h.moves htouch
      have hsame : inst.id = id := Option.some.inj (hinst.id.symm.trans hid)
      have hservice : inst.service_code = svc := by
        obtain ⟨i, hi, hiid, hservice⟩ | ⟨-, hservice⟩ := hinst.origin
        · exact hservice.symm.trans ((hmoves i hi (hiid.trans hsame)).service hlater)
        · exact hservice
      exact ⟨inst, (hmem inst).mpr (.inl rfl), Prod.ext hservice hinst.name⟩
    · unfold Item.Touches at htouch
      push Not at htouch
      obtain ⟨i, hi, hkey, hne⟩ := htouch
      exact ⟨i, hwrites.skipped (fun hall => hne (hall i hi hkey)) ▸ hi, hkey⟩

/-- The labels of the algorithms before keep an instance, unless a later one has the label. -/
theorem Item.Ready.keeps_named (h : x.Ready svc before after c) (hwrites : x.Writes svc c c' row)
    (hy : y ∈ before) (hnamed : Named svc c y.label ∨ ∃ z ∈ x :: after, z.label = y.label) :
    Named svc c' y.label ∨ ∃ z ∈ after, z.label = y.label := by
  by_cases hlabel : x.label = y.label
  · exact hlabel ▸ h.named hwrites
  · obtain ⟨i, hi, hkey⟩ | ⟨z, hz, hzlabel⟩ := hnamed
    · by_cases htouch : x.Touches svc c
      · obtain ⟨inst, hinst, hmem⟩ := hwrites.touched htouch
        obtain ⟨id, hid, hmoves⟩ := h.moves htouch
        have hsame : inst.id = id := Option.some.inj (hinst.id.symm.trans hid)
        obtain ⟨hservice, hname⟩ := Prod.mk.inj hkey
        by_cases hiid : i.id = inst.id
        · obtain ⟨z, hz, hzlabel⟩ := (hmoves i hi (hiid.trans hsame)).name hservice
            (fun heq => hlabel (heq.symm.trans hname)) ⟨y, hy, hname.symm⟩
          exact .inr ⟨z, hz, hzlabel.trans hname⟩
        · exact .inl ⟨i, (hmem i).mpr (.inr ⟨hi, hiid⟩), hkey⟩
      · exact .inl ⟨i, hwrites.skipped htouch ▸ hi, hkey⟩
    · obtain rfl | hz := List.mem_cons.mp hz
      · exact absurd hzlabel hlabel
      · exact .inr ⟨z, hz, hzlabel⟩

end Sufficient

end PlmCore.Platform.CatalogDb
