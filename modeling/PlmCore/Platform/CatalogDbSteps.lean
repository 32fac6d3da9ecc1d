/-
The statements of a registration, one after another.

`persist_to_db` runs a list of statements: the types, and for each algorithm the two inserts of
`upsert_algorithm_with_instance`. Each statement writes the row of one key; what it leaves is said once here,
for the types, the algorithms and the instances.
-/
import PlmCore.Platform.CatalogDb

set_option autoImplicit false

namespace PlmCore.Platform.CatalogDb

open PlmCore.Lib

/-! ## The list of statements -/

inductive Statement where
  | type (t : TypeStatement)
  | algorithm (x : Item)

def Statement.run (svc : String) : Statement → Catalog → Option Catalog
  | .type t, c => insertType svc t c
  | .algorithm x, c => upsert_algorithm_with_instance svc x c

/-- The lines that speak of a statement. -/
def Statement.lines : Statement → List String
  | .type t => [typeLine t.id t.name]
  | .algorithm x => [algLine x.code x.label (nz x.module) x.type_id, instLine x.label]

/-- The statements of a list, one after another. -/
def runAll (svc : String) (sts : List Statement) (c : Catalog) : Option Catalog :=
  sts.foldlM (fun c st => st.run svc c) c

section Statements

variable (to_lowercase : String → String) (svc : String) (p : Payload)

/-- The statements for a contribution. -/
def contributionStatements (k : ContributionInput) : List Statement :=
  if k.algorithms = [] then []
  else .type (contributionType k) ::
    k.algorithms.map fun a => .algorithm (contributionItem to_lowercase svc k.type_id a)

def statements : List Statement :=
  (if p.handlers = [] then [] else [.type (handlerType svc)]) ++
    (if p.guards = [] then [] else [.type (guardType svc)]) ++
    p.handlers.map (fun h => .algorithm (handlerItem to_lowercase svc h)) ++
    p.guards.map (fun g => .algorithm (guardItem to_lowercase svc g)) ++
    p.contributions.flatMap (contributionStatements to_lowercase svc)

def itemsOf (sts : List Statement) : List Item :=
  sts.filterMap fun st => match st with
    | .type _ => none
    | .algorithm x => some x

/-- The algorithms of the payload, as the calls have them. -/
def items : List Item := itemsOf (statements to_lowercase svc p)

theorem runAll_append (before after : List Statement) (c : Catalog) :
    runAll svc (before ++ after) c = (runAll svc before c).bind (runAll svc after) := by
  rw [runAll, List.foldlM_append]
  rfl

theorem runAll_cons (st : Statement) (after : List Statement) (c : Catalog) :
    runAll svc (st :: after) c = (st.run svc c).bind (runAll svc after) := by
  rw [runAll, List.foldlM_cons]
  rfl

theorem runAll_map {α : Type} (f : α → Item) (xs : List α) (c : Catalog) :
    runAll svc (xs.map fun x => .algorithm (f x)) c =
      xs.foldlM (fun c x => upsert_algorithm_with_instance svc (f x) c) c := by
  induction xs generalizing c with
  | nil => rfl
  | cons x xs ih =>
    rw [List.map_cons, runAll_cons, List.foldlM_cons]
    exact congrArg _ (funext ih)

theorem runAll_contribution (k : ContributionInput) (c : Catalog) :
    runAll svc (contributionStatements to_lowercase svc k) c = persistContribution to_lowercase svc k c := by
  unfold contributionStatements persistContribution
  split
  case isTrue => rfl
  case isFalse =>
    rw [runAll_cons]
    exact congrArg _ (funext fun c => runAll_map svc _ _ c)

theorem runAll_contributions (ks : List ContributionInput) (c : Catalog) :
    runAll svc (ks.flatMap (contributionStatements to_lowercase svc)) c =
      ks.foldlM (fun c k => persistContribution to_lowercase svc k c) c := by
  induction ks generalizing c with
  | nil => rfl
  | cons k ks ih =>
    rw [List.flatMap_cons, runAll_append, runAll_contribution, List.foldlM_cons]
    exact congrArg _ (funext ih)

theorem runAll_type (t : TypeStatement) (cond : Prop) [Decidable cond] (c : Catalog) :
    runAll svc (if cond then [] else [.type t]) c = if cond then some c else insertType svc t c := by
  split
  case isTrue => rfl
  case isFalse =>
    rw [runAll_cons]
    exact Option.bind_fun_some _

/-- **`persist_to_db` runs the statements** when a line is missing. -/
theorem persist_to_db_eq (c : Catalog) :
    persist_to_db to_lowercase svc p c =
      if '\x00' ∈ svc.toList then none
      else if incoming_fingerprint svc p ⊆ currentLines svc c then some (c, false)
      else (runAll svc (statements to_lowercase svc p) c).map fun c => (c, true) := by
  unfold persist_to_db current_fingerprint
  split
  case isTrue => rfl
  case isFalse =>
    change (if _ then _ else _) = _
    split
    case isTrue => rfl
    case isFalse =>
      unfold statements
      simp only [runAll_append, runAll_map, runAll_contributions, Option.map_eq_bind, Option.bind_assoc, runAll_type]
      rfl

/-- The lines of the payload are those of its statements. -/
theorem mem_incoming_iff (l : String) :
    l ∈ incoming_fingerprint svc p ↔ ∃ st ∈ statements to_lowercase svc p, l ∈ st.lines := by
  have htype : ∀ (t : TypeStatement) (cond : Prop) [Decidable cond],
      (l ∈ if cond then [] else [typeLine t.id t.name]) ↔
        ∃ st ∈ (if cond then [] else [Statement.type t]), l ∈ st.lines := by
    intro t cond _
    split <;> simp [Statement.lines]
  have hitems : ∀ (type_id classPrefix : String) (es : List Entry),
      l ∈ es.flatMap (Entry.lines type_id) ↔
        ∃ st ∈ es.map (fun e => Statement.algorithm (e.item to_lowercase svc type_id classPrefix)), l ∈ st.lines := by
    intro type_id classPrefix es
    simp [List.mem_flatMap, Statement.lines, Entry.lines, Entry.item]
  have hcontribution : ∀ k : ContributionInput,
      (l ∈ if k.algorithms = [] then []
        else typeLine k.type_id k.type_name :: k.algorithms.flatMap (Entry.lines k.type_id)) ↔
        ∃ st ∈ contributionStatements to_lowercase svc k, l ∈ st.lines := by
    intro k
    unfold contributionStatements
    split
    case isTrue => simp
    case isFalse =>
      rw [List.mem_cons, hitems k.type_id "c-"]
      simp [Statement.lines, contributionType, contributionItem]
  unfold incoming_fingerprint statements
  simp only [List.mem_append, or_and_right, exists_or]
  have hall : (l ∈ p.contributions.flatMap fun c =>
      if c.algorithms = [] then []
      else typeLine c.type_id c.type_name :: c.algorithms.flatMap (Entry.lines c.type_id)) ↔
      ∃ st ∈ p.contributions.flatMap (contributionStatements to_lowercase svc), l ∈ st.lines := by
    simp only [List.mem_flatMap, hcontribution]
    exact ⟨fun ⟨k, hk, st, hst, hl⟩ => ⟨st, ⟨k, hk, hst⟩, hl⟩, fun ⟨st, ⟨k, hk, hst⟩, hl⟩ => ⟨k, hk, st, hst, hl⟩⟩
  rw [hitems _ "", hitems _ "g-", hall]
  exact or_congr_left (or_congr_left (or_congr_left (or_congr (htype (handlerType svc) _) (htype (guardType svc) _))))

end Statements

/-! ## Columns and tables -/

theorem held_iff {n : Nat} {s : String} : Held n s ↔ '\x00' ∉ s.toList ∧ s.length ≤ n := by
  unfold Held varchar
  split
  case isTrue h => exact iff_of_false (fun hnone => by cases hnone) fun hnot => hnot.1 h
  case isFalse h =>
    split
    case isTrue hle => exact iff_of_true rfl ⟨h, hle⟩
    case isFalse hgt =>
      refine iff_of_false ?_ fun hle => hgt hle.2
      split
      case isTrue =>
        intro hcut
        have hlength := congrArg String.length (Option.some.inj hcut)
        rw [String.length_ofList, List.length_take] at hlength
        omega
      case isFalse => exact fun hnone => by cases hnone

theorem Held.mono {n m : Nat} {s : String} (h : Held n s) (hnm : n ≤ m) : Held m s :=
  held_iff.mpr ⟨(held_iff.mp h).1, Nat.le_trans (held_iff.mp h).2 hnm⟩

theorem held_of_varchar {n : Nat} {s t : String} (h : varchar n s = some t) : Held n t := by
  unfold varchar at h
  split at h
  case isTrue => cases h
  case isFalse hnul =>
    split at h
    case isTrue hle =>
      cases h
      exact held_iff.mpr ⟨hnul, hle⟩
    case isFalse =>
      split at h
      case isTrue =>
        cases h
        rw [held_iff, String.toList_ofList, String.length_ofList, List.length_take]
        exact ⟨fun hmem => hnul (List.mem_of_mem_take hmem), Nat.min_le_left _ _⟩
      case isFalse => cases h

theorem commit_eq_some_iff {types : List TypeRow} {algorithms : List AlgorithmRow} {instances : List InstanceRow}
    {c : Catalog} :
    commit types algorithms instances = some c ↔
      c.types = types ∧ c.algorithms = algorithms ∧ c.instances = instances := by
  unfold commit
  constructor
  · intro h
    split at h
    case isTrue => cases h; exact ⟨rfl, rfl, rfl⟩
    case isFalse => cases h
  · rintro ⟨rfl, rfl, rfl⟩
    exact dif_pos c.sound

variable {svc : String} {c c' : Catalog}

/-! ## A type is written -/

theorem TypeStatement.leaves_id {t : TypeStatement} {new : TypeRow} {stored : Option TypeRow}
    (h : ∀ r ∈ stored, r.id = new.id) : (t.leaves new stored).id = new.id := by
  cases stored with
  | none => rfl
  | some r =>
    have hid := h r rfl
    unfold TypeStatement.leaves
    dsimp only
    split
    · exact hid
    · exact hid

/-- What a statement makes of the row of an id. -/
def TypeStatement.effect (svc : String) (t : TypeStatement) (id : String) (row : Option TypeRow) :
    Option TypeRow :=
  match t.proposed svc with
  | none => row
  | some new => if new.id = id then some (t.leaves new row) else row

/-- What a statement writes. -/
theorem insertType_eq_some_iff {t : TypeStatement} :
    insertType svc t c = some c' ↔
      (t.proposed svc).isSome ∧ c'.algorithms = c.algorithms ∧ c'.instances = c.instances ∧
        ∀ new, t.proposed svc = some new →
          c'.types = upsert TypeRow.id (t.leaves new (c.types.find? fun stored => stored.id = new.id)) c.types := by
  unfold insertType
  cases hnew : t.proposed svc with
  | none => simp
  | some new =>
    change commit _ _ _ = _ ↔ _
    rw [commit_eq_some_iff]
    constructor
    · rintro ⟨htypes, halgorithms, hinstances⟩
      refine ⟨rfl, halgorithms, hinstances, fun new' heq => ?_⟩
      cases heq
      exact htypes
    · rintro ⟨-, halgorithms, hinstances, htypes⟩
      exact ⟨htypes new rfl, halgorithms, hinstances⟩

/-- A type that can be stored is written. -/
theorem exists_insertType {t : TypeStatement} (h : (t.proposed svc).isSome) :
    ∃ c', insertType svc t c = some c' := by
  obtain ⟨new, hnew⟩ := Option.isSome_iff_exists.mp h
  have hid : (t.leaves new (c.types.find? fun stored => stored.id = new.id)).id = new.id :=
    TypeStatement.leaves_id fun r hr => ((find?_eq_some_iff_of_unique c.sound.typeId).mp hr).2
  have hsound : Sound (upsert TypeRow.id (t.leaves new (c.types.find? fun stored => stored.id = new.id)) c.types)
      c.algorithms c.instances := by
    refine { c.sound with typeId := c.sound.typeId.upsert, typed := ?_ }
    intro a ha
    obtain ⟨r, hr, hra⟩ := c.sound.typed a ha
    by_cases heq : r.id = new.id
    · exact ⟨_, mem_upsert.mpr (.inl rfl), by rw [hid, ← heq, hra]⟩
    · exact ⟨r, mem_upsert.mpr (.inr ⟨hr, fun hsame => heq (hsame.trans hid)⟩), hra⟩
  refine ⟨⟨_, _, _, hsound⟩, insertType_eq_some_iff.mpr ⟨h, rfl, rfl, fun new' heq => ?_⟩⟩
  rw [hnew] at heq
  cases heq
  rfl

/-- The row of an id after a type was written. -/
theorem find?_insertType {t : TypeStatement} (h : insertType svc t c = some c') (id : String) :
    c'.types.find? (fun r => r.id = id) = t.effect svc id (c.types.find? fun r => r.id = id) := by
  obtain ⟨hsome, -, -, htypes⟩ := insertType_eq_some_iff.mp h
  obtain ⟨new, hnew⟩ := Option.isSome_iff_exists.mp hsome
  have hid : (t.leaves new (c.types.find? fun stored => stored.id = new.id)).id = new.id :=
    TypeStatement.leaves_id fun r hr => ((find?_eq_some_iff_of_unique c.sound.typeId).mp hr).2
  rw [htypes new hnew, find?_upsert c.sound.typeId, hid, TypeStatement.effect, hnew]
  dsimp only
  split
  case isTrue heq => rw [heq]
  case isFalse => rfl

/-- The ids that are stored then. -/
theorem insertType_ids {t : TypeStatement} (h : insertType svc t c = some c') {new : TypeRow}
    (hnew : t.proposed svc = some new) {id : String} :
    (∃ r ∈ c'.types, r.id = id) ↔ id = new.id ∨ ∃ r ∈ c.types, r.id = id := by
  obtain ⟨-, -, -, htypes⟩ := insertType_eq_some_iff.mp h
  have hid : (t.leaves new (c.types.find? fun stored => stored.id = new.id)).id = new.id :=
    TypeStatement.leaves_id fun r hr => ((find?_eq_some_iff_of_unique c.sound.typeId).mp hr).2
  rw [htypes new hnew, ← List.mem_map, mem_map_upsert, hid, List.mem_map]

/-! ## An algorithm is written -/

/-- Every text of an algorithm of the payload is what its column holds. -/
structure Item.Fits (svc : String) (x : Item) : Prop where
  service_code : Held 50 svc
  type_id : Held 100 x.type_id
  code : Held 100 x.code
  label : Held 200 x.label
  module : storedModule x.module = some x.module

/-- Who owns the label owns the derived id, so the instance is written. -/
def Item.Touches (svc : String) (x : Item) (c : Catalog) : Prop :=
  ∀ i ∈ c.instances, i.key = (svc, x.label) → i.id = x.inst_id

/-- The row that an algorithm of the payload has after its call. -/
structure Item.HasRow (svc : String) (x : Item) (c : Catalog) (row : AlgorithmRow) : Prop where
  key : row.key = (svc, x.code)
  name : row.name = x.label
  module_name : row.module_name = x.module
  /-- It was stored, or is new under the derived id. -/
  origin : (∃ a ∈ c.algorithms, a.key = row.key ∧ a.id = row.id ∧ a.algorithm_type_id = row.algorithm_type_id) ∨
    (∀ a ∈ c.algorithms, a.key ≠ row.key) ∧ varchar 100 x.alg_id = some row.id ∧ row.algorithm_type_id = x.type_id

/-- The row of the instance after the call. -/
structure Item.HasInstance (svc : String) (x : Item) (c : Catalog) (algorithm_id : String) (inst : InstanceRow) :
    Prop where
  id : varchar 100 x.inst_id = some inst.id
  algorithm_id : inst.algorithm_id = algorithm_id
  name : inst.name = x.label
  origin : (∃ i ∈ c.instances, i.id = inst.id ∧ i.service_code = inst.service_code) ∨
    (∀ i ∈ c.instances, i.id ≠ inst.id) ∧ inst.service_code = svc

/-- **What a call of `upsert_algorithm_with_instance` writes.** -/
structure Item.Writes (svc : String) (x : Item) (c c' : Catalog) (row : AlgorithmRow) : Prop where
  hasRow : x.HasRow svc c row
  types : c'.types = c.types
  algorithms : ∀ a, a ∈ c'.algorithms ↔ a = row ∨ a ∈ c.algorithms ∧ a.key ≠ row.key
  touched : x.Touches svc c → ∃ inst, x.HasInstance svc c row.id inst ∧
    ∀ i, i ∈ c'.instances ↔ i = inst ∨ i ∈ c.instances ∧ i.id ≠ inst.id
  skipped : ¬ x.Touches svc c → c'.instances = c.instances

theorem Item.Fits.proposed_eq {x : Item} (h : x.Fits svc) :
    x.proposed svc = (varchar 100 x.alg_id).map fun id =>
      ⟨id, svc, x.type_id, x.code, x.label, x.code, x.module⟩ := by
  have hhandler : Held 500 x.code := h.code.mono (by decide)
  have hservice := h.service_code
  have htype := h.type_id
  have hcode := h.code
  have hlabel := h.label
  unfold Held at hservice htype hcode hlabel hhandler
  unfold Item.proposed
  cases varchar 100 x.alg_id with
  | none => rfl
  | some id => simp [hservice, htype, hcode, hlabel, hhandler, h.module]

theorem Item.leaves_hasRow {x : Item} {id : String} (hid : varchar 100 x.alg_id = some id) (c : Catalog) :
    x.HasRow svc c (Item.leaves ⟨id, svc, x.type_id, x.code, x.label, x.code, x.module⟩
      (c.algorithms.find? fun stored => stored.key = (svc, x.code))) := by
  cases hfind : c.algorithms.find? fun stored => stored.key = (svc, x.code) with
  | none =>
    refine ⟨rfl, rfl, rfl, .inr ⟨fun a ha => ?_, hid, rfl⟩⟩
    have hnone := List.find?_eq_none.mp hfind a ha
    exact fun heq => hnone (decide_eq_true heq)
  | some a =>
    obtain ⟨ha, hkey⟩ := (find?_eq_some_iff_of_unique c.sound.algorithmKey).mp hfind
    exact ⟨hkey, rfl, rfl, .inl ⟨a, ha, rfl, rfl, rfl⟩⟩

/-- The `INSERT` into `algorithm`. -/
theorem upsertAlgorithm_spec {x : Item} (hfits : x.Fits svc) (h : upsertAlgorithm svc x c = some c') :
    ∃ row, x.HasRow svc c row ∧ c'.types = c.types ∧ c'.instances = c.instances ∧
      ∀ a, a ∈ c'.algorithms ↔ a = row ∨ a ∈ c.algorithms ∧ a.key ≠ row.key := by
  unfold upsertAlgorithm at h
  rw [hfits.proposed_eq] at h
  obtain ⟨new, hnew, hcommit⟩ := Option.bind_eq_some_iff.mp h
  obtain ⟨id, hid, rfl⟩ := Option.map_eq_some_iff.mp hnew
  obtain ⟨htypes, halgorithms, hinstances⟩ := commit_eq_some_iff.mp hcommit
  refine ⟨_, Item.leaves_hasRow hid c, htypes, hinstances, fun a => ?_⟩
  rw [halgorithms, mem_upsert]
  rfl

theorem name_owner_all_iff {x : Item} :
    (name_owner svc x.label c).all (· = x.inst_id) = true ↔ x.Touches svc c := by
  unfold name_owner Item.Touches
  cases hfind : c.instances.find? fun i => i.key = (svc, x.label) with
  | none =>
    refine iff_of_true rfl fun i hi hkey => ?_
    have hnone := List.find?_eq_none.mp hfind i hi
    exact absurd (decide_eq_true hkey) hnone
  | some owner =>
    obtain ⟨howner, hkey⟩ := (find?_eq_some_iff_of_unique c.sound.instanceKey).mp hfind
    rw [Option.map_some, Option.all_some, decide_eq_true_iff]
    constructor
    · intro hid i hi hikey
      rw [c.sound.instanceKey i hi owner howner (hikey.trans hkey.symm), hid]
    · exact fun hall => hall owner howner hkey

theorem resolved_eq {x : Item} {row : AlgorithmRow} (hrow : row ∈ c.algorithms) (hkey : row.key = (svc, x.code)) :
    resolved svc x c = row.id := by
  rw [resolved, (find?_eq_some_iff_of_unique c.sound.algorithmKey).mpr ⟨hrow, hkey⟩]
  rfl

/-- The row that `upsertInstance` leaves. -/
theorem instance_hasInstance {x : Item} {id algorithm_id : String} (hid : varchar 100 x.inst_id = some id)
    (c : Catalog) :
    x.HasInstance svc c algorithm_id (InstanceRow.leaves ⟨id, svc, algorithm_id, x.label⟩
      (c.instances.find? fun stored => stored.id = id)) := by
  cases hfind : c.instances.find? fun stored => stored.id = id with
  | none =>
    refine ⟨hid, rfl, rfl, .inr ⟨fun i hi heq => ?_, rfl⟩⟩
    have hnone := List.find?_eq_none.mp hfind i hi
    exact hnone (decide_eq_true heq)
  | some stored =>
    obtain ⟨hstored, hkey⟩ := (find?_eq_some_iff_of_unique c.sound.instanceId).mp hfind
    exact ⟨hkey ▸ hid, rfl, rfl, .inl ⟨stored, hstored, rfl, rfl⟩⟩

/-- The `INSERT` into `algorithm_instance`, of texts that their columns hold. -/
theorem upsertInstance_eq {algorithm_id name : String} (hservice : Held 50 svc)
    (halgorithm : Held 100 algorithm_id) (hname : Held 200 name) (inst_id : String) :
    upsertInstance svc inst_id algorithm_id name c = (varchar 100 inst_id).bind fun id =>
      commit c.types c.algorithms (upsert InstanceRow.id (InstanceRow.leaves ⟨id, svc, algorithm_id, name⟩
        (c.instances.find? fun stored => stored.id = id)) c.instances) := by
  unfold Held at hservice halgorithm hname
  unfold upsertInstance
  cases varchar 100 inst_id with
  | none => rfl
  | some id =>
    simp only [hservice, halgorithm, hname, Option.bind_eq_bind, Option.bind_some]

/-- **A call that returns has written** the row and, where it may, the instance. -/
theorem upsert_writes {x : Item} (hfits : x.Fits svc) (h : upsert_algorithm_with_instance svc x c = some c') :
    ∃ row, x.Writes svc c c' row := by
  obtain ⟨mid, hmid, h⟩ := Option.bind_eq_some_iff.mp h
  obtain ⟨row, hrow, htypes, hinstances, halgorithms⟩ := upsertAlgorithm_spec hfits hmid
  have hmem : row ∈ mid.algorithms := (halgorithms row).mpr (.inl rfl)
  have howner : (name_owner svc x.label mid).all (· = x.inst_id) = true ↔ x.Touches svc c := by
    rw [name_owner_all_iff, Item.Touches, hinstances]
    rfl
  by_cases htouch : x.Touches svc c
  · rw [if_pos (howner.mpr htouch), resolved_eq hmem hrow.key,
      upsertInstance_eq hfits.service_code (mid.sound.fits row hmem).id hfits.label] at h
    obtain ⟨id, hid, hcommit⟩ := Option.bind_eq_some_iff.mp h
    obtain ⟨htypes', halgorithms', hinstances'⟩ := commit_eq_some_iff.mp hcommit
    rw [hinstances] at hinstances'
    refine ⟨row, hrow, htypes'.trans htypes, fun a => halgorithms' ▸ halgorithms a, fun _ => ?_,
      fun hnot => absurd htouch hnot⟩
    refine ⟨_, instance_hasInstance hid c, fun i => ?_⟩
    rw [hinstances', mem_upsert]
  · rw [if_neg fun hall => htouch (howner.mp hall)] at h
    cases h
    exact ⟨row, hrow, htypes, halgorithms, fun hnot => absurd hnot htouch, fun _ => hinstances⟩

/-- The row of an instance may be given to an algorithm: in its service nobody else has the label. -/
def LabelFree (label : String) (c : Catalog) (r : InstanceRow) : Prop :=
  ∀ i ∈ c.instances, i.key = (r.service_code, label) → i = r

/-- A row that was stored, or a new one with the id and the type of the payload. -/
theorem Item.HasRow.cases {x : Item} {row : AlgorithmRow} (h : x.HasRow svc c row) :
    (∃ a ∈ c.algorithms, a.key = row.key ∧ a.id = row.id ∧ a.algorithm_type_id = row.algorithm_type_id) ∨
      (∀ a ∈ c.algorithms, a.key ≠ (svc, x.code)) ∧ varchar 100 x.alg_id = some row.id ∧
        row.algorithm_type_id = x.type_id :=
  h.key ▸ h.origin

theorem Item.HasRow.fits {x : Item} {row : AlgorithmRow} (h : x.HasRow svc c row) (hfits : x.Fits svc) :
    row.Fits := by
  obtain ⟨hservice, hcode⟩ := Prod.mk.inj h.key
  have hid : Held 100 row.id ∧ Held 100 row.algorithm_type_id := by
    obtain ⟨a, ha, -, hid, htype⟩ | ⟨-, hid, htype⟩ := h.origin
    · have hstored := c.sound.fits a ha
      exact ⟨hid ▸ hstored.id, htype ▸ hstored.algorithm_type_id⟩
    · exact ⟨held_of_varchar hid, htype ▸ hfits.type_id⟩
  exact ⟨hid.1, hservice ▸ hfits.service_code, hid.2, hcode ▸ hfits.code, h.name ▸ hfits.label,
    h.module_name ▸ hfits.module⟩

/-- The constraints hold with the row of an algorithm written. -/
theorem Item.HasRow.sound {x : Item} {row : AlgorithmRow} (h : x.HasRow svc c row) (hfits : x.Fits svc)
    (htype : ∃ t ∈ c.types, t.id = x.type_id)
    (hfree : (∃ a ∈ c.algorithms, a.key = (svc, x.code)) ∨ ∀ a ∈ c.algorithms, varchar 100 x.alg_id ≠ some a.id) :
    Sound c.types (upsert AlgorithmRow.key row c.algorithms) c.instances := by
  -- no other row has the id
  have hother : ∀ a ∈ c.algorithms, a.key ≠ row.key → a.id ≠ row.id := by
    intro a ha hne heq
    obtain ⟨b, hb, hkey, hid, -⟩ | ⟨hnew, hid, -⟩ := h.cases
    · exact hne ((c.sound.algorithmId a ha b hb (heq.trans hid.symm)) ▸ hkey)
    · obtain ⟨b, hb, hkey⟩ | hfree := hfree
      · exact hnew b hb hkey
      · exact hfree a ha (heq ▸ hid)
  refine { c.sound with
    algorithmId := ?_
    algorithmKey := c.sound.algorithmKey.upsert
    typed := ?_
    linked := ?_
    fits := ?_ }
  · intro a ha b hb hab
    obtain rfl | ⟨haold, hane⟩ := mem_upsert.mp ha
    · obtain rfl | ⟨hbold, hbne⟩ := mem_upsert.mp hb
      · rfl
      · exact absurd hab.symm (hother b hbold hbne)
    · obtain rfl | ⟨hbold, hbne⟩ := mem_upsert.mp hb
      · exact absurd hab (hother a haold hane)
      · exact c.sound.algorithmId a haold b hbold hab
  · intro a ha
    obtain rfl | ⟨ha, -⟩ := mem_upsert.mp ha
    · obtain ⟨b, hb, -, -, hbtype⟩ | ⟨-, -, hnew⟩ := h.origin
      · exact hbtype ▸ c.sound.typed b hb
      · exact hnew ▸ htype
    · exact c.sound.typed a ha
  · intro i hi
    obtain ⟨a, ha, hai⟩ := c.sound.linked i hi
    by_cases hkey : a.key = row.key
    · refine ⟨row, mem_upsert.mpr (.inl rfl), ?_⟩
      obtain ⟨b, hb, hbkey, hbid, -⟩ | ⟨hnew, -⟩ := h.origin
      · rw [← hbid, ← c.sound.algorithmKey a ha b hb (hkey.trans hbkey.symm), hai]
      · exact absurd hkey (hnew a ha)
    · exact ⟨a, mem_upsert.mpr (.inr ⟨ha, hkey⟩), hai⟩
  · intro a ha
    obtain rfl | ⟨ha, -⟩ := mem_upsert.mp ha
    · exact h.fits hfits
    · exact c.sound.fits a ha

/-- The constraints hold with an instance written. -/
theorem Item.HasInstance.sound {x : Item} {row : AlgorithmRow} {inst : InstanceRow}
    (h : x.HasInstance svc c row.id inst) (htouch : x.Touches svc c)
    (hfree : ∀ r ∈ c.instances, r.id = inst.id → LabelFree x.label c r) (hrow : row ∈ c.algorithms) :
    Sound c.types c.algorithms (upsert InstanceRow.id inst c.instances) := by
  -- nobody else has the label in the service of the instance
  have hother : ∀ i ∈ c.instances, i.id ≠ inst.id → i.key ≠ inst.key := by
    intro i hi hne hkey
    obtain ⟨r, hr, hrid, hservice⟩ | ⟨-, hservice⟩ := h.origin
    · have hlabel : i.key = (r.service_code, x.label) := by
        rw [hkey, InstanceRow.key, h.name, hservice]
      exact hne (hfree r hr hrid i hi hlabel ▸ hrid)
    · have hlabel : i.key = (svc, x.label) := by rw [hkey, InstanceRow.key, h.name, hservice]
      have hid := htouch i hi hlabel
      have hheld := c.sound.idFits i hi
      rw [hid, Held, h.id, Option.some.injEq] at hheld
      exact hne (hid.trans hheld.symm)
  refine { c.sound with
    instanceId := c.sound.instanceId.upsert
    instanceKey := ?_
    linked := ?_
    idFits := ?_ }
  · intro i hi k hk hik
    obtain rfl | ⟨hiold, hine⟩ := mem_upsert.mp hi
    · obtain rfl | ⟨hkold, hkne⟩ := mem_upsert.mp hk
      · rfl
      · exact absurd hik.symm (hother k hkold hkne)
    · obtain rfl | ⟨hkold, hkne⟩ := mem_upsert.mp hk
      · exact absurd hik (hother i hiold hine)
      · exact c.sound.instanceKey i hiold k hkold hik
  · intro i hi
    obtain rfl | ⟨hi, -⟩ := mem_upsert.mp hi
    · exact ⟨row, hrow, h.algorithm_id.symm⟩
    · exact c.sound.linked i hi
  · intro i hi
    obtain rfl | ⟨hi, -⟩ := mem_upsert.mp hi
    · exact held_of_varchar h.id
    · exact c.sound.idFits i hi

/-- **A call returns** when the type is stored, the row of the algorithm is its own and the instance may be
written. -/
theorem exists_upsert {x : Item} (hfits : x.Fits svc) (hid : (varchar 100 x.alg_id).isSome)
    (htype : ∃ t ∈ c.types, t.id = x.type_id)
    (hfree : (∃ a ∈ c.algorithms, a.key = (svc, x.code)) ∨ ∀ a ∈ c.algorithms, varchar 100 x.alg_id ≠ some a.id)
    (hinst : x.Touches svc c → ∃ inst_id, varchar 100 x.inst_id = some inst_id ∧
      ∀ r ∈ c.instances, r.id = inst_id → LabelFree x.label c r) :
    ∃ c', upsert_algorithm_with_instance svc x c = some c' := by
  obtain ⟨id, hid⟩ := Option.isSome_iff_exists.mp hid
  have hleaves : x.HasRow svc c _ := Item.leaves_hasRow hid c
  have hsound := hleaves.sound hfits htype hfree
  obtain ⟨mid, hmid⟩ : ∃ mid, upsertAlgorithm svc x c = some mid := by
    rw [upsertAlgorithm, hfits.proposed_eq, hid]
    exact ⟨⟨_, _, _, hsound⟩, commit_eq_some_iff.mpr ⟨rfl, rfl, rfl⟩⟩
  obtain ⟨row, hrow, -, hinstances, halgorithms⟩ := upsertAlgorithm_spec hfits hmid
  have hmem : row ∈ mid.algorithms := (halgorithms row).mpr (.inl rfl)
  unfold upsert_algorithm_with_instance
  rw [hmid, Option.bind_eq_bind, Option.bind_some]
  split
  case isFalse => exact ⟨_, rfl⟩
  case isTrue hall =>
    have htouch : x.Touches svc mid := name_owner_all_iff.mp hall
    obtain ⟨inst_id, hinst_id, hlabel⟩ := hinst (by rw [Item.Touches, ← hinstances]; exact htouch)
    have hinstance : x.HasInstance svc mid row.id _ := instance_hasInstance hinst_id mid
    have hsame := Option.some.inj (hinstance.id.symm.trans hinst_id)
    have hfree' : ∀ r ∈ mid.instances, r.id = inst_id → LabelFree x.label mid r := by
      rw [hinstances]
      intro r hr hrid
      rw [LabelFree, hinstances]
      exact hlabel r hr hrid
    have hsound' := hinstance.sound htouch (fun r hr hrid => hfree' r hr (hrid.trans hsame)) hmem
    rw [resolved_eq hmem hrow.key, upsertInstance_eq hfits.service_code (hrow.fits hfits).id hfits.label, hinst_id]
    exact ⟨⟨_, _, _, hsound'⟩, commit_eq_some_iff.mpr ⟨rfl, rfl, rfl⟩⟩

end PlmCore.Platform.CatalogDb
