/-
The text behind the definition hash of a scope, as `definition_hash` builds it (`scopes.rs`) and as
`ScopeDefinitionHasher` does in platform-lib.

Both write the parent and the names of the keys with a line break and commas between them, and
neither escapes what a name holds. Two definitions of other shapes have one text when their key names
differ by where commas cut them, when one has no parent and the other an empty one, or when a parent
goes on with what looks like the line of the keys.
-/
import PlmCore.Lib.Cuts
import PlmCore.Pno.Catalog

set_option autoImplicit false

namespace PlmCore.Pno.Catalog

open PlmCore.Lib

/-! ## The texts -/

/-- The loop of `definition_hash` over the keys. -/
def push_names : Nat → List ScopeKeyDefinition → String → String
  | _, [], buf => buf
  | i, k :: rest, buf => push_names (i + 1) rest ((if i > 0 then buf.push ',' else buf) ++ k.name)

/-- What `definition_hash` digests. -/
def definition_text (s : ScopeRegistration) : String :=
  push_names 0 s.keys (("parent=" ++ s.parent_scope_code.getD "").push '\n' ++ "keys=")

namespace ScopeDefinitionHasher

def nullToEmpty (s : Option String) : String := s.getD ""

/-- What `ScopeDefinitionHasher.hash` digests; the list of the keys may be null. -/
def text (parentScopeCode : Option String) (keys : Option (List ScopeKeyDefinition)) : String :=
  let keys := keys.getD []
  (List.range keys.length).foldl
    (fun sb i => (if i > 0 then sb.push ',' else sb) ++ ((keys.map (·.name))[i]?).getD "")
    (("parent=" ++ nullToEmpty parentScopeCode).push '\n' ++ "keys=")

end ScopeDefinitionHasher

/-- The parent as it is written. -/
def ScopeRegistration.parent_text (s : ScopeRegistration) : String := s.parent_scope_code.getD ""

/-- The key names, joined by commas. -/
def ScopeRegistration.joined (s : ScopeRegistration) : String := ",".intercalate (s.keys.map (·.name))

/-- The key names, cut at the commas they hold. -/
def ScopeRegistration.name_pieces (s : ScopeRegistration) : List (List Char) :=
  pieces ',' (s.keys.map (·.name.toList))

/-- The parent, if any, and the key names in their order. -/
def ScopeRegistration.shape (s : ScopeRegistration) : Option String × List String :=
  (s.parent_scope_code, s.keys.map (·.name))

variable {s s' : ScopeRegistration} {sha256 : String → String}

/-- From the second key on each name comes with a comma before it. -/
theorem push_names_succ (i : Nat) (keys : List ScopeKeyDefinition) (buf : String) :
    push_names (i + 1) keys buf = buf ++ String.join (keys.map fun k => "," ++ k.name) := by
  induction keys generalizing i buf with
  | nil => simp [push_names]
  | cons k keys ih =>
    rw [push_names, if_pos (Nat.succ_pos i), ih, List.map_cons, String.join_cons]
    simp [String.push_eq_append, String.append_assoc]

theorem join_commas (name : String) (names : List String) :
    name ++ String.join (names.map fun n => "," ++ n) = ",".intercalate (name :: names) := by
  induction names generalizing name with
  | nil => simp
  | cons next names ih =>
    rw [List.map_cons, String.join_cons, String.intercalate_cons_cons, ← ih, String.append_assoc,
      String.append_assoc]

theorem push_line (buf : String) : buf.push '\n' ++ "keys=" = buf ++ "\nkeys=" := by
  rw [String.push_eq_append, String.append_assoc]
  rfl

/-- **The text** is the parent and the joined names. -/
theorem definition_text_eq (s : ScopeRegistration) :
    definition_text s = "parent=" ++ s.parent_text ++ "\nkeys=" ++ s.joined := by
  have hnames : push_names 0 s.keys (("parent=" ++ s.parent_text).push '\n' ++ "keys=") =
      ("parent=" ++ s.parent_text).push '\n' ++ "keys=" ++ s.joined := by
    unfold ScopeRegistration.joined
    cases s.keys with
    | nil => simp [push_names]
    | cons k keys =>
      rw [push_names, if_neg (Nat.lt_irrefl 0), push_names_succ, String.append_assoc, List.map_cons,
        ← join_commas, List.map_map]
      rfl
  rw [definition_text, ← ScopeRegistration.parent_text, hnames, push_line]

/-- The loop over the positions joins the names too. -/
theorem foldl_range_names (names : List String) (buf : String) {m : Nat} (hm : m ≤ names.length) :
    (List.range m).foldl
        (fun sb i => (if i > 0 then sb.push ',' else sb) ++ (names[i]?).getD "") buf =
      buf ++ ",".intercalate (names.take m) := by
  induction m with
  | zero => simp
  | succ m ih =>
    have hget : names[m]? = some names[m] := List.getElem?_eq_getElem hm
    rw [List.range_succ, List.foldl_append, ih (Nat.le_of_lt hm), List.foldl_cons, List.foldl_nil, hget,
      Option.getD_some, List.take_add_one, hget, Option.toList_some]
    by_cases hzero : m = 0
    · simp [hzero]
    · have hne : names.take m ≠ [] := by
        intro hnil
        have hlength := congrArg List.length hnil
        rw [List.length_take, List.length_nil] at hlength
        omega
      rw [if_pos (Nat.pos_of_ne_zero hzero),
        String.intercalate_append_of_ne_nil hne (List.cons_ne_nil _ _), String.intercalate_singleton]
      simp [String.push_eq_append, String.append_assoc]

/-- **Both services digest one text.** -/
theorem ScopeDefinitionHasher.text_eq {keys : Option (List ScopeKeyDefinition)}
    (hkeys : keys.getD [] = s.keys) :
    ScopeDefinitionHasher.text s.parent_scope_code keys = definition_text s := by
  unfold ScopeDefinitionHasher.text
  rw [hkeys, definition_text_eq]
  have hloop := foldl_range_names (s.keys.map (·.name))
    (("parent=" ++ ScopeDefinitionHasher.nullToEmpty s.parent_scope_code).push '\n' ++ "keys=")
    (Nat.le_refl _)
  rw [List.length_map, List.take_of_length_le (Nat.le_of_eq (List.length_map _))] at hloop
  refine hloop.trans ?_
  rw [push_line]
  rfl

/-- The Rust hash digests this text. -/
theorem definition_hash_eq (s : ScopeRegistration) :
    definition_hash sha256 s = sha256 (definition_text s) := by
  rw [definition_text_eq]
  rfl

/-! ## Definitions with one text -/

/-- The parent of one goes on with what reads as the line of the keys, and the keys of the other hold
the rest of it. -/
def Shifted (s s' : ScopeRegistration) : Prop :=
  ∃ m, s'.parent_text = s.parent_text ++ "\nkeys=" ++ m ∧ s.joined = m ++ "\nkeys=" ++ s'.joined

/-- Definitions of other shapes that are written alike. -/
def Lookalike (s s' : ScopeRegistration) : Prop :=
  s.shape ≠ s'.shape ∧
    (s.parent_text = s'.parent_text ∧ s.name_pieces = s'.name_pieces ∨ Shifted s s' ∨ Shifted s' s)

theorem joined_eq_iff : s.joined = s'.joined ↔ s.name_pieces = s'.name_pieces := by
  rw [← String.toList_inj, ScopeRegistration.joined, ScopeRegistration.joined,
    String.toList_intercalate, String.toList_intercalate, List.map_map, List.map_map]
  exact intercalate_eq_iff

/-- The rest of the line break and `keys=`. -/
theorem toList_line (p k : String) :
    (p ++ "\nkeys=" ++ k).toList = p.toList ++ '\n' :: ("keys=".toList ++ k.toList) := by
  rw [String.toList_append, String.toList_append, List.append_assoc]
  rfl

/-- **Two definitions have one text** exactly when they write the same parent and the same pieces of
names, or one is shifted against the other. -/
theorem definition_text_eq_iff : definition_text s = definition_text s' ↔
    s.parent_text = s'.parent_text ∧ s.name_pieces = s'.name_pieces ∨ Shifted s s' ∨ Shifted s' s := by
  have hshifted : ∀ s s' : ScopeRegistration, Shifted s s' ↔
      ∃ m, s'.parent_text.toList = s.parent_text.toList ++ '\n' :: ("keys=".toList ++ m) ∧
        s.joined.toList = m ++ '\n' :: ("keys=".toList ++ s'.joined.toList) := by
    intro s s'
    constructor
    · rintro ⟨m, hparent, hkeys⟩
      exact ⟨m.toList, hparent ▸ toList_line _ _, hkeys ▸ toList_line _ _⟩
    · rintro ⟨m, hparent, hkeys⟩
      refine ⟨String.ofList m, String.toList_inj.mp ?_, String.toList_inj.mp ?_⟩
      · rw [toList_line, hparent, @String.toList_ofList m]
      · rw [toList_line, hkeys, @String.toList_ofList m]
  have hmark : '\n' ∉ "keys=".toList := by decide
  rw [definition_text_eq, definition_text_eq, ← String.toList_inj, toList_line, toList_line,
    String.toList_append, String.toList_append, List.append_assoc, List.append_assoc,
    List.append_cancel_left_eq, append_mark_eq_iff hmark, String.toList_inj, String.toList_inj,
    joined_eq_iff, hshifted, hshifted]

/-- **Plain definitions** are told by their text: no empty parent, no empty key name, no comma in a
key name and no line break anywhere. -/
theorem not_lookalike_of_plain (hparent : ∀ p, s.parent_scope_code = some p → p ≠ "" ∧ '\n' ∉ p.toList)
    (hparent' : ∀ p, s'.parent_scope_code = some p → p ≠ "" ∧ '\n' ∉ p.toList)
    (hnames : ∀ k ∈ s.keys, k.name ≠ "" ∧ ',' ∉ k.name.toList)
    (hnames' : ∀ k ∈ s'.keys, k.name ≠ "" ∧ ',' ∉ k.name.toList) : ¬ Lookalike s s' := by
  have hline : ∀ s : ScopeRegistration,
      (∀ p, s.parent_scope_code = some p → p ≠ "" ∧ '\n' ∉ p.toList) → '\n' ∉ s.parent_text.toList := by
    intro s hparent
    cases hp : s.parent_scope_code with
    | none => simp [ScopeRegistration.parent_text, hp]
    | some p =>
      rw [ScopeRegistration.parent_text, hp]
      exact (hparent p hp).2
  have hshifted : ∀ s s' : ScopeRegistration, '\n' ∉ s'.parent_text.toList → ¬ Shifted s s' := by
    rintro s s' hfree ⟨m, hlonger, -⟩
    rw [hlonger, toList_line] at hfree
    exact hfree (List.mem_append_right _ List.mem_cons_self)
  have hpieces : ∀ s : ScopeRegistration, (∀ k ∈ s.keys, k.name ≠ "" ∧ ',' ∉ k.name.toList) →
      s.name_pieces = if s.keys = [] then [[]] else s.keys.map (·.name.toList) := by
    intro s hnames
    unfold ScopeRegistration.name_pieces
    by_cases hnil : s.keys = []
    · rw [if_pos hnil, hnil]
      rfl
    · rw [if_neg hnil, pieces_eq_self (by simpa using hnil)]
      intro field hfield
      obtain ⟨k, hk, rfl⟩ := List.mem_map.mp hfield
      exact (hnames k hk).2
  rintro ⟨hshape, ⟨hsame, hnamesame⟩ | hshift | hshift⟩
  · refine hshape (Prod.ext ?_ ?_)
    · have hboth : s.parent_scope_code.getD "" = s'.parent_scope_code.getD "" := hsame
      cases hp : s.parent_scope_code with
      | none =>
        cases hp' : s'.parent_scope_code with
        | none => simp [ScopeRegistration.shape, hp, hp']
        | some p' =>
          rw [hp, hp'] at hboth
          exact absurd hboth.symm (hparent' p' hp').1
      | some p =>
        cases hp' : s'.parent_scope_code with
        | none =>
          rw [hp, hp'] at hboth
          exact absurd hboth (hparent p hp).1
        | some p' =>
          rw [hp, hp'] at hboth
          rw [ScopeRegistration.shape, ScopeRegistration.shape, hp, hp']
          exact congrArg some hboth
    · -- no key and one key with an empty name would have the same pieces
      have hempty : ∀ s : ScopeRegistration, (∀ k ∈ s.keys, k.name ≠ "" ∧ ',' ∉ k.name.toList) →
          s.keys.map (·.name.toList) ≠ [[]] := by
        intro s hnames heq
        obtain ⟨k, hk, hname⟩ := List.mem_map.mp (heq ▸ List.mem_singleton_self ([] : List Char))
        exact (hnames k hk).1 (String.toList_inj.mp hname)
      have hlists : s.keys.map (·.name.toList) = s'.keys.map (·.name.toList) := by
        rw [hpieces s hnames, hpieces s' hnames'] at hnamesame
        by_cases hnil : s.keys = []
        · by_cases hnil' : s'.keys = []
          · rw [hnil, hnil']
          · rw [if_pos hnil, if_neg hnil'] at hnamesame
            exact absurd hnamesame.symm (hempty s' hnames')
        · by_cases hnil' : s'.keys = []
          · rw [if_neg hnil, if_pos hnil'] at hnamesame
            exact absurd hnamesame (hempty s hnames)
          · rwa [if_neg hnil, if_neg hnil'] at hnamesame
      have hback := congrArg (List.map String.ofList) hlists
      simpa [ScopeRegistration.shape, Function.comp_def] using hback
  · exact hshifted _ _ (hline s' hparent') hshift
  · exact hshifted _ _ (hline s hparent) hshift

/-- Definitions of one shape have one text, so it tells two shapes apart unless they are
lookalikes. -/
theorem text_tells_iff : (definition_text s = definition_text s' ↔ s.shape = s'.shape) ↔
    ¬ Lookalike s s' := by
  have hshape : s.shape = s'.shape → definition_text s = definition_text s' := by
    intro h
    obtain ⟨hparent, hnames⟩ := Prod.mk.inj h
    rw [definition_text_eq, definition_text_eq, ScopeRegistration.parent_text,
      ScopeRegistration.parent_text, hparent, ScopeRegistration.joined, ScopeRegistration.joined, hnames]
  rw [Lookalike, ← definition_text_eq_iff, not_and, not_imp_not]
  exact ⟨fun h => h.mp, fun h => ⟨h, hshape⟩⟩

/-- A scope of another service is a conflict exactly when the hashes differ. -/
theorem register_conflict_iff {service_code instance_id : String} {now : Nat} {b : Batch} {row : ScopeRow}
    (hrow : b.tables.permission_scope s.scope_code = some row) (howner : row.owner_service ≠ service_code) :
    (∃ b', b.register sha256 service_code instance_id now s = .ok b' ∧ b'.conflicts ≠ b.conflicts) ↔
      row.definition_hash ≠ definition_hash sha256 s := by
  unfold Batch.register
  rw [hrow]
  dsimp only
  by_cases hsame : row.definition_hash = definition_hash sha256 s
  · rw [if_neg (not_not_intro hsame), Batch.refresh_eq]
    simp [hsame]
  · rw [if_pos hsame, if_neg howner]
    simp [hsame]

/-- **What the text tells.** Both services digest the same text. It tells the shapes of two
definitions apart exactly when these are no lookalikes; and where digests of other texts differ, a
scope that another service owns is reported as a conflict, for a shape that is not the owner's,
exactly then. -/
theorem definition_text_tells_shapes (s s' : ScopeRegistration) :
    (∀ keys : Option (List ScopeKeyDefinition), keys.getD [] = s.keys →
      ScopeDefinitionHasher.text s.parent_scope_code keys = definition_text s) ∧
    ((definition_text s = definition_text s' ↔ s.shape = s'.shape) ↔ ¬ Lookalike s s') ∧
    ∀ (sha256 : String → String), Function.Injective sha256 →
      ∀ (service_code instance_id : String) (now : Nat) (b : Batch) (row : ScopeRow),
        b.tables.permission_scope s.scope_code = some row → row.owner_service ≠ service_code →
        row.definition_hash = definition_hash sha256 s' →
        (((∃ b', b.register sha256 service_code instance_id now s = .ok b' ∧
            b'.conflicts ≠ b.conflicts) ↔ s.shape ≠ s'.shape) ↔ ¬ Lookalike s s') := by
  refine ⟨fun keys hkeys => ScopeDefinitionHasher.text_eq hkeys, text_tells_iff, ?_⟩
  intro sha256 hinj service_code instance_id now b row hrow howner hhash
  rw [register_conflict_iff hrow howner, hhash, definition_hash_eq, definition_hash_eq, hinj.ne_iff,
    ← text_tells_iff, not_iff_not, eq_comm]

section Example

def twoKeys : ScopeRegistration :=
  ⟨"LIFECYCLE", some "NODE", none, [⟨"lifecycle", none⟩, ⟨"transition", none⟩], []⟩

/-- One key, whose name holds a comma. -/
def commaKey : ScopeRegistration :=
  ⟨"LIFECYCLE", some "NODE", none, [⟨"lifecycle,transition", none⟩], []⟩

def oneKey : ScopeRegistration := ⟨"LIFECYCLE", some "NODE", none, [⟨"lifecycle", none⟩], []⟩

/-- What psa left when it registered its scope. -/
def ownedByPsa : Batch :=
  ⟨⟨fun _ => some ⟨some "NODE", none, definition_hash id oneKey, "psa", 0, oneKey.keys⟩,
    fun _ _ _ => none⟩, [], false⟩

theorem definition_text_tells_two_keys :
    (∃ b', ownedByPsa.register id "psm" "psm-1" 1 twoKeys = .ok b' ∧ b'.conflicts ≠ []) ↔
      twoKeys.shape ≠ oneKey.shape := by
  have htells := (definition_text_tells_shapes twoKeys oneKey).2.2 id Function.injective_id "psm"
    "psm-1" 1 ownedByPsa _ rfl (by decide) rfl
  refine htells.mpr (not_lookalike_of_plain ?_ ?_ ?_ ?_)
  · rintro p ⟨⟩
    decide
  · rintro p ⟨⟩
    decide
  · decide
  · decide

theorem definition_text_of_comma_key :
    ¬ ∀ s s' : ScopeRegistration, definition_text s = definition_text s' ↔ s.shape = s'.shape := by
  intro h
  exact absurd ((h twoKeys commaKey).mp (by decide)) (by decide)

end Example

end PlmCore.Pno.Catalog
