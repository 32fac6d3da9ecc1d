/-
The text behind the fingerprint of a grant, and what the grant operations do with it
(`authorization.rs`).

`compute_fingerprint` joins `name=value` of the effective keys with bars and escapes nothing, and
`validate` takes any value that is not blank. A grant is told by its text exactly when its scope has
no key twice and no two neighbouring values can be cut anew at the mark between them.
-/
import PlmCore.Lib.Cuts
import PlmCore.Pno.GrantShape

set_option autoImplicit false

namespace PlmCore.Pno

open PlmCore.Lib

/-! ## Key maps -/

/-- The value of a key as it is written; a missing one is written empty. -/
def KeyMap.value (keys : KeyMap) (name : String) : String := (keys.get name).getD ""

/-- A `BTreeMap` has its keys in their order, each once. -/
def KeyMap.Sorted (keys : KeyMap) : Prop := (keys.map (·.1)).Pairwise (· < ·)

/-- A value that `validate` takes. -/
def NotBlank (text : List Char) : Prop := Spe.trim text ≠ []

/-- What `compute_fingerprint` digests. -/
def grant_text (names : List String) (keys : KeyMap) : String :=
  "|".intercalate (names.map fun n => n ++ "=" ++ keys.value n)

/-- The keys behind the first, each with its mark. -/
def KeyMap.fields (keys : KeyMap) (names : List String) : List (List Char × List Char) :=
  names.map fun n => ('|' :: (n.toList ++ ['=']), (keys.value n).toList)

/-- No two neighbouring values can be cut anew at the mark of the second key. -/
def KeyMap.ToldApart (keys : KeyMap) : List String → Prop
  | [] => True
  | first :: rest => NoOtherCut NotBlank (keys.value first).toList (keys.fields rest)

variable {sha256 : String → String} {registry : Records} {depth : Nat} {scope_code : String}
  {names : List String} {keys keys' : KeyMap}

theorem notBlank_iff {text : List Char} : NotBlank text ↔ ∃ c ∈ text, Spe.isWhiteSpace c = false := by
  have hblank : Spe.trim text = [] ↔ ∀ c ∈ text, Spe.isWhiteSpace c = true := by
    rw [Spe.trim, List.reverse_eq_nil_iff, List.dropWhile_eq_nil_iff]
    simp only [List.mem_reverse]
    constructor
    · intro h
      rw [← List.dropWhile_eq_nil_iff]
      by_contra hne
      -- the first character that is left is no white space
      have hhead := List.head_dropWhile_not Spe.isWhiteSpace hne
      rw [h _ (List.head_mem hne)] at hhead
      cases hhead
    · exact fun h c hc => h c ((List.dropWhile_sublist _).subset hc)
  rw [NotBlank, ne_eq, hblank]
  simp

theorem NotBlank.append_right {x : List Char} (y : List Char) (h : NotBlank x) : NotBlank (x ++ y) := by
  obtain ⟨c, hc, hwhite⟩ := notBlank_iff.mp h
  exact notBlank_iff.mpr ⟨c, List.mem_append_left y hc, hwhite⟩

theorem NotBlank.append_left (x : List Char) {y : List Char} (h : NotBlank y) : NotBlank (x ++ y) := by
  obtain ⟨c, hc, hwhite⟩ := notBlank_iff.mp h
  exact notBlank_iff.mpr ⟨c, List.mem_append_right x hc, hwhite⟩

theorem not_notBlank_nil : ¬ NotBlank [] := by
  rw [notBlank_iff]
  simp

/-- `validate` asks for a registered scope, as many keys as it has, and a value for each of these. -/
theorem validate_ok_iff (hnames : registry.effective_keys depth scope_code = some names) :
    validate registry depth scope_code keys = .ok () ↔
      (registry.get scope_code).isSome = true ∧ names.length = keys.length ∧
        ∀ n ∈ names, NotBlank (keys.value n).toList := by
  unfold validate
  rw [hnames]
  cases registry.get scope_code with
  | none => simp
  | some r =>
    dsimp only
    by_cases hlength : names.length = keys.length
    · rw [if_neg (not_not_intro hlength)]
      have hvalue : ∀ n, ((keys.get n).all fun v => Spe.trim v.toList = []) = true ↔
          ¬ NotBlank (keys.value n).toList := by
        intro n
        unfold KeyMap.value NotBlank
        cases keys.get n with
        | none => simp [Spe.trim]
        | some v => simp
      cases hfind : names.find? fun name => (keys.get name).all fun v => Spe.trim v.toList = [] with
      | none =>
        have hall := List.find?_eq_none.mp hfind
        simp only [hvalue, not_not] at hall
        exact ⟨fun _ => ⟨rfl, hlength, hall⟩, fun _ => rfl⟩
      | some name =>
        have hbad := List.find?_some hfind
        rw [hvalue] at hbad
        have hmem := List.mem_of_find?_eq_some hfind
        simp only [reduceCtorEq, false_iff, not_and]
        exact fun _ _ hall => hbad (hall name hmem)
    · rw [if_pos hlength]
      simp [hlength]

/-! ## The text of a key map -/

theorem toList_grant_text (first : String) (rest : List String) (keys : KeyMap) :
    (grant_text (first :: rest) keys).toList =
      first.toList ++ '=' :: ((keys.value first).toList ++ marked (keys.fields rest)) := by
  have hjoin : ("|".intercalate ((first :: rest).map fun n => n ++ "=" ++ keys.value n)).toList =
      (first ++ "=" ++ keys.value first).toList ++ marked (keys.fields rest) := by
    induction rest generalizing first with
    | nil => simp [marked, KeyMap.fields]
    | cons next rest ih =>
      have hfields : keys.fields (next :: rest) =
          ('|' :: (next.toList ++ ['=']), (keys.value next).toList) :: keys.fields rest := rfl
      have hnext := ih next
      rw [List.map_cons] at hnext
      rw [List.map_cons, List.map_cons, String.intercalate_cons_cons, String.toList_append, hnext,
        hfields, marked_cons]
      simp
  rw [grant_text, hjoin]
  simp

/-- Texts of the same names are equal when what follows the first name is. -/
theorem grant_text_eq_iff {first : String} {rest : List String} :
    grant_text (first :: rest) keys = grant_text (first :: rest) keys' ↔
      (keys.value first).toList ++ marked (keys.fields rest) =
        (keys'.value first).toList ++ marked (keys'.fields rest) := by
  rw [← String.toList_inj, toList_grant_text, toList_grant_text, List.append_cancel_left_eq,
    List.cons.injEq, and_iff_right rfl]

/-- The same marks with other values. -/
theorem fields_marks (names : List String) :
    (keys.fields names).map (·.1) = (keys'.fields names).map (·.1) := by
  simp [KeyMap.fields]

theorem fields_eq_iff : keys.fields names = keys'.fields names ↔
    ∀ n ∈ names, keys.value n = keys'.value n := by
  simp [KeyMap.fields, String.toList_inj]

/-- **Key maps that are told apart** have the values that their text tells. -/
theorem values_of_grant_text (htold : keys.ToldApart names)
    (hblank : ∀ n ∈ names, NotBlank (keys.value n).toList)
    (hblank' : ∀ n ∈ names, NotBlank (keys'.value n).toList)
    (h : grant_text names keys = grant_text names keys') : ∀ n ∈ names, keys.value n = keys'.value n := by
  cases names with
  | nil => exact fun n hn => absurd hn List.not_mem_nil
  | cons first rest =>
    obtain ⟨hfirst, hrest⟩ := List.forall_mem_cons.mp hblank
    obtain ⟨hfirst', hrest'⟩ := List.forall_mem_cons.mp hblank'
    have hfields : ∀ keys : KeyMap, (∀ n ∈ rest, NotBlank (keys.value n).toList) →
        ∀ p ∈ keys.fields rest, NotBlank p.2 := by
      intro keys hkeys p hp
      obtain ⟨n, hn, rfl⟩ := List.mem_map.mp hp
      exact hkeys n hn
    obtain ⟨hvalue, hvalues⟩ := htold.unique (fun x y hx => hx.append_right y)
      (fun x y hy => hy.append_left x) hfirst (hfields keys hrest) hfirst' (hfields keys' hrest')
      (fields_marks rest) (grant_text_eq_iff.mp h)
    exact List.forall_mem_cons.mpr ⟨String.toList_inj.mp hvalue, fields_eq_iff.mp hvalues⟩

/-! ## Other values for the same keys -/

/-- The map with other values. -/
def KeyMap.revalue (keys : KeyMap) (f : String → String) : KeyMap := keys.map fun e => (e.1, f e.1)

theorem KeyMap.get_revalue (keys : KeyMap) (f : String → String) (name : String) :
    (keys.revalue f).get name = (keys.get name).map fun _ => f name := by
  unfold KeyMap.revalue KeyMap.get
  rw [List.find?_map, Option.map_map, Option.map_map]
  cases hfind : keys.find? ((fun e => decide (e.1 = name)) ∘ fun e => (e.1, f e.1)) with
  | none =>
    have hnone : keys.find? (fun e => decide (e.1 = name)) = none := hfind
    rw [hnone]
    rfl
  | some e =>
    have hsome : keys.find? (fun e => decide (e.1 = name)) = some e := hfind
    have hkey : e.1 = name := by simpa using List.find?_some hsome
    rw [hsome]
    simp [hkey]

theorem KeyMap.Sorted.revalue (h : keys.Sorted) (f : String → String) : (keys.revalue f).Sorted := by
  rw [KeyMap.Sorted, KeyMap.revalue, List.map_map]
  exact h

/-- Any values can be given to names that are distinct. -/
theorem exists_map_eq {β : Type} (hdistinct : names.Nodup) (default : β) {values : List β}
    (hlength : names.length = values.length) : ∃ f : String → β, names.map f = values := by
  induction names generalizing values with
  | nil => exact ⟨fun _ => default, (List.eq_nil_of_length_eq_zero hlength.symm).symm⟩
  | cons n names ih =>
    cases values with
    | nil => cases hlength
    | cons v values =>
      rw [List.nodup_cons] at hdistinct
      obtain ⟨f, hf⟩ := ih hdistinct.2 (Nat.succ.inj hlength)
      refine ⟨Function.update f n v, ?_⟩
      rw [List.map_cons, Function.update_self, ← hf]
      refine congrArg (v :: ·) (List.map_congr_left fun m hm => ?_)
      have hne : m ≠ n := by
        rintro rfl
        exact hdistinct.1 hm
      exact Function.update_of_ne hne v f

/-- Marks with values are their marks and their values. -/
theorem fields_of_marks {fields : List (List Char × List Char)} {f : String → String}
    (hmarks : (keys.fields names).map (·.1) = fields.map (·.1))
    (hvalues : names.map f = fields.map fun p => String.ofList p.2) :
    (names.map fun n => ('|' :: (n.toList ++ ['=']), (f n).toList)) = fields := by
  induction names generalizing fields with
  | nil => exact (List.map_eq_nil_iff.mp hvalues.symm).symm
  | cons n names ih =>
    cases fields with
    | nil => cases hvalues
    | cons p fields =>
      obtain ⟨hmark, hmarks'⟩ := List.cons.inj hmarks
      obtain ⟨hvalue, hvalues'⟩ := List.cons.inj hvalues
      rw [List.map_cons, ih hmarks' hvalues', hvalue, String.toList_ofList]
      exact congrArg (· :: fields) (Prod.ext hmark rfl)

/-! ## Maps with the keys of a scope -/

theorem KeyMap.Sorted.nodup (h : keys.Sorted) : (keys.map (·.1)).Nodup := by
  refine List.Pairwise.imp ?_ h
  rintro a b hlt rfl
  exact String.lt_irrefl a hlt

theorem KeyMap.Sorted.get_of_mem (h : keys.Sorted) {e : String × String} (he : e ∈ keys) :
    keys.get e.1 = some e.2 := by
  unfold KeyMap.get
  cases hfind : keys.find? fun e' => e'.1 = e.1 with
  | none => simpa using List.find?_eq_none.mp hfind e he
  | some e' =>
    have hkey : e'.1 = e.1 := by simpa using List.find?_some hfind
    rw [List.inj_on_of_nodup_map h.nodup (List.mem_of_find?_eq_some hfind) he hkey]
    rfl

/-- A map is its keys with their values. -/
theorem KeyMap.Sorted.map_value (h : keys.Sorted) :
    (keys.map (·.1)).map (fun n => (n, keys.value n)) = keys := by
  rw [List.map_map]
  conv_rhs => rw [← List.map_id keys]
  refine List.map_congr_left fun e he => ?_
  simp [KeyMap.value, h.get_of_mem he]

/-- Maps with the same keys and the same values are equal. -/
theorem KeyMap.Sorted.eq_of_values (h : keys.Sorted) (h' : keys'.Sorted)
    (hkeys : (keys.map (·.1)).Perm names) (hkeys' : (keys'.map (·.1)).Perm names)
    (hvalues : ∀ n ∈ names, keys.value n = keys'.value n) : keys = keys' := by
  have hsame : keys.map (·.1) = keys'.map (·.1) :=
    (hkeys.trans hkeys'.symm).eq_of_pairwise
      (fun a b _ _ hab hba => absurd (String.lt_trans hab hba) (String.lt_irrefl a)) h h'
  rw [← h.map_value, ← h'.map_value, ← hsame]
  exact List.map_congr_left fun n hn => by rw [hvalues n (hkeys.mem_iff.mp hn)]

/-- The values for the names of a scope, given anew. -/
theorem KeyMap.value_revalue {f : String → String} {n : String} (hn : NotBlank (keys.value n).toList) :
    (keys.revalue f).value n = f n := by
  unfold KeyMap.value at hn ⊢
  rw [KeyMap.get_revalue]
  cases hget : keys.get n with
  | none =>
    rw [hget] at hn
    exact absurd hn not_notBlank_nil
  | some v => rfl

/-! ## When the text tells a grant -/

/-- The text of a map tells it from every other map that `validate` accepts. -/
def KeyMap.ToldByText (registry : Records) (depth : Nat) (scope_code : String) (names : List String)
    (keys : KeyMap) : Prop :=
  ∀ keys' : KeyMap, keys'.Sorted → validate registry depth scope_code keys' = .ok () →
    (grant_text names keys = grant_text names keys' ↔ keys = keys')

section Told

variable (hnames : registry.effective_keys depth scope_code = some names) (hsorted : keys.Sorted)
  (hvalid : validate registry depth scope_code keys = .ok ())

include hnames hsorted hvalid

/-- A scope with a key twice has a key of the map that is in no text. -/
theorem KeyMap.ToldByText.nodup (h : keys.ToldByText registry depth scope_code names) : names.Nodup := by
  obtain ⟨hscope, hlength, hblank⟩ := (validate_ok_iff hnames).mp hvalid
  by_contra hdup
  obtain ⟨e, he, hnot⟩ : ∃ e ∈ keys, e.1 ∉ names := by
    by_contra hall
    push Not at hall
    have hsub : keys.map (·.1) ⊆ names := by
      intro n hn
      obtain ⟨e, he, rfl⟩ := List.mem_map.mp hn
      exact hall e he
    have hperm := (hsorted.nodup.subperm hsub).perm_of_length_le (by rw [List.length_map, hlength])
    exact hdup (hperm.nodup_iff.mp hsorted.nodup)
  let f := fun n => if n = e.1 then keys.value n ++ "x" else keys.value n
  have hvalue : ∀ n ∈ names, (keys.revalue f).value n = keys.value n := by
    intro n hn
    rw [KeyMap.value_revalue (hblank n hn)]
    refine if_neg ?_
    rintro rfl
    exact hnot hn
  have hvalid' : validate registry depth scope_code (keys.revalue f) = .ok () := by
    refine (validate_ok_iff hnames).mpr ⟨hscope, ?_, fun n hn => ?_⟩
    · rw [KeyMap.revalue, List.length_map, hlength]
    · rw [hvalue n hn]
      exact hblank n hn
  have htext : grant_text names keys = grant_text names (keys.revalue f) := by
    unfold grant_text
    congr 1
    exact List.map_congr_left fun n hn => by rw [hvalue n hn]
  have hsame := (h _ (hsorted.revalue f) hvalid').mp htext
  -- the maps differ at the key that is in no text
  have hold : keys.value e.1 = e.2 := by
    rw [KeyMap.value, hsorted.get_of_mem he]
    rfl
  have hnew : f e.1 = e.2 ++ "x" := by
    rw [← hold]
    exact if_pos rfl
  have hget : keys.get e.1 = (keys.revalue f).get e.1 := by rw [← hsame]
  rw [KeyMap.get_revalue, hsorted.get_of_mem he, Option.map_some, hnew] at hget
  have hlonger := congrArg String.length (Option.some.inj hget)
  rw [String.length_append] at hlonger
  have hone : "x".length = 1 := rfl
  omega

/-- Neighbours that can be cut anew give another map with the same text. -/
theorem KeyMap.ToldByText.toldApart (h : keys.ToldByText registry depth scope_code names) :
    keys.ToldApart names := by
  obtain ⟨hscope, hlength, hblank⟩ := (validate_ok_iff hnames).mp hvalid
  have hdistinct := h.nodup hnames hsorted hvalid
  cases names with
  | nil => trivial
  | cons first rest =>
    -- a text with another reading: its pieces are the values of another map
    by_contra htold
    obtain ⟨hfirst, hrest⟩ := List.forall_mem_cons.mp hblank
    have hfields : ∀ p ∈ keys.fields rest, NotBlank p.2 := by
      intro p hp
      obtain ⟨n, hn, rfl⟩ := List.mem_map.mp hp
      exact hrest n hn
    obtain ⟨v', rest', hv', hrest', hmarks, htext, hne⟩ := exists_of_not_noOtherCut hfirst hfields htold
    have hlengths : rest.length = rest'.length := by
      simpa [KeyMap.fields] using congrArg List.length hmarks
    -- keys are distinct, so each gets its own new value
    obtain ⟨f, hf⟩ : ∃ f : String → String,
        (first :: rest).map f = String.ofList v' :: rest'.map fun p => String.ofList p.2 :=
      exists_map_eq hdistinct "" (by simp [hlengths])
    obtain ⟨hffirst, hfrest⟩ := List.cons.inj hf
    have hvalue : ∀ n ∈ first :: rest, (keys.revalue f).value n = f n :=
      fun n hn => KeyMap.value_revalue (hblank n hn)
    have hnewfirst : ((keys.revalue f).value first).toList = v' := by
      rw [hvalue first List.mem_cons_self, hffirst, String.toList_ofList]
    have hnewrest : (keys.revalue f).fields rest = rest' := by
      rw [← fields_of_marks hmarks hfrest, KeyMap.fields]
      exact List.map_congr_left fun n hn => by rw [hvalue n (List.mem_cons_of_mem _ hn)]
    have hvalid' : validate registry depth scope_code (keys.revalue f) = .ok () := by
      refine (validate_ok_iff hnames).mpr ⟨hscope, ?_, List.forall_mem_cons.mpr ⟨?_, fun n hn => ?_⟩⟩
      · rw [hlength, KeyMap.revalue, List.length_map]
      · rw [hnewfirst]
        exact hv'
      · have hmem : ('|' :: (n.toList ++ ['=']), ((keys.revalue f).value n).toList) ∈ rest' := by
          rw [← hnewrest]
          exact List.mem_map_of_mem hn
        exact hrest' _ hmem
    have hsame := (h _ (hsorted.revalue f) hvalid').mp (grant_text_eq_iff.mpr (by
      rw [hnewfirst, hnewrest, htext]))
    rw [← hsame] at hnewfirst hnewrest
    exact hne ⟨hnewfirst, hnewrest⟩

/-- **A grant is told by its text exactly when** its scope has no key twice and no two neighbouring
values can be cut anew. -/
theorem KeyMap.toldByText_iff : keys.ToldByText registry depth scope_code names ↔
    names.Nodup ∧ keys.ToldApart names := by
  refine ⟨fun h => ⟨h.nodup hnames hsorted hvalid, h.toldApart hnames hsorted hvalid⟩, ?_⟩
  rintro ⟨hdistinct, htold⟩ keys' hsorted' hvalid'
  obtain ⟨-, -, hblank⟩ := (validate_ok_iff hnames).mp hvalid
  obtain ⟨-, -, hblank'⟩ := (validate_ok_iff hnames).mp hvalid'
  have hkeys : ∀ {keys : KeyMap}, validate registry depth scope_code keys = .ok () →
      (keys.map (·.1)).Perm names := by
    intro keys hkeys
    obtain ⟨names', hnames', hperm⟩ := perm_of_validate hkeys fun names' hnames' =>
      Option.some.inj (hnames.symm.trans hnames') ▸ hdistinct
    rwa [Option.some.inj (hnames.symm.trans hnames')]
  constructor
  · intro htext
    exact hsorted.eq_of_values hsorted' (hkeys hvalid) (hkeys hvalid')
      (values_of_grant_text htold hblank hblank' htext)
  · rintro rfl
    rfl

end Told

/-! ## The operations -/

/-- The same request for another space. -/
def GrantRequest.in_space (r : GrantRequest) (space : String) : GrantRequest :=
  { r with project_space_id := space }

/-- The stored grants of the scope have the fingerprint that the mirror gives them now. -/
def GrantStore.Admitted (sha256 : String → String) (depth : Nat) (s : GrantStore) (scope_code : String) :
    Prop :=
  ∀ g ∈ s.grants, g.scope_code = scope_code →
    g.keys.Sorted ∧ admission sha256 s.registry depth g.request = some g.keys_fingerprint

/-- The operations on grants touch what the request names and nothing else: `add_grant` is skipped
only for the grant that is there already, `remove_grant` takes out that grant, and the operations for
all spaces do so in each of them. -/
def OperationsExact (sha256 : String → String) (registry : Records) (depth : Nat) (r : GrantRequest) :
    Prop :=
  ∀ s : GrantStore, s.registry = registry → s.Admitted sha256 depth r.scope_code →
    (∀ fails, (∃ g ∈ s.grants, g.request = r) → s.add_grant sha256 depth r fails = (s, true)) ∧
    ((∀ g ∈ s.grants, g.request ≠ r) → ∃ row : Grant, row.request = r ∧
      s.add_grant sha256 depth r none =
        ({ s with grants := s.grants ++ [row], nextId := s.nextId + 1 }, true)) ∧
    s.remove_grant sha256 depth r = { s with grants := s.grants.filter fun g => g.request ≠ r } ∧
    (∀ spaces : List String, spaces.Nodup → ∃ rows : List Grant,
      rows.map (·.request) = (spaces.filter fun space =>
        ∀ g ∈ s.grants, g.request ≠ r.in_space space).map r.in_space ∧
      GrantStore.add_grant_all_spaces sha256 depth r s (spaces.map fun space => (space, none)) =
        { s with grants := s.grants ++ rows, nextId := s.nextId + rows.length }) ∧
    ∀ spaces : List String, s.remove_grant_all_spaces sha256 depth r spaces =
      { s with grants := s.grants.filter fun g => ∀ space ∈ spaces, g.request ≠ r.in_space space }

section Operations

variable {r : GrantRequest} {fingerprint : String} {s : GrantStore}

/-- A fingerprint is a digest of the text, or stands for the one empty map. -/
theorem compute_fingerprint_eq_iff (hinj : Function.Injective sha256)
    (hnames : registry.effective_keys depth scope_code = some names) :
    compute_fingerprint sha256 registry depth scope_code keys =
        compute_fingerprint sha256 registry depth scope_code keys' ↔
      grant_text names keys = grant_text names keys' := by
  unfold compute_fingerprint
  rw [hnames, Option.map_some, Option.map_some, Option.some_inj]
  by_cases hnil : names = []
  · rw [if_pos hnil, if_pos hnil, hnil]
    exact iff_of_true rfl rfl
  · rw [if_neg hnil, if_neg hnil]
    exact hinj.eq_iff

/-- **A row matches the request** exactly when it is the grant that the request names. -/
theorem matches_iff (hinj : Function.Injective sha256)
    (hnames : s.registry.effective_keys depth r.scope_code = some names)
    (hadmission : admission sha256 s.registry depth r = some fingerprint)
    (htold : r.keys.ToldByText s.registry depth r.scope_code names)
    (hadmitted : s.Admitted sha256 depth r.scope_code) {g : Grant} (hg : g ∈ s.grants) :
    g.matches r fingerprint = true ↔ g.request = r := by
  obtain ⟨-, hfingerprint⟩ := admission_eq_some hadmission
  rw [Grant.matches, decide_eq_true_eq]
  constructor
  · rintro ⟨hpermission, hscope, hrole, hspace, hkeys⟩
    obtain ⟨hsorted, hrow⟩ := hadmitted g hg hscope
    obtain ⟨hvalid, hrowprint⟩ := admission_eq_some hrow
    have hrequest : g.request.scope_code = r.scope_code := hscope
    rw [hrequest] at hvalid hrowprint
    have htext := (compute_fingerprint_eq_iff hinj hnames).mp
      (hfingerprint.trans (hkeys ▸ hrowprint.symm))
    have hmaps := (htold g.keys hsorted hvalid).mp htext
    unfold Grant.request
    rw [hpermission, hscope, hrole, hspace, ← hmaps]
  · rintro rfl
    obtain ⟨-, hrow⟩ := hadmitted g hg rfl
    exact ⟨rfl, rfl, rfl, rfl, Option.some.inj (hrow.symm.trans hadmission)⟩

/-- The grant that a request adds. -/
def GrantRequest.grant (r : GrantRequest) (id : Nat) (fingerprint : String) : Grant :=
  { r.row id fingerprint with keys := r.keys }

variable (hinj : Function.Injective sha256)
  (hnames : s.registry.effective_keys depth r.scope_code = some names)
  (hadmission : admission sha256 s.registry depth r = some fingerprint)
  (htold : r.keys.ToldByText s.registry depth r.scope_code names)
  (hadmitted : s.Admitted sha256 depth r.scope_code)

include hinj hnames hadmission htold hadmitted

theorem add_grant_eq (fails : Option Nat) :
    ((∃ g ∈ s.grants, g.request = r) → s.add_grant sha256 depth r fails = (s, true)) ∧
      ((∀ g ∈ s.grants, g.request ≠ r) → s.add_grant sha256 depth r none =
        ({ s with grants := s.grants ++ [r.grant s.nextId fingerprint], nextId := s.nextId + 1 },
          true)) := by
  have hmatches := fun g hg => matches_iff hinj hnames hadmission htold hadmitted (g := g) hg
  unfold GrantStore.add_grant
  rw [hadmission]
  dsimp only
  constructor
  · rintro ⟨g, hg, hrequest⟩
    rw [if_pos (List.any_eq_true.mpr ⟨g, hg, (hmatches g hg).mpr hrequest⟩)]
  · intro hnone
    rw [if_neg]
    · rfl
    · intro hany
      obtain ⟨g, hg, hmatch⟩ := List.any_eq_true.mp hany
      exact hnone g hg ((hmatches g hg).mp hmatch)

theorem remove_grant_eq : s.remove_grant sha256 depth r =
    { s with grants := s.grants.filter fun g => g.request ≠ r } := by
  unfold GrantStore.remove_grant
  rw [hadmission]
  dsimp only
  congr 1
  refine List.filter_congr fun g hg => ?_
  have hmatch := matches_iff hinj hnames hadmission htold hadmitted hg
  by_cases hrequest : g.request = r
  · simp [hrequest, hmatch.mpr hrequest]
  · simp [hrequest, Bool.eq_false_iff.mpr fun h => hrequest (hmatch.mp h)]

omit hinj hnames hadmission htold in
/-- The new grant is one that the mirror admits. -/
theorem admitted_append (hnew : admission sha256 s.registry depth r = some fingerprint)
    (hsorted : r.keys.Sorted) (space : String) (id next : Nat) :
    GrantStore.Admitted sha256 depth { s with
      grants := s.grants ++ [(r.in_space space).grant id fingerprint]
      nextId := next } r.scope_code := by
  intro g hg hscope
  obtain hg | hg := List.mem_append.mp hg
  · exact hadmitted g hg hscope
  · rw [List.mem_singleton.mp hg]
    exact ⟨hsorted, hnew⟩

/-- The loop that adds the grant in every space skips those that have it. -/
theorem add_grant_all_spaces_eq (hsorted : r.keys.Sorted) {spaces : List String}
    (hdistinct : spaces.Nodup) : ∃ rows : List Grant,
      rows.map (·.request) = (spaces.filter fun space =>
        ∀ g ∈ s.grants, g.request ≠ r.in_space space).map r.in_space ∧
      GrantStore.add_grant_all_spaces sha256 depth r s (spaces.map fun space => (space, none)) =
        { s with grants := s.grants ++ rows, nextId := s.nextId + rows.length } := by
  induction spaces generalizing s with
  | nil => exact ⟨[], rfl, by simp [GrantStore.add_grant_all_spaces]⟩
  | cons space spaces ih =>
    rw [List.nodup_cons] at hdistinct
    have hadd := add_grant_eq (r := r.in_space space) hinj hnames hadmission htold hadmitted none
    have hstep : ∀ s', s.add_grant sha256 depth (r.in_space space) none = (s', true) →
        GrantStore.add_grant_all_spaces sha256 depth r s
            ((space :: spaces).map fun space => (space, none)) =
          GrantStore.add_grant_all_spaces sha256 depth r s' (spaces.map fun space => (space, none)) := by
      intro s' hs'
      have hrequest : ({ r with project_space_id := space } : GrantRequest) = r.in_space space := rfl
      rw [List.map_cons, GrantStore.add_grant_all_spaces, hrequest, hs']
    by_cases hthere : ∃ g ∈ s.grants, g.request = r.in_space space
    · obtain ⟨rows, hrows, hall⟩ := ih hnames hadmission htold hadmitted hdistinct.2
      refine ⟨rows, ?_, (hstep s (hadd.1 hthere)).trans hall⟩
      obtain ⟨g, hg, hrequest⟩ := hthere
      rw [hrows, List.filter_cons_of_neg]
      simpa using ⟨g, hg, hrequest⟩
    · push Not at hthere
      obtain ⟨s', hs', hregistry⟩ : ∃ s' : GrantStore, s' =
          { s with grants := s.grants ++ [(r.in_space space).grant s.nextId fingerprint]
                   nextId := s.nextId + 1 } ∧ s'.registry = s.registry := ⟨_, rfl, rfl⟩
      have hadmitted' : s'.Admitted sha256 depth r.scope_code :=
        hs' ▸ admitted_append hadmitted hadmission hsorted space s.nextId (s.nextId + 1)
      rw [← hregistry] at hnames hadmission htold
      obtain ⟨rows, hrows, hall⟩ := ih hnames hadmission htold hadmitted' hdistinct.2
      refine ⟨(r.in_space space).grant s.nextId fingerprint :: rows, ?_, ?_⟩
      · have hfilter : (spaces.filter fun other => ∀ g ∈ s'.grants, g.request ≠ r.in_space other) =
            spaces.filter fun other => ∀ g ∈ s.grants, g.request ≠ r.in_space other := by
          refine List.filter_congr fun other hother => ?_
          -- the new grant is for another space
          have hne : ((r.in_space space).grant s.nextId fingerprint).request ≠ r.in_space other := by
            intro heq
            have hspace : space = other := congrArg GrantRequest.project_space_id heq
            exact hdistinct.1 (hspace ▸ hother)
          simp [hs', List.mem_append, or_imp, forall_and, hne]
        rw [List.map_cons, hrows, hfilter, List.filter_cons_of_pos (by simpa using hthere),
          List.map_cons]
        rfl
      · rw [hstep s' (hs' ▸ hadd.2 hthere), hall, hs']
        simp only [List.append_assoc, List.singleton_append, List.length_cons, GrantStore.mk.injEq,
          true_and]
        omega

/-- The loop that removes the grant from every space. -/
theorem remove_grant_all_spaces_eq (spaces : List String) :
    s.remove_grant_all_spaces sha256 depth r spaces =
      { s with grants := s.grants.filter fun g => ∀ space ∈ spaces, g.request ≠ r.in_space space } := by
  induction spaces generalizing s with
  | nil => simp [GrantStore.remove_grant_all_spaces]
  | cons space spaces ih =>
    have hremove := remove_grant_eq (r := r.in_space space) hinj hnames hadmission htold hadmitted
    obtain ⟨s', hs', hregistry⟩ : ∃ s' : GrantStore,
        s' = { s with grants := s.grants.filter fun g => g.request ≠ r.in_space space } ∧
          s'.registry = s.registry := ⟨_, rfl, rfl⟩
    have hfewer : s'.Admitted sha256 depth r.scope_code := by
      rw [hs']
      exact fun g hg => hadmitted g (List.mem_of_mem_filter hg)
    rw [← hregistry] at hnames hadmission htold
    have hstep : s.remove_grant_all_spaces sha256 depth r (space :: spaces) =
        (s.remove_grant sha256 depth (r.in_space space)).remove_grant_all_spaces sha256 depth r spaces :=
      rfl
    rw [hstep, hremove, ← hs', ih hnames hadmission htold hfewer, hs']
    dsimp only
    rw [List.filter_filter]
    congr 1
    refine List.filter_congr fun g _ => ?_
    simp [Bool.and_comm]

end Operations

/-- **Grants that are told by their text** are added and removed one by one. -/
theorem operationsExact_of_told {r : GrantRequest} {fingerprint : String}
    (hinj : Function.Injective sha256)
    (hnames : registry.effective_keys depth r.scope_code = some names)
    (hsorted : r.keys.Sorted) (hadmission : admission sha256 registry depth r = some fingerprint)
    (htold : r.keys.ToldByText registry depth r.scope_code names) :
    OperationsExact sha256 registry depth r := by
  rintro s rfl hadmitted
  have hadd := add_grant_eq hinj hnames hadmission htold hadmitted
  refine ⟨fun fails => (hadd fails).1, fun hnone => ⟨_, rfl, (hadd none).2 hnone⟩,
    remove_grant_eq hinj hnames hadmission htold hadmitted, fun spaces hdistinct => ?_, fun spaces => ?_⟩
  · exact add_grant_all_spaces_eq hinj hnames hadmission htold hadmitted hsorted hdistinct
  · exact remove_grant_all_spaces_eq hinj hnames hadmission htold hadmitted spaces

/-- **When the fingerprint identifies a grant.** For a request that `validate` accepts: the text of
its keys is that of no other accepted map, and the operations touch the requested grant and no other,
exactly when the scope has no key twice and no two neighbouring values can be cut anew. -/
theorem grant_text_identifies (hinj : Function.Injective sha256) {r : GrantRequest}
    (hsorted : r.keys.Sorted) (hvalid : validate registry depth r.scope_code r.keys = .ok ()) :
    ∃ names, registry.effective_keys depth r.scope_code = some names ∧
      ((r.keys.ToldByText registry depth r.scope_code names ∧
          OperationsExact sha256 registry depth r) ↔
        names.Nodup ∧ r.keys.ToldApart names) := by
  obtain ⟨names, hnames⟩ : ∃ names, registry.effective_keys depth r.scope_code = some names := by
    unfold validate at hvalid
    cases hget : registry.get r.scope_code with
    | none =>
      rw [hget] at hvalid
      cases hvalid
    | some record =>
      rw [hget] at hvalid
      cases hkeys : registry.effective_keys depth r.scope_code with
      | none =>
        rw [hkeys] at hvalid
        cases hvalid
      | some names => exact ⟨names, rfl⟩
  obtain ⟨fingerprint, hadmission⟩ : ∃ fingerprint,
      admission sha256 registry depth r = some fingerprint := by
    rw [admission, hvalid, compute_fingerprint, hnames]
    exact ⟨_, rfl⟩
  refine ⟨names, hnames, ?_⟩
  rw [← KeyMap.toldByText_iff hnames hsorted hvalid, and_iff_left_iff_imp]
  exact operationsExact_of_told hinj hnames hsorted hadmission

/-- Keys and values without bars are told apart. -/
theorem toldApart_of_no_bar (hnames : ∀ n ∈ names, '|' ∉ n.toList)
    (hvalues : ∀ n ∈ names, '|' ∉ (keys.value n).toList) : keys.ToldApart names := by
  have hcut : ∀ n m : String, '|' ∉ (keys.value n).toList → '|' ∉ m.toList →
      '|' ∉ (keys.value m).toList → ∀ a b : List Char,
        (keys.value n).toList ++ ('|' :: (m.toList ++ ['=']) ++ (keys.value m).toList) =
          a ++ ('|' :: (m.toList ++ ['=']) ++ b) → a = (keys.value n).toList := by
    intro n m hn hm hvalue a b h
    have hmark : ∀ t : List Char, '|' :: (m.toList ++ ['=']) ++ t = '|' :: ((m.toList ++ ['=']) ++ t) :=
      fun _ => rfl
    have hname : '|' ∉ m.toList ++ ['='] := by simpa using hm
    rw [hmark, hmark, append_mark_eq_iff hname] at h
    obtain ⟨hsame, -⟩ | ⟨x, -, hw⟩ | ⟨x, hv, -⟩ := h
    · exact hsame.symm
    · exact absurd (hw ▸ List.mem_append_right x List.mem_cons_self) hvalue
    · exact absurd (hv ▸ List.mem_append_right a List.mem_cons_self) hn
  cases names with
  | nil => trivial
  | cons first rest =>
    unfold KeyMap.ToldApart
    induction rest generalizing first with
    | nil => trivial
    | cons next rest ih =>
      obtain ⟨hfirst, hrest⟩ := List.forall_mem_cons.mp hvalues
      obtain ⟨-, hnames'⟩ := List.forall_mem_cons.mp hnames
      refine ⟨fun a b _ _ => hcut first next hfirst (hnames' next List.mem_cons_self)
        (hrest next List.mem_cons_self) a b, ih next hnames' hrest⟩

section Example

/-- NODE has the keys nodeType and site. -/
def siteScopes : Records := [⟨"NODE", none, "parent=\nkeys=nodeType,site", "psa", ["nodeType", "site"]⟩]

def readPartOfLyon : GrantRequest :=
  ⟨"READ_NODE", "NODE", "designer", "ps1", [("nodeType", "part"), ("site", "Lyon")]⟩

/-- A bar in the first value, and one in the second, where they read the same. -/
def barInType : GrantRequest :=
  { readPartOfLyon with keys := [("nodeType", "part|site=Lyon"), ("site", "B")] }

def barInSite : GrantRequest :=
  { readPartOfLyon with keys := [("nodeType", "part"), ("site", "Lyon|site=B")] }

theorem grant_text_identifies_part_of_Lyon : OperationsExact id siteScopes 5 readPartOfLyon := by
  have hsorted : readPartOfLyon.keys.Sorted := by
    unfold KeyMap.Sorted
    decide
  obtain ⟨names, hnames, htold⟩ :=
    @grant_text_identifies id siteScopes 5 Function.injective_id readPartOfLyon hsorted (by decide)
  cases hnames
  exact (htold.mpr ⟨by decide, toldApart_of_no_bar (by decide) (by decide)⟩).2

def withBarInType : GrantStore :=
  (GrantStore.add_grant id 5 ⟨siteScopes, siteScopes, [], 0⟩ barInType none).1

/-- Two requests that `validate` accepts have one text: the second is skipped as if it were there, and
its removal takes the first. -/
theorem grant_text_of_bars :
    validate siteScopes 5 "NODE" barInType.keys = .ok () ∧
      validate siteScopes 5 "NODE" barInSite.keys = .ok () ∧ barInType.keys ≠ barInSite.keys ∧
      grant_text ["nodeType", "site"] barInType.keys = grant_text ["nodeType", "site"] barInSite.keys ∧
      withBarInType.add_grant id 5 barInSite none = (withBarInType, true) ∧
      (withBarInType.remove_grant id 5 barInSite).grants = [] := by
  decide

end Example

end PlmCore.Pno
