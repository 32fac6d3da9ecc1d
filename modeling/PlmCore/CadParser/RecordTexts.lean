/-
What the texts of records hold: the references in them, and the records that `buildTypeIndex` finds.

An argument that `splitArgs` returns stands in the text between characters that are no digits, so a reference in
an argument is one in the text. A match of the expression for records ends at the first semicolon, so the
records of texts that each end with one are those of the texts in turn.
-/
import PlmCore.CadParser.NauoMatrix

set_option autoImplicit false

namespace PlmCore.CadParser

open PlmCore.Lib

/-! ## References -/

/-- A reference is the digits behind a `#`. -/
theorem mem_references {r : Id} {cs : Text} : r ∈ references cs ↔
    ∃ before rest, cs = before ++ '#' :: rest ∧ r = rest.takeWhile Char.isDigit ∧ r ≠ [] := by
  induction cs with
  | nil =>
    refine ⟨fun h => absurd h List.not_mem_nil, ?_⟩
    rintro ⟨before, rest, h, -⟩
    exact absurd h (by simp)
  | cons c cs ih =>
    have htail : r ∈ references cs → ∃ before rest, c :: cs = before ++ '#' :: rest ∧
        r = rest.takeWhile Char.isDigit ∧ r ≠ [] := by
      intro h
      obtain ⟨before, rest, rfl, hr, hne⟩ := ih.mp h
      exact ⟨c :: before, rest, rfl, hr, hne⟩
    constructor
    · intro h
      rw [references] at h
      split at h
      case isTrue hhead =>
        obtain rfl | h := List.mem_cons.mp h
        · exact ⟨[], cs, by rw [hhead.1]; rfl, rfl, hhead.2⟩
        · exact htail h
      case isFalse => exact htail h
    · rintro ⟨before, rest, heq, rfl, hne⟩
      rw [references]
      cases before with
      | nil =>
        obtain ⟨rfl, rfl⟩ := List.cons.inj heq
        rw [if_pos ⟨rfl, hne⟩]
        exact List.mem_cons_self
      | cons d before =>
        obtain ⟨rfl, rfl⟩ := List.cons.inj heq
        have hmem := ih.mpr ⟨before, rest, rfl, rfl, hne⟩
        split
        · exact List.mem_cons_of_mem _ hmem
        · exact hmem

/-- A text stands in another one, and what follows it there is no digit. -/
def Inside (s t : Text) : Prop := ∃ before after, t = before ++ (s ++ after) ∧ ∀ c ∈ after.head?, c.isDigit = false

theorem Inside.refl (s : Text) : Inside s s := ⟨[], [], by simp, by simp⟩

theorem Inside.trans {s t u : Text} (h : Inside s t) (h' : Inside t u) : Inside s u := by
  obtain ⟨before, after, rfl, hafter⟩ := h
  obtain ⟨before', after', rfl, hafter'⟩ := h'
  refine ⟨before' ++ before, after ++ after', by simp, fun c hc => ?_⟩
  cases after with
  | nil => exact hafter' c hc
  | cons d after => exact hafter c hc

/-- The digits of a run that ends with the text are those of the larger text. -/
theorem takeWhile_append_stop {p : Char → Bool} (s : Text) {after : Text} (h : ∀ c ∈ after.head?, p c = false) :
    (s ++ after).takeWhile p = s.takeWhile p := by
  induction s with
  | nil =>
    cases after with
    | nil => rfl
    | cons c after => rw [List.nil_append, List.takeWhile_cons, h c rfl]; rfl
  | cons c s ih =>
    rw [List.cons_append, List.takeWhile_cons, List.takeWhile_cons, ih]

/-- **References inside** are references. -/
theorem Inside.references {s t : Text} (h : Inside s t) : references s ⊆ references t := by
  obtain ⟨before, after, rfl, hafter⟩ := h
  intro r hr
  obtain ⟨front, rest, rfl, rfl, hne⟩ := mem_references.mp hr
  refine mem_references.mpr ⟨before ++ front, rest ++ after, by simp, ?_, hne⟩
  rw [takeWhile_append_stop rest hafter]

/-- A line end is between references. -/
theorem references_append_line (s t : Text) : references (s ++ '\n' :: t) = references s ++ references t := by
  induction s with
  | nil =>
    have hline : references ('\n' :: t) = references t := by
      rw [references, if_neg (by simp)]
    rw [List.nil_append, hline]
    rfl
  | cons c s ih =>
    have hdigit : ∀ d ∈ ('\n' :: t).head?, d.isDigit = false := by
      rintro d ⟨⟩
      decide
    have hstop := takeWhile_append_stop s hdigit
    rw [List.cons_append, references, references, hstop, ih]
    split
    · rfl
    · rfl

/-- **References in joined texts** are those of the texts. -/
theorem mem_references_joined {texts : List Text} {r : Id} (h : r ∈ references (['\n'].intercalate texts)) :
    ∃ text ∈ texts, r ∈ references text := by
  induction texts with
  | nil => exact absurd h List.not_mem_nil
  | cons text texts ih =>
    cases texts with
    | nil =>
      rw [List.intercalate_singleton] at h
      exact ⟨text, List.mem_singleton_self text, h⟩
    | cons next texts =>
      rw [List.intercalate_cons_cons, List.append_assoc, List.singleton_append, references_append_line] at h
      obtain h | h := List.mem_append.mp h
      · exact ⟨text, List.mem_cons_self, h⟩
      · obtain ⟨text', htext', hr⟩ := ih h
        exact ⟨text', List.mem_cons_of_mem _ htext', hr⟩

/-! ## Arguments -/

theorem isDigit_of_space {c : Char} (h : isJsSpace c = true) : c.isDigit = false := by
  cases hc : c.isDigit with
  | false => rfl
  | true =>
    rw [isJsSpace_of_digit hc] at h
    cases h

/-- Trimming takes white space away. -/
theorem inside_jsTrim (s : Text) : Inside (jsTrim s) s := by
  refine ⟨s.takeWhile isJsSpace, (s.dropWhile isJsSpace).rtakeWhile isJsSpace, ?_, fun c hc => ?_⟩
  · rw [jsTrim, List.rdropWhile_append_rtakeWhile, List.takeWhile_append_dropWhile]
  · exact isDigit_of_space (List.mem_rtakeWhile_imp (List.mem_of_mem_head? hc))

/-- A part of a joined text. -/
theorem inside_intercalate {part : Text} {parts : List Text} (h : part ∈ parts) :
    Inside part ([','].intercalate parts) := by
  induction parts with
  | nil => exact absurd h List.not_mem_nil
  | cons p parts ih =>
    cases parts with
    | nil =>
      rw [List.mem_singleton.mp h, List.intercalate_singleton]
      exact .refl p
    | cons q parts =>
      rw [List.intercalate_cons_cons, List.append_assoc]
      obtain rfl | h := List.mem_cons.mp h
      · exact ⟨[], _, rfl, by rintro c ⟨⟩; decide⟩
      · obtain ⟨before, after, heq, hafter⟩ := ih h
        exact ⟨p ++ ([','] ++ before), after, by rw [heq]; simp, hafter⟩

/-- **An argument** stands in the arguments. -/
theorem inside_splitArgs {part args : Text} (h : part ∈ splitArgs args) : Inside part args := by
  have hparts : part ∈ (topLevel bracketWeight ',' args).map jsTrim := by
    rw [splitArgs_eq] at h
    split at h
    case isTrue => exact h
    case isFalse => exact List.map_subset _ (List.dropLast_subset _) h
  obtain ⟨piece, hpiece, rfl⟩ := List.mem_map.mp hparts
  have hinside := inside_intercalate hpiece
  rw [intercalate_topLevel] at hinside
  exact (inside_jsTrim piece).trans hinside

/-- A reference that is an argument. -/
theorem mem_references_of_ref {args : Text} {k : Nat} {r : Id} (h : ref (splitArgs args)[k]? = some r) :
    r ∈ references args := by
  obtain ⟨part, hpart, hr⟩ := Option.bind_eq_some_iff.mp h
  refine ((inside_jsTrim part).trans (inside_splitArgs (List.mem_of_getElem? hpart))).references ?_
  split at hr
  case h_1 digits htrim =>
    split at hr
    case isTrue hdigits =>
      obtain rfl := Option.some.inj hr
      refine mem_references.mpr ⟨[], digits, htrim, ?_, hdigits.1⟩
      exact (List.takeWhile_eq_self_iff.mpr (List.all_eq_true.mp hdigits.2)).symm
    case isFalse => cases hr
  case h_2 => cases hr

/-- A reference among the items of a representation. -/
theorem itemRefs_subset (args : Text) : itemRefs args ⊆ references args := by
  intro r hr
  unfold itemRefs at hr
  cases hpart : (splitArgs args)[1]? with
  | none =>
    rw [hpart] at hr
    exact absurd hr List.not_mem_nil
  | some part =>
    rw [hpart] at hr
    exact (inside_splitArgs (List.mem_of_getElem? hpart)).references hr

/-! ## Records in a text -/

theorem inside_of_suffix {s t : Text} (h : s <:+ t) : Inside s t := by
  obtain ⟨before, rfl⟩ := h
  exact ⟨before, [], by simp, by simp⟩

/-- What is left of a text when its beginning is matched. -/
theorem matchId_suffix {cs rest : Text} {id : Id} (h : matchId cs = some (id, rest)) : rest <:+ cs := by
  unfold matchId at h
  split at h
  case h_1 cs =>
    split at h
    case isTrue => cases h
    case isFalse =>
      split at h
      case h_1 rest' heq =>
        cases h
        have hsuffix : '=' :: rest <:+ cs := by
          rw [← heq]
          exact (List.dropWhile_suffix _).trans (List.dropWhile_suffix _)
        exact ((List.suffix_cons _ _).trans hsuffix).trans (List.suffix_cons _ _)
      case h_2 => cases h
  case h_2 => cases h

/-- What `matchArgs` asks of a text. -/
theorem matchArgs_eq_some_iff {cs args rest : Text} : matchArgs cs = some (args, rest) ↔
    ∃ body, cs.dropWhile isJsSpace = '(' :: body ∧ body.dropWhile (· ≠ ';') = ';' :: rest ∧
      (body.takeWhile (· ≠ ';')).rdropWhile isJsSpace = args ++ [')'] := by
  have hreverse : ∀ body : Text, ((body.takeWhile (· ≠ ';')).rdropWhile isJsSpace).reverse = ')' :: args.reverse ↔
      (body.takeWhile (· ≠ ';')).rdropWhile isJsSpace = args ++ [')'] := by
    intro body
    rw [List.reverse_eq_iff, List.reverse_cons, List.reverse_reverse]
  unfold matchArgs
  constructor
  · intro h
    split at h
    case h_2 => cases h
    case h_1 body hbody =>
      split at h
      case h_2 => cases h
      case h_1 rest' rev hrest hrev =>
        cases h
        refine ⟨body, hbody, hrest, (hreverse body).mp ?_⟩
        rw [hrev, List.reverse_reverse]
  · rintro ⟨body, hbody, hrest, hargs⟩
    rw [hbody]
    simp only [hrest, (hreverse body).mpr hargs, List.reverse_reverse]

/-- The arguments of a match are followed by a parenthesis. -/
theorem inside_matchArgs {cs args rest : Text} (h : matchArgs cs = some (args, rest)) : Inside args cs := by
  obtain ⟨body, hbody, hrest, hargs⟩ := matchArgs_eq_some_iff.mp h
  have hbodyEq : body = args ++ ')' :: ((body.takeWhile (· ≠ ';')).rtakeWhile isJsSpace ++ ';' :: rest) := by
    conv_lhs => rw [← List.takeWhile_append_dropWhile (p := (· ≠ ';')) (l := body), hrest,
      ← List.rdropWhile_append_rtakeWhile (p := isJsSpace) (l := body.takeWhile (· ≠ ';')), hargs]
    simp
  have hsuffix : '(' :: body <:+ cs := hbody ▸ List.dropWhile_suffix _
  refine Inside.trans ⟨[], _, hbodyEq, ?_⟩ (inside_of_suffix ((List.suffix_cons '(' body).trans hsuffix))
  rintro c ⟨⟩
  decide

theorem inside_matchRecord {cs rest : Text} {m : RecordMatch} (h : matchRecord cs = some (m, rest)) :
    Inside m.args cs := by
  obtain ⟨⟨id, tail⟩, hid, h⟩ := Option.bind_eq_some_iff.mp h
  dsimp only at h
  split at h
  case h_1 => cases h
  case h_2 c body hbody =>
    split at h
    case isTrue => cases h
    case isFalse =>
      obtain ⟨⟨args, rest'⟩, hargs, heq⟩ := Option.map_eq_some_iff.mp h
      cases heq
      have hsuffix : c :: body <:+ tail := hbody ▸ List.dropWhile_suffix _
      have htail := (((List.dropWhile_suffix isKeywordChar).trans (List.suffix_cons c body)).trans hsuffix).trans
        (matchId_suffix hid)
      exact (inside_matchArgs hargs).trans (inside_of_suffix htail)

/-- **The arguments of a record** stand in the text it is found in. -/
theorem inside_recordMatches {m : RecordMatch} {skip : Nat} {data : Text} (h : m ∈ recordMatches skip data) :
    Inside m.args data := by
  induction data generalizing skip with
  | nil =>
    cases skip with
    | zero => exact absurd h List.not_mem_nil
    | succ skip => exact absurd h List.not_mem_nil
  | cons c cs ih =>
    have htail : ∀ {skip : Nat}, m ∈ recordMatches skip cs → Inside m.args (c :: cs) := fun h =>
      (ih h).trans (inside_of_suffix (List.suffix_cons c cs))
    cases skip with
    | succ skip => exact htail h
    | zero =>
      rw [recordMatches] at h
      split at h
      case h_1 m' rest hmatch =>
        obtain rfl | h := List.mem_cons.mp h
        · exact inside_matchRecord hmatch
        · exact htail h
      case h_2 => exact htail h

/-! ## Texts one behind the other -/

/-- A semicolon stops a run. -/
theorem dropWhile_append_semicolon {p : Char → Bool} (hp : p ';' = false) (u rest : Text) :
    (u ++ ';' :: rest).dropWhile p = u.dropWhile p ++ ';' :: rest := by
  induction u with
  | nil => rw [List.nil_append, List.dropWhile_cons, hp]; rfl
  | cons c u ih =>
    rw [List.cons_append, List.dropWhile_cons, List.dropWhile_cons]
    split
    · exact ih
    · rfl

theorem takeWhile_append_semicolon {p : Char → Bool} (hp : p ';' = false) (u rest : Text) :
    (u ++ ';' :: rest).takeWhile p = u.takeWhile p := by
  refine takeWhile_append_stop u ?_
  rintro c ⟨⟩
  exact hp

/-- What is behind a semicolon has no part in a match of an id before it. -/
theorem matchId_append (u rest : Text) :
    matchId (u ++ ';' :: rest) = none ∧ matchId (u ++ [';']) = none ∨
      ∃ id v, matchId (u ++ ';' :: rest) = some (id, v ++ ';' :: rest) ∧
        matchId (u ++ [';']) = some (id, v ++ [';']) := by
  cases u with
  | nil => exact .inl ⟨rfl, rfl⟩
  | cons c u =>
    by_cases hc : c = '#'
    · subst hc
      have hdigit : Char.isDigit ';' = false := by decide
      have hspace : isJsSpace ';' = false := by decide
      simp only [List.cons_append, matchId, takeWhile_append_semicolon hdigit, dropWhile_append_semicolon hdigit,
        dropWhile_append_semicolon hspace]
      by_cases hempty : u.takeWhile Char.isDigit = []
      · exact .inl ⟨if_pos hempty, if_pos hempty⟩
      · rw [if_neg hempty, if_neg hempty]
        cases (u.dropWhile Char.isDigit).dropWhile isJsSpace with
        | nil => exact .inl ⟨rfl, rfl⟩
        | cons d v =>
          by_cases hd : d = '='
          · subst hd
            exact .inr ⟨_, v, rfl, rfl⟩
          · refine .inl ⟨?_, ?_⟩
            · rw [List.cons_append]
              split
              case h_1 heq => exact absurd (List.cons.inj heq).1 hd
              case h_2 => rfl
            · rw [List.cons_append]
              split
              case h_1 heq => exact absurd (List.cons.inj heq).1 hd
              case h_2 => rfl
    · have hnone : ∀ cs, matchId (c :: cs) = none := by
        intro cs
        unfold matchId
        split
        case h_1 heq => exact absurd (List.cons.inj heq).1 hc
        case h_2 => rfl
      exact .inl ⟨hnone _, hnone _⟩

theorem matchArgs_append (u rest : Text) :
    matchArgs (u ++ ';' :: rest) = (matchArgs (u ++ [';'])).map fun r => (r.1, r.2 ++ rest) := by
  have hspace : isJsSpace ';' = false := by decide
  have hsemi : decide (';' ≠ ';') = false := by decide
  refine Option.ext fun ⟨args, r⟩ => ?_
  rw [Option.map_eq_some_iff]
  simp only [Prod.exists, matchArgs_eq_some_iff, dropWhile_append_semicolon hspace, List.append_eq_cons_iff,
    Prod.mk.injEq]
  constructor
  · rintro ⟨body, ⟨-, h⟩ | ⟨v, hv, rfl⟩, hrest, hargs⟩
    · cases h
    · rw [dropWhile_append_semicolon (p := (· ≠ ';')) hsemi, List.append_eq_cons_iff] at hrest
      rw [takeWhile_append_semicolon (p := (· ≠ ';')) hsemi] at hargs
      obtain ⟨hnil, hr⟩ | ⟨w, hw, rfl⟩ := hrest
      · cases hr
        refine ⟨args, [], ⟨v ++ [';'], .inr ⟨v, hv, rfl⟩, ?_, ?_⟩, rfl, rfl⟩
        · rw [dropWhile_append_semicolon (p := (· ≠ ';')) hsemi, hnil, List.nil_append]
        · rw [takeWhile_append_semicolon (p := (· ≠ ';')) hsemi, hargs]
      · refine ⟨args, w ++ [';'], ⟨v ++ [';'], .inr ⟨v, hv, rfl⟩, ?_, ?_⟩, rfl, by simp⟩
        · rw [dropWhile_append_semicolon (p := (· ≠ ';')) hsemi, hw, List.cons_append]
        · rw [takeWhile_append_semicolon (p := (· ≠ ';')) hsemi, hargs]
  · rintro ⟨args', r', ⟨body, ⟨-, h⟩ | ⟨v, hv, rfl⟩, hrest, hargs⟩, rfl, rfl⟩
    · cases h
    · rw [dropWhile_append_semicolon (p := (· ≠ ';')) hsemi] at hrest
      rw [takeWhile_append_semicolon (p := (· ≠ ';')) hsemi] at hargs
      refine ⟨v ++ ';' :: rest, .inr ⟨v, hv, rfl⟩, ?_, ?_⟩
      · rw [dropWhile_append_semicolon (p := (· ≠ ';')) hsemi]
        have happend := congrArg (· ++ rest) hrest
        simpa using happend
      · rw [takeWhile_append_semicolon (p := (· ≠ ';')) hsemi, hargs]

/-- **What is behind a semicolon** has no part in a match that begins before it. -/
theorem matchRecord_append (u rest : Text) :
    matchRecord (u ++ ';' :: rest) = (matchRecord (u ++ [';'])).map fun r => (r.1, r.2 ++ rest) := by
  have hspace : isJsSpace ';' = false := by decide
  have hkeyword : isKeywordChar ';' = false := by decide
  have hstart : isKeywordStart ';' = false := by decide
  unfold matchRecord
  obtain ⟨hnone, hnone'⟩ | ⟨id, v, hsome, hsome'⟩ := matchId_append u rest
  · rw [hnone, hnone']
    rfl
  · rw [hsome, hsome', Option.bind_some, Option.bind_some]
    dsimp only
    rw [dropWhile_append_semicolon hspace, dropWhile_append_semicolon hspace]
    cases v.dropWhile isJsSpace with
    | nil => simp only [List.nil_append, hstart, if_true, Option.map_none]
    | cons c w =>
      simp only [List.cons_append, dropWhile_append_semicolon hkeyword, takeWhile_append_semicolon hkeyword]
      by_cases hc : isKeywordStart c = false
      · rw [if_pos hc, if_pos hc, Option.map_none]
      · rw [if_neg hc, if_neg hc, matchArgs_append, Option.map_map, Option.map_map]
        rfl

/-- The records of a text that ends with a semicolon come first. -/
theorem recordMatches_append (u rest : Text) {skip : Nat} (hskip : skip ≤ u.length + 1) :
    recordMatches skip (u ++ ';' :: rest) = recordMatches skip (u ++ [';']) ++ recordMatches 0 rest := by
  have hsemicolon : ∀ cs, matchRecord (';' :: cs) = none := fun cs => rfl
  induction u generalizing skip with
  | nil =>
    cases skip with
    | zero =>
      rw [List.nil_append, List.nil_append, recordMatches, recordMatches, hsemicolon, hsemicolon]
      rfl
    | succ skip =>
      rw [List.length_nil] at hskip
      obtain rfl : skip = 0 := by omega
      rfl
  | cons c u ih =>
    rw [List.cons_append, List.cons_append]
    cases skip with
    | succ skip =>
      rw [List.length_cons] at hskip
      rw [recordMatches, recordMatches, ih (by omega)]
    | zero =>
      have hmatch := matchRecord_append (c :: u) rest
      rw [List.cons_append, List.cons_append] at hmatch
      rw [recordMatches, recordMatches, hmatch]
      cases matchRecord (c :: (u ++ [';'])) with
      | none => exact ih (Nat.zero_le _)
      | some r =>
        have hlength : (u ++ ';' :: rest).length - (r.2 ++ rest).length = (u ++ [';']).length - r.2.length := by
          simp only [List.length_append, List.length_cons, List.length_nil]
          omega
        simp only [Option.map_some, hlength, List.cons_append]
        rw [ih]
        simp only [List.length_append, List.length_cons, List.length_nil]
        omega

/-- **The records of joined texts** that each end with a semicolon are those of the texts in turn. -/
theorem recordMatches_joined (texts : List Text) :
    recordMatches 0 (['\n'].intercalate (texts.map (· ++ [';']))) =
      texts.flatMap fun text => recordMatches 0 (text ++ [';']) := by
  induction texts with
  | nil => rfl
  | cons text texts ih =>
    rw [List.flatMap_cons]
    cases texts with
    | nil => simp
    | cons next texts =>
      rw [List.map_cons, List.map_cons, List.intercalate_cons_cons, ← List.map_cons (f := (· ++ [';'])),
        List.append_assoc, List.append_assoc, List.singleton_append, List.singleton_append,
        recordMatches_append text _ (Nat.zero_le _), ← ih]
      congr 1

/-! ## The index of records -/

/-- The arguments in an index. -/
def typeArgs (idx : TypeTable) : TypeIndex := fun type id => ((idx.get type).getD .empty).get id

theorem typeArgs_putMatch (idx : TypeTable) (m : RecordMatch) : typeArgs (putMatch idx m) = (typeArgs idx).put m := by
  funext type id
  unfold typeArgs putMatch TypeIndex.put
  rw [JsObject.get_put]
  by_cases htype : type = m.type
  · subst htype
    rw [if_pos rfl, Option.getD_some, JsObject.get_put]
    by_cases hid : id = m.id
    · rw [if_pos hid, if_pos ⟨rfl, hid⟩]
    · rw [if_neg hid, if_neg fun h => hid h.2]
  · rw [if_neg htype, if_neg fun h => htype h.1]

/-- **The index with an order** is that of `buildTypeIndex`. -/
theorem typeArgs_typeTable (data : Text) : typeArgs (typeTable data) = buildTypeIndex data := by
  have hfold : ∀ (ms : List RecordMatch) (idx : TypeTable),
      typeArgs (ms.foldl putMatch idx) = ms.foldl TypeIndex.put (typeArgs idx) := by
    intro ms
    induction ms with
    | nil => exact fun idx => rfl
    | cons m ms ih =>
      intro idx
      rw [List.foldl_cons, List.foldl_cons, ih, typeArgs_putMatch]
  exact hfold _ _

/-- Only what stood at a place matters for what stands there. -/
theorem foldl_put_congr (ms : List RecordMatch) {idx idx' : TypeIndex} {type : Text} {id : Id}
    (h : idx type id = idx' type id) : ms.foldl TypeIndex.put idx type id = ms.foldl TypeIndex.put idx' type id := by
  induction ms generalizing idx idx' with
  | nil => exact h
  | cons m ms ih =>
    refine ih ?_
    unfold TypeIndex.put
    rw [h]

/-- A reference in the arguments of an index of a text is one in the text. -/
theorem references_of_buildTypeIndex {data type args : Text} {id : Id} (h : buildTypeIndex data type id = some args) :
    references args ⊆ references data := by
  obtain h | ⟨m, hm, rfl⟩ := mem_of_foldl_put h
  · cases h
  · exact (inside_recordMatches hm).references

end PlmCore.CadParser
