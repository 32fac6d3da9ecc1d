/-
The parameters of a record, `splitArgs` and `buildTypeIndex` of `step-lib.js`.

The parameters of ISO-10303-21 are a grammar. `buildTypeIndex` finds a record by a regular expression
that ends the parameters at the first semicolon, and `splitArgs` cuts them at the commas outside all
brackets; neither knows strings. The parameters come out as they are exactly when no string has a
semicolon, no comma stands where as many brackets were opened as closed, and every parameter but the
last one opens as many brackets as it closes, those in strings counted.
-/
import PlmCore.CadParser.Segmentation
import PlmCore.Lib.Nesting

set_option autoImplicit false

namespace PlmCore.CadParser

open Lib

/-! ## The code -/

/-- What the loop of `splitArgs` has read. -/
structure ArgScan where
  parts : List (List Char)
  depth : Int
  cur : List Char

/-- One character of `splitArgs`. -/
def ArgScan.step (s : ArgScan) (ch : Char) : ArgScan :=
  if ch = '(' ∨ ch = '[' then { s with depth := s.depth + 1, cur := s.cur ++ [ch] }
  else if ch = ')' ∨ ch = ']' then { s with depth := s.depth - 1, cur := s.cur ++ [ch] }
  else if ch = ',' ∧ s.depth = 0 then { s with parts := s.parts ++ [jsTrim s.cur], cur := [] }
  else { s with cur := s.cur ++ [ch] }

/-- `splitArgs`. -/
def splitArgs (s : List Char) : List (List Char) :=
  let r := s.foldl ArgScan.step ⟨[], 0, []⟩
  if jsTrim r.cur ≠ [] then r.parts ++ [jsTrim r.cur] else r.parts

/-- What the groups of a match hold. -/
structure RecordMatch where
  id : List Char
  type : List Char
  args : List Char
  deriving DecidableEq

/-- `/\s*\(([^;]*)\)\s*;/`: the group, and what follows the match. The group cannot hold a semicolon, so
the match ends with the first one, and before that the last black character is the parenthesis. -/
def matchArgs (cs : List Char) : Option (List Char × List Char) :=
  match cs.dropWhile isJsSpace with
  | '(' :: body =>
    match body.dropWhile (· ≠ ';'), ((body.takeWhile (· ≠ ';')).rdropWhile isJsSpace).reverse with
    | ';' :: rest, ')' :: args => some (args.reverse, rest)
    | _, _ => none
  | _ => none

/-- `/#(\d+)\s*=\s*([A-Z_][A-Z0-9_]*)\s*\(([^;]*)\)\s*;/` at the beginning of a text. -/
def matchRecord (cs : List Char) : Option (RecordMatch × List Char) :=
  (matchId cs).bind fun (id, rest) =>
    match rest.dropWhile isJsSpace with
    | [] => none
    | c :: cs =>
      if isKeywordStart c = false then none
      else (matchArgs (cs.dropWhile isKeywordChar)).map fun (args, rest) =>
        (⟨id, c :: cs.takeWhile isKeywordChar, args⟩, rest)

/-- The matches of the expression one after the other, after `skip` characters of the last one. -/
def recordMatches : Nat → List Char → List RecordMatch
  | _, [] => []
  | skip + 1, _ :: cs => recordMatches skip cs
  | 0, c :: cs =>
    match matchRecord (c :: cs) with
    | some (m, rest) => m :: recordMatches (cs.length - rest.length) cs
    | none => recordMatches 0 cs

/-- The arguments by type and id. -/
abbrev TypeIndex := List Char → List Char → Option (List Char)

/-- `(idx[m[2]] ??= {})[m[1]] = m[3]`. -/
def TypeIndex.put (idx : TypeIndex) (m : RecordMatch) : TypeIndex := fun type id =>
  if type = m.type ∧ id = m.id then some m.args else idx type id

/-- `buildTypeIndex`. -/
def buildTypeIndex (data : List Char) : TypeIndex :=
  (recordMatches 0 data).foldl TypeIndex.put fun _ _ => none

/-! ## Parameters -/

/-- White space between tokens. -/
structure Blanks where
  text : List Char
  blank : ∀ c ∈ text, isJsSpace c = true

/-- The characters of the tokens that are no strings and no brackets. -/
def isTokenChar (c : Char) : Bool :=
  !isJsSpace c && c ≠ '\'' && c ≠ '(' && c ≠ ')' && c ≠ '[' && c ≠ ']' && c ≠ ',' && c ≠ ';'

/-- A number, a reference, an enumeration, a binary, `$` or `*`, or the keyword of a typed parameter. -/
structure TokenText where
  text : List Char
  nonempty : text ≠ []
  chars : ∀ c ∈ text, isTokenChar c = true

mutual

/-- A parameter. -/
inductive Param
  | token (t : TokenText)
  | string (content : List Char)
  | emptyList (inside : Blanks)
  | list (ps : Params)
  | typed (keyword : TokenText) (between before : Blanks) (p : Param) (after : Blanks)

/-- Parameters with commas between them. -/
inductive Params
  | last (before : Blanks) (p : Param) (after : Blanks)
  | cons (before : Blanks) (p : Param) (after : Blanks) (ps : Params)

end

/-- A string as it is written, its apostrophes doubled. -/
def writtenText (content : List Char) : List Char :=
  '\'' :: content.flatMap (fun c => if c = '\'' then ['\'', '\''] else [c]) ++ ['\'']

mutual

def Param.text : Param → List Char
  | .token t => t.text
  | .string content => writtenText content
  | .emptyList inside => '(' :: inside.text ++ [')']
  | .list ps => '(' :: ps.text ++ [')']
  | .typed keyword between before p after =>
    keyword.text ++ between.text ++ '(' :: before.text ++ p.text ++ after.text ++ [')']

def Params.text : Params → List Char
  | .last before p after => before.text ++ p.text ++ after.text
  | .cons before p after ps => before.text ++ p.text ++ after.text ++ ',' :: ps.text

end

/-- The parameters without the white space around them. -/
def Params.toList : Params → List Param
  | .last _ p _ => [p]
  | .cons _ p _ ps => p :: ps.toList

/-- What stands between the parentheses of a record. -/
inductive RecordArgs
  | none (inside : Blanks)
  | some (ps : Params)

def RecordArgs.text : RecordArgs → List Char
  | .none inside => inside.text
  | .some ps => ps.text

def RecordArgs.params : RecordArgs → List Param
  | .none _ => []
  | .some ps => ps.toList

/-- A simple record. -/
structure SimpleRecord where
  digits : List Char
  digits_ne : digits ≠ []
  areDigits : ∀ c ∈ digits, c.isDigit = true
  beforeEquals : Blanks
  beforeType : Blanks
  first : Char
  isStart : isKeywordStart first = true
  others : List Char
  areKeywordChars : ∀ c ∈ others, isKeywordChar c = true
  beforeArgs : Blanks
  args : RecordArgs
  beforeStop : Blanks

namespace SimpleRecord

variable (r : SimpleRecord)

def type : List Char := r.first :: r.others

def text : List Char :=
  '#' :: r.digits ++ r.beforeEquals.text ++ '=' :: r.beforeType.text ++ r.type ++ r.beforeArgs.text ++
    '(' :: r.args.text ++ ')' :: r.beforeStop.text ++ [';']

end SimpleRecord

/-- How many more brackets a text opens than it closes. -/
def bracketWeight (c : Char) : Int :=
  if c = '(' ∨ c = '[' then 1 else if c = ')' ∨ c = ']' then -1 else 0

/-- The parameters can be told by counting brackets: at no comma of a parameter as many were opened as
closed, and every parameter but the last opens as many as it closes. -/
def ToldByBrackets (ps : List Param) : Prop := Cuttable bracketWeight ',' (ps.map Param.text)

/-! ## Splitting by weights -/

/-- `splitArgs` reads weights. -/
theorem step_eq (s : ArgScan) (ch : Char) : s.step ch =
    if ch = ',' ∧ s.depth = 0 then { s with parts := s.parts ++ [jsTrim s.cur], cur := [] }
    else { s with depth := s.depth + bracketWeight ch, cur := s.cur ++ [ch] } := by
  unfold ArgScan.step bracketWeight
  by_cases hopen : ch = '(' ∨ ch = '['
  · have hcomma : ch ≠ ',' := by
      rintro rfl
      exact absurd hopen (by decide)
    rw [if_pos hopen, if_neg fun h => hcomma h.1, if_pos hopen]
  · by_cases hclose : ch = ')' ∨ ch = ']'
    · have hcomma : ch ≠ ',' := by
        rintro rfl
        exact absurd hclose (by decide)
      rw [if_neg hopen, if_pos hclose, if_neg fun h => hcomma h.1, if_neg hopen, if_pos hclose]
      rfl
    · rw [if_neg hopen, if_neg hclose, if_neg hopen, if_neg hclose, Int.add_zero]

/-- What the loop has in the end: all parts but the last one trimmed, and the last one. -/
theorem scan_eq (xs : List Char) (s : ArgScan) :
    (xs.foldl ArgScan.step s).parts = s.parts ++
        (((s.cur ++ (cut bracketWeight ',' s.depth xs).1) ::
          (cut bracketWeight ',' s.depth xs).2).dropLast).map jsTrim ∧
      (xs.foldl ArgScan.step s).cur = ((s.cur ++ (cut bracketWeight ',' s.depth xs).1) ::
        (cut bracketWeight ',' s.depth xs).2).getLast (List.cons_ne_nil _ _) := by
  induction xs generalizing s with
  | nil => simp [cut]
  | cons c xs ih =>
    rw [List.foldl_cons, step_eq]
    by_cases hcut : c = ',' ∧ s.depth = 0
    · obtain ⟨rfl, hdepth⟩ := hcut
      have hrest := ih { s with parts := s.parts ++ [jsTrim s.cur], cur := [] }
      simp only [cut, hdepth, and_self, if_true] at hrest ⊢
      refine ⟨hrest.1.trans ?_, hrest.2.trans ?_⟩
      · simp
      · simp
    · have hrest := ih { s with depth := s.depth + bracketWeight c, cur := s.cur ++ [c] }
      simp only [cut, if_neg hcut, List.append_assoc, List.singleton_append] at hrest ⊢
      exact hrest

/-- `splitArgs` trims the parts outside all brackets, and leaves out the last one when it is blank. -/
theorem splitArgs_eq (xs : List Char) : splitArgs xs =
    if jsTrim ((topLevel bracketWeight ',' xs).getLast (topLevel_ne_nil xs)) ≠ [] then
      (topLevel bracketWeight ',' xs).map jsTrim
    else (topLevel bracketWeight ',' xs).dropLast.map jsTrim := by
  obtain ⟨hparts, hcur⟩ := scan_eq xs ⟨[], 0, []⟩
  simp only [List.nil_append] at hparts hcur
  unfold splitArgs
  dsimp only
  rw [hparts, hcur]
  unfold topLevel
  split
  · rw [← List.map_singleton, ← List.map_append, List.dropLast_append_getLast]
  · rfl

/-! ## Trimming -/

/-- A text that begins and ends with black characters. -/
def IsBlack (t : List Char) : Prop :=
  ∃ init last, t = init ++ [last] ∧ (∀ d ∈ t.head?, isJsSpace d = false) ∧ isJsSpace last = false

theorem jsTrim_between {t : List Char} (ht : IsBlack t) (before after : Blanks) :
    jsTrim (before.text ++ t ++ after.text) = t := by
  obtain ⟨init, last, rfl, hhead, hlast⟩ := ht
  have hinit : ∀ d ∈ init.head?, isJsSpace d = false := fun d hd =>
    hhead d (List.head?_append_of_ne_nil init (List.ne_nil_of_mem (List.mem_of_mem_head? hd)) ▸ hd)
  obtain ⟨rest, htrim, hrest⟩ := jsTrim_prefix init before.blank hinit hlast after.text
  have hassoc : before.text ++ (init ++ [last]) ++ after.text =
      before.text ++ (init ++ last :: after.text) := by simp
  rw [hassoc, htrim, hrest after.blank]

theorem jsTrim_blanks (b : Blanks) : jsTrim b.text = [] := by
  rw [jsTrim, List.dropWhile_eq_nil_iff.mpr b.blank]
  rfl

theorem count_dropWhile {p : Char → Bool} {c : Char} (hc : p c = false) (t : List Char) :
    (t.dropWhile p).count c = t.count c := by
  have hnone : (t.takeWhile p).count c = 0 := by
    refine List.count_eq_zero.mpr fun hmem => ?_
    rw [List.mem_takeWhile_imp hmem] at hc
    cases hc
  have hsplit := congrArg (List.count c) (List.takeWhile_append_dropWhile (p := p) (l := t))
  rwa [List.count_append, hnone, Nat.zero_add] at hsplit

/-- Trimming takes no commas away. -/
theorem count_jsTrim (t : List Char) : (jsTrim t).count ',' = t.count ',' := by
  have hcomma : isJsSpace ',' = false := by decide
  rw [jsTrim, List.rdropWhile, List.count_reverse, count_dropWhile hcomma, List.count_reverse,
    count_dropWhile hcomma]

theorem map_count_eq {ps qs : List (List Char)} (h : ps.map jsTrim = qs.map jsTrim) :
    ps.map (List.count ',') = qs.map (List.count ',') := by
  have hcounts := congrArg (List.map (List.count ',')) h
  simpa only [List.map_map, Function.comp_def, count_jsTrim] using hcounts

/-- Parts of a text, trimmed like other ones it was joined from, are these. Were the last part left out,
there would be one part too many, and the text would have one comma too many. -/
theorem trimmed_eq_iff {parts qs : List (List Char)} (htext : [','].intercalate parts = [','].intercalate qs)
    (hparts : parts ≠ []) (hne : qs ≠ []) (hblack : ∀ q ∈ qs, jsTrim q ≠ []) :
    (if jsTrim (parts.getLast hparts) ≠ [] then parts.map jsTrim else parts.dropLast.map jsTrim) =
      qs.map jsTrim ↔ parts = qs := by
  constructor
  · intro hsplit
    split at hsplit
    · exact eq_of_counts htext (map_count_eq hsplit)
    · rename_i hlast
      have hblank : (parts.getLast hparts).count ',' = 0 := by
        rw [← count_jsTrim, not_not.mp hlast, List.count_nil]
      have hcounts := congrArg List.sum (map_count_eq hsplit)
      have hlength := congrArg List.length hsplit
      rw [List.length_map, List.length_map, List.length_dropLast] at hlength
      have hsum : (parts.map (List.count ',')).sum = (parts.dropLast.map (List.count ',')).sum := by
        conv_lhs => rw [← List.dropLast_append_getLast hparts]
        rw [List.map_append, List.sum_append, List.map_singleton, List.sum_singleton, hblank,
          Nat.add_zero]
      have hcountParts : ([','].intercalate parts).count ',' + 1 = _ := count_intercalate hparts
      have hcountQs : ([','].intercalate qs).count ',' + 1 = _ := count_intercalate hne
      rw [htext] at hcountParts
      have hpos := List.length_pos_iff.mpr hparts
      omega
  · rintro rfl
    exact if_pos (hblack _ (List.getLast_mem hparts))

/-- **Splitting** gives the parts a text was joined from exactly when they can be told by weights. -/
theorem splitArgs_intercalate_iff {qs : List (List Char)} (hne : qs ≠ [])
    (hblack : ∀ q ∈ qs, jsTrim q ≠ []) :
    splitArgs ([','].intercalate qs) = qs.map jsTrim ↔ Cuttable bracketWeight ',' qs := by
  rw [← topLevel_intercalate_iff hne, splitArgs_eq]
  exact trimmed_eq_iff (intercalate_topLevel _) (topLevel_ne_nil _) hne hblack

/-! ## The grammar -/

theorem TokenText.isBlack_of_mem (t : TokenText) {c : Char} (hc : c ∈ t.text) : isJsSpace c = false := by
  have htoken := t.chars c hc
  simp only [isTokenChar, Bool.and_eq_true, Bool.not_eq_true'] at htoken
  exact htoken.1.1.1.1.1.1.1

/-- A parameter begins and ends with black characters. -/
theorem Param.isBlack (p : Param) : IsBlack p.text := by
  have hparen : ∀ d ∈ some '(', isJsSpace d = false := by
    rintro d ⟨⟩
    decide
  cases p with
  | token t =>
    obtain ⟨init, last, heq⟩ := List.eq_nil_or_concat' t.text |>.resolve_left t.nonempty
    refine ⟨init, last, heq, fun d hd => t.isBlack_of_mem (List.mem_of_mem_head? hd), ?_⟩
    exact t.isBlack_of_mem (heq ▸ List.mem_append_right _ (List.mem_singleton_self last))
  | string content =>
    refine ⟨_, '\'', rfl, ?_, by decide⟩
    rintro d ⟨⟩
    decide
  | emptyList inside => exact ⟨'(' :: inside.text, ')', rfl, hparen, by decide⟩
  | list ps => exact ⟨'(' :: ps.text, ')', rfl, hparen, by decide⟩
  | typed keyword between before p after =>
    refine ⟨_, ')', rfl, fun d hd => keyword.isBlack_of_mem ?_, by decide⟩
    have hhead : (Param.typed keyword between before p after).text.head? = keyword.text.head? := by
      simp only [Param.text, List.append_assoc]
      exact List.head?_append_of_ne_nil _ keyword.nonempty
    exact List.mem_of_mem_head? (hhead ▸ hd)

/-- The parameters with the white space around them. -/
def Params.spaced : Params → List (Blanks × Param × Blanks)
  | .last before p after => [(before, p, after)]
  | .cons before p after ps => (before, p, after) :: ps.spaced

def spacedText (q : Blanks × Param × Blanks) : List Char := q.1.text ++ q.2.1.text ++ q.2.2.text

theorem Params.spaced_ne_nil (ps : Params) : ps.spaced ≠ [] := by
  cases ps <;> exact List.cons_ne_nil _ _

theorem Params.text_eq : ∀ ps : Params, ps.text = [','].intercalate (ps.spaced.map spacedText)
  | .last before p after => by
    rw [Params.spaced, List.map_singleton, List.intercalate_singleton, Params.text, spacedText]
  | .cons before p after ps => by
    rw [Params.text, Params.text_eq ps, Params.spaced, List.map_cons,
      List.intercalate_cons_of_ne_nil fun h => ps.spaced_ne_nil (List.map_eq_nil_iff.mp h), spacedText]
    simp

theorem Params.toList_eq : ∀ ps : Params, ps.toList = ps.spaced.map fun q => q.2.1
  | .last _ _ _ => rfl
  | .cons _ p _ ps => congrArg (p :: ·) ps.toList_eq

theorem bracketWeight_of_space {c : Char} (hc : isJsSpace c = true) : bracketWeight c = 0 := by
  unfold bracketWeight
  rw [if_neg, if_neg]
  · rintro (rfl | rfl) <;> exact absurd hc (by decide)
  · rintro (rfl | rfl) <;> exact absurd hc (by decide)

theorem Blanks.weight_eq_zero (b : Blanks) : weight bracketWeight b.text = 0 :=
  Lib.weight_eq_zero bracketWeight fun c hc => bracketWeight_of_space (b.blank c hc)

theorem Blanks.uncut (b : Blanks) (d : Int) : Uncut bracketWeight ',' d b.text :=
  uncut_of_notMem (fun hmem => absurd (b.blank ',' hmem) (by decide)) d

/-- White space around a parameter is nothing to a reader of weights. -/
theorem uncut_spaced (q : Blanks × Param × Blanks) :
    Uncut bracketWeight ',' 0 (spacedText q) ↔ Uncut bracketWeight ',' 0 q.2.1.text := by
  rw [spacedText, uncut_append, uncut_append, q.1.weight_eq_zero, Int.zero_add]
  exact ⟨fun h => h.1.2, fun h => ⟨⟨q.1.uncut 0, h⟩, q.2.2.uncut _⟩⟩

theorem weight_spaced (q : Blanks × Param × Blanks) :
    weight bracketWeight (spacedText q) = weight bracketWeight q.2.1.text := by
  rw [spacedText, weight_append, weight_append, q.1.weight_eq_zero, q.2.2.weight_eq_zero, Int.zero_add,
    Int.add_zero]

theorem cuttable_spaced (ps : Params) :
    Cuttable bracketWeight ',' (ps.spaced.map spacedText) ↔ ToldByBrackets ps.toList := by
  unfold ToldByBrackets Cuttable
  rw [Params.toList_eq, List.map_map, ← List.map_dropLast, ← List.map_dropLast]
  simp only [List.forall_mem_map, Function.comp_apply, uncut_spaced, weight_spaced]

/-- Splitting the parameters of a record. -/
theorem splitArgs_text_iff (a : RecordArgs) :
    splitArgs a.text = a.params.map Param.text ↔ ToldByBrackets a.params := by
  cases a with
  | none inside =>
    refine iff_of_true ?_ ⟨fun p hp => (nomatch hp), fun p hp => nomatch hp⟩
    have hparts : topLevel bracketWeight ',' inside.text = [inside.text] := by
      have hcut := cut_append (inside.uncut 0) []
      rw [List.append_nil] at hcut
      rw [topLevel, hcut]
      simp [cut]
    have hblank : jsTrim inside.text = [] := jsTrim_blanks inside
    simp [RecordArgs.text, RecordArgs.params, splitArgs_eq, hparts, hblank]
  | some ps =>
    have htrim : (ps.spaced.map spacedText).map jsTrim = ps.toList.map Param.text := by
      rw [Params.toList_eq, List.map_map, List.map_map]
      exact List.map_congr_left fun q _ => jsTrim_between q.2.1.isBlack q.1 q.2.2
    have hne : ps.spaced.map spacedText ≠ [] := fun h => ps.spaced_ne_nil (List.map_eq_nil_iff.mp h)
    have hblack : ∀ q ∈ ps.spaced.map spacedText, jsTrim q ≠ [] := by
      intro q hq
      obtain ⟨q, -, rfl⟩ := List.mem_map.mp hq
      rw [spacedText, jsTrim_between q.2.1.isBlack]
      obtain ⟨init, last, heq, -⟩ := q.2.1.isBlack
      rw [heq]
      exact List.append_ne_nil_of_right_ne_nil init (List.cons_ne_nil last [])
    have hiff := splitArgs_intercalate_iff hne hblack
    rw [← ps.text_eq, htrim, cuttable_spaced] at hiff
    exact hiff

/-! ## Finding records -/

theorem matchArgs_of_parts {args : List Char} (hargs : ';' ∉ args) (before stop : Blanks)
    (rest : List Char) :
    matchArgs (before.text ++ '(' :: (args ++ ')' :: (stop.text ++ ';' :: rest))) = some (args, rest) := by
  have hfront := span_run before.blank ('(' :: (args ++ ')' :: (stop.text ++ ';' :: rest))) (by
    rintro c ⟨⟩
    decide)
  have hbody : ∀ c ∈ args ++ ')' :: stop.text, (decide (c ≠ ';')) = true := by
    intro c hc
    refine decide_eq_true ?_
    rintro rfl
    obtain hc | hc := List.mem_append.mp hc
    · exact hargs hc
    · obtain hc | hc := List.mem_cons.mp hc
      · exact absurd hc (by decide)
      · exact absurd (stop.blank ';' hc) (by decide)
  have hspan := span_run hbody (';' :: rest) (by
    rintro c ⟨⟩
    rfl)
  have htrim : (args ++ ')' :: stop.text).rdropWhile isJsSpace = args ++ [')'] := by
    obtain ⟨rest', htrim, hnil⟩ := rdropWhile_isJsSpace (c := ')') args stop.text (by decide)
    rw [htrim, hnil stop.blank]
  have hassoc : args ++ ')' :: (stop.text ++ ';' :: rest) = args ++ ')' :: stop.text ++ ';' :: rest := by
    simp
  have hreverse : (args ++ [')']).reverse = ')' :: args.reverse := by simp
  simp only [matchArgs, hfront.2]
  rw [hassoc, hspan.1, hspan.2, htrim, hreverse]
  simp

/-- A simple record is matched from its beginning to its end. -/
theorem matchRecord_text (r : SimpleRecord) (hargs : ';' ∉ r.args.text) (tail : List Char) :
    matchRecord (r.text ++ tail) = some (⟨r.digits, r.type, r.args.text⟩, tail) := by
  have hassoc : r.text ++ tail = '#' :: (r.digits ++ (r.beforeEquals.text ++ '=' ::
      (r.beforeType.text ++ r.first :: (r.others ++ (r.beforeArgs.text ++ '(' ::
        (r.args.text ++ ')' :: (r.beforeStop.text ++ ';' :: tail))))))) := by
    simp [SimpleRecord.text, SimpleRecord.type]
  have hblack : isJsSpace r.first = false :=
    black_of_keywordChar (by rw [isKeywordChar, r.isStart, Bool.true_or])
  rw [hassoc, matchRecord, matchId_of_parts r.digits_ne r.areDigits r.beforeEquals.blank, Option.bind_some]
  dsimp only
  have hfront := span_run r.beforeType.blank (r.first :: (r.others ++ (r.beforeArgs.text ++ '(' ::
    (r.args.text ++ ')' :: (r.beforeStop.text ++ ';' :: tail))))) (by
      rintro c ⟨⟩
      exact hblack)
  have hrun := span_run r.areKeywordChars _ (stops_run (fun c => black_of_keywordChar)
    r.beforeArgs.blank (a := '(') (by decide) (r.args.text ++ ')' :: (r.beforeStop.text ++ ';' :: tail)))
  rw [hfront.2]
  dsimp only
  rw [r.isStart, hrun.1, hrun.2, matchArgs_of_parts hargs]
  rfl

/-- What was matched is skipped. -/
theorem recordMatches_skip (xs tail : List Char) :
    recordMatches xs.length (xs ++ tail) = recordMatches 0 tail := by
  induction xs with
  | nil => rfl
  | cons x xs ih => exact ih

/-- Text without number signs has no records. -/
theorem recordMatches_of_notMem {xs : List Char} (h : '#' ∉ xs) (tail : List Char) :
    recordMatches 0 (xs ++ tail) = recordMatches 0 tail := by
  induction xs with
  | nil => rfl
  | cons x xs ih =>
    have hx : x ≠ '#' := fun heq => h (heq ▸ List.mem_cons_self)
    have hnone : matchRecord (x :: (xs ++ tail)) = none := by
      rw [matchRecord, matchId]
      · rfl
      · rintro cs ⟨⟩
        exact hx rfl
    rw [List.cons_append, recordMatches, hnone]
    exact ih fun hmem => h (List.mem_cons_of_mem x hmem)

theorem recordMatches_text (r : SimpleRecord) (hargs : ';' ∉ r.args.text) (tail : List Char) :
    recordMatches 0 (r.text ++ tail) = ⟨r.digits, r.type, r.args.text⟩ :: recordMatches 0 tail := by
  have hmatch := matchRecord_text r hargs tail
  obtain ⟨body, hbody⟩ : ∃ body, r.text = '#' :: body := ⟨_, rfl⟩
  rw [hbody, List.cons_append] at hmatch ⊢
  have hlength : (body ++ tail).length - tail.length = body.length := by
    rw [List.length_append, Nat.add_sub_cancel]
  rw [recordMatches, hmatch]
  dsimp only
  rw [hlength, recordMatches_skip]

/-- What a match has between the parentheses has no semicolon. -/
theorem semicolon_notMem_of_matchArgs {cs args rest : List Char} (h : matchArgs cs = some (args, rest)) :
    ';' ∉ args := by
  unfold matchArgs at h
  split at h
  · split at h
    · rename_i body _ _ _ _ _ _ hclose
      cases h
      intro hmem
      have hmem : ';' ∈ (body.takeWhile (· ≠ ';')).rdropWhile isJsSpace := by
        rw [← List.mem_reverse, hclose]
        exact List.mem_cons_of_mem _ (List.mem_reverse.mp hmem)
      have hne := List.mem_takeWhile_imp ((List.rdropWhile_prefix _ _).subset hmem)
      exact absurd hne (by decide)
    · cases h
  · cases h

theorem semicolon_notMem_of_matchRecord {cs rest : List Char} {m : RecordMatch}
    (h : matchRecord cs = some (m, rest)) : ';' ∉ m.args := by
  obtain ⟨⟨id, cs⟩, -, h⟩ := Option.bind_eq_some_iff.mp h
  dsimp only at h
  split at h
  · cases h
  · split at h
    · cases h
    · obtain ⟨⟨args, rest⟩, hargs, heq⟩ := Option.map_eq_some_iff.mp h
      cases heq
      exact semicolon_notMem_of_matchArgs hargs

theorem semicolon_notMem_of_mem (skip : Nat) (cs : List Char) :
    ∀ m ∈ recordMatches skip cs, ';' ∉ m.args := by
  fun_induction recordMatches skip cs with
  | case1 => exact fun m hm => nomatch hm
  | case2 _ _ _ ih => exact ih
  | case3 c cs m rest hmatch ih =>
    intro m' hm'
    obtain rfl | hm' := List.mem_cons.mp hm'
    · exact semicolon_notMem_of_matchRecord hmatch
    · exact ih m' hm'
  | case4 _ _ _ ih => exact ih

/-! ## The index -/

theorem foldl_put_of_ne {ms : List RecordMatch} {type id : List Char} (h : ∀ m ∈ ms, id ≠ m.id)
    (idx : TypeIndex) : ms.foldl TypeIndex.put idx type id = idx type id := by
  induction ms generalizing idx with
  | nil => rfl
  | cons m ms ih =>
    rw [List.foldl_cons, ih fun m' hm' => h m' (List.mem_cons_of_mem m hm')]
    exact if_neg fun heq => h m List.mem_cons_self heq.2

/-- Matches with ids of their own are all in the index. -/
theorem foldl_put_of_mem {ms : List RecordMatch} (hdistinct : (ms.map RecordMatch.id).Nodup)
    {m : RecordMatch} (hm : m ∈ ms) (idx : TypeIndex) :
    ms.foldl TypeIndex.put idx m.type m.id = some m.args := by
  induction ms generalizing idx with
  | nil => cases hm
  | cons m' ms ih =>
    obtain ⟨hfirst, hothers⟩ := List.nodup_cons.mp hdistinct
    rw [List.foldl_cons]
    obtain rfl | hm := List.mem_cons.mp hm
    · have hne : ∀ m' ∈ ms, m.id ≠ m'.id := fun m' hm' heq =>
        hfirst (List.mem_map.mpr ⟨m', hm', heq.symm⟩)
      rw [foldl_put_of_ne hne]
      exact if_pos ⟨rfl, rfl⟩
    · exact ih hothers hm _

/-- What the index holds was matched. -/
theorem mem_of_foldl_put {ms : List RecordMatch} {type id args : List Char} {idx : TypeIndex}
    (h : ms.foldl TypeIndex.put idx type id = some args) :
    idx type id = some args ∨ ∃ m ∈ ms, m.args = args := by
  induction ms generalizing idx with
  | nil => exact .inl h
  | cons m ms ih =>
    obtain hput | ⟨m', hm', heq⟩ := ih h
    · unfold TypeIndex.put at hput
      split at hput
      · exact .inr ⟨m, List.mem_cons_self, Option.some.inj hput⟩
      · exact .inl hput
    · exact .inr ⟨m', List.mem_cons_of_mem m hm', heq⟩

theorem semicolon_notMem_of_buildTypeIndex {data type id args : List Char}
    (h : buildTypeIndex data type id = some args) : ';' ∉ args := by
  obtain hnone | ⟨m, hm, rfl⟩ := mem_of_foldl_put h
  · cases hnone
  · exact semicolon_notMem_of_mem 0 data m hm

/-! ## A file of records -/

/-- Text without records: white space, the words that begin and end a section. -/
structure Gap where
  text : List Char
  noRecord : '#' ∉ text

/-- Simple records with names of their own, and what stands between them. -/
structure RecordFile where
  records : List (Gap × SimpleRecord)
  distinct : (records.map fun q => q.2.digits).Nodup
  rest : Gap

def spacedRecord (q : Gap × SimpleRecord) : List Char := q.1.text ++ q.2.text

def RecordFile.text (f : RecordFile) : List Char := f.records.flatMap spacedRecord ++ f.rest.text

/-- The match of a record. -/
def SimpleRecord.asMatch (r : SimpleRecord) : RecordMatch := ⟨r.digits, r.type, r.args.text⟩

theorem recordMatches_records {qs : List (Gap × SimpleRecord)} (hargs : ∀ q ∈ qs, ';' ∉ q.2.args.text)
    (rest : Gap) : recordMatches 0 (qs.flatMap spacedRecord ++ rest.text) =
      qs.map fun q => q.2.asMatch := by
  induction qs with
  | nil =>
    have hrest := recordMatches_of_notMem rest.noRecord []
    rw [List.append_nil] at hrest
    exact hrest
  | cons q qs ih =>
    rw [List.flatMap_cons, spacedRecord, List.append_assoc, List.append_assoc,
      recordMatches_of_notMem q.1.noRecord, recordMatches_text q.2 (hargs q List.mem_cons_self),
      ih fun q' hq' => hargs q' (List.mem_cons_of_mem q hq')]
    rfl

/-- The index has the parameters of all records exactly when none of them has a semicolon. -/
theorem buildTypeIndex_iff (f : RecordFile) :
    (∀ q ∈ f.records, buildTypeIndex f.text q.2.type q.2.digits = some q.2.args.text) ↔
      ∀ q ∈ f.records, ';' ∉ q.2.args.text := by
  refine ⟨fun h q hq => semicolon_notMem_of_buildTypeIndex (h q hq), fun h q hq => ?_⟩
  have hdistinct : ((f.records.map fun q => q.2.asMatch).map RecordMatch.id).Nodup := by
    rw [List.map_map]
    exact f.distinct
  rw [buildTypeIndex, RecordFile.text, recordMatches_records h]
  exact foldl_put_of_mem hdistinct (List.mem_map_of_mem hq) _

/-- **Main result.** The records of a file come out as they are, each with its parameters under its type
and its name and each parameter by itself, exactly when no parameter has a semicolon in a string and
those of each record can be told by counting brackets. -/
theorem records_come_out_iff (f : RecordFile) :
    (∀ q ∈ f.records, buildTypeIndex f.text q.2.type q.2.digits = some q.2.args.text ∧
        splitArgs q.2.args.text = q.2.args.params.map Param.text) ↔
      ∀ q ∈ f.records, ';' ∉ q.2.args.text ∧ ToldByBrackets q.2.args.params := by
  simp only [forall_and, buildTypeIndex_iff, splitArgs_text_iff]

/-- No blanks. -/
def noBlanks : Blanks := ⟨[], fun _ hc => nomatch hc⟩

/-- `#10=PRODUCT('P1','Flange (M8','',$);` -/
def openName : SimpleRecord where
  digits := ['1', '0']
  digits_ne := List.cons_ne_nil _ _
  areDigits := List.all_eq_true.mp (by decide)
  beforeEquals := noBlanks
  beforeType := noBlanks
  first := 'P'
  isStart := by decide
  others := ['R', 'O', 'D', 'U', 'C', 'T']
  areKeywordChars := List.all_eq_true.mp (by decide)
  beforeArgs := noBlanks
  args := .some (.cons noBlanks (.string ['P', '1']) noBlanks
    (.cons noBlanks (.string ['F', 'l', 'a', 'n', 'g', 'e', ' ', '(', 'M', '8']) noBlanks
      (.cons noBlanks (.string []) noBlanks
        (.last noBlanks (.token ⟨['$'], List.cons_ne_nil _ _, List.all_eq_true.mp (by decide)⟩) noBlanks))))
  beforeStop := noBlanks

/-- A parenthesis in a name that is not closed there takes the parameters behind the name into it. -/
theorem open_parenthesis_joins_parameters :
    splitArgs openName.args.text = ["'P1'".toList, "'Flange (M8','',$".toList] ∧
      ¬ ∀ f : RecordFile, ∀ q ∈ f.records,
        buildTypeIndex f.text q.2.type q.2.digits = some q.2.args.text ∧
          splitArgs q.2.args.text = q.2.args.params.map Param.text := by
  have hsplit : splitArgs openName.args.text = ["'P1'".toList, "'Flange (M8','',$".toList] := by decide
  refine ⟨hsplit, fun h => ?_⟩
  have hall := (h ⟨[(⟨[], by decide⟩, openName)], by simp, ⟨[], by decide⟩⟩
    _ (List.mem_singleton_self _)).2
  rw [hsplit] at hall
  exact absurd (congrArg List.length hall) (by decide)

end PlmCore.CadParser
