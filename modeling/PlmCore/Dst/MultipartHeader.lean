/-
The boundary in a Content-Type header, and the round trip of a form and its header.

`boundaryOf` looks for `boundary=` anywhere in the header. It may stand in another parameter, and the name of
the parameter may be written in other letters; what follows is read without the escapes of quoted text, and
without spaces but not without tabs.
-/
import PlmCore.Dst.MultipartForm

set_option autoImplicit false

namespace PlmCore.Dst.Multipart

open Lib

/-! ## Headers -/

def backslash : UInt8 := 0x5C
def tab : UInt8 := 0x09

/-- The characters of tokens. -/
def isTokenByte (b : UInt8) : Bool := 0x20 < b && b < 0x7F && b ∉ asciiBytes "()<>@,;:\\\"/[]?="

/-- A token. -/
structure Token where
  text : Bytes
  nonempty : text ≠ []
  chars : ∀ b ∈ text, isTokenByte b = true

/-- A byte of quoted text, and whether a backslash stands before it. -/
structure QuotedByte where
  escaped : Bool
  byte : UInt8
  plain : escaped = false → byte ≠ dquote ∧ byte ≠ backslash ∧ byte ≠ cr

/-- The value of a parameter. -/
inductive ParamValue
  | token (t : Token)
  | quoted (bytes : List QuotedByte)

namespace ParamValue

def meaning : ParamValue → Bytes
  | token t => t.text
  | quoted bytes => bytes.map QuotedByte.byte

def text : ParamValue → Bytes
  | token t => t.text
  | quoted bytes =>
    dquote :: bytes.flatMap (fun q => if q.escaped = true then [backslash, q.byte] else [q.byte]) ++ [dquote]

end ParamValue

/-- White space around a semicolon. -/
structure HeaderBlanks where
  text : Bytes
  blank : ∀ b ∈ text, b = space ∨ b = tab

structure HeaderParam where
  before : HeaderBlanks
  after : HeaderBlanks
  key : Token
  value : ParamValue

def HeaderParam.text (p : HeaderParam) : Bytes :=
  p.before.text ++ semicolon :: p.after.text ++ p.key.text ++ asciiBytes "=" ++ p.value.text

/-- A header that carries a boundary: the name of the parameter is read without regard to case. -/
structure ContentTypeHeader (boundary : Bytes) where
  type : Token
  subtype : Token
  params : List HeaderParam
  distinct : (params.map fun p => p.key.text.map lowerByte).Nodup
  carries : ∃ p ∈ params, p.key.text.map lowerByte = asciiBytes "boundary" ∧ p.value.meaning = boundary

def ContentTypeHeader.text {boundary : Bytes} (h : ContentTypeHeader boundary) : Bytes :=
  h.type.text ++ asciiBytes "/" ++ h.subtype.text ++ h.params.flatMap HeaderParam.text

/-! ## When the boundary is read -/

/-- Behind the first `boundary=` stands the boundary: in quotes as it is, or up to a semicolon or the end
with spaces only around it. -/
def BoundaryIsRead (header boundary : Bytes) : Prop :=
  ∃ q, cutFirst (asciiBytes "boundary=") header = some q ∧
    ((∃ tail, q.2 = dquote :: (boundary ++ dquote :: tail)) ∨
      (∀ b ∈ boundary.head?, b ≠ space) ∧ ∃ left right tail, q.2 = left ++ boundary ++ right ++ tail ∧
        (∀ b ∈ left ++ right, b = space) ∧ (∀ b ∈ tail.head?, b = semicolon))

/-- What a search for a byte leaves begins with it. -/
theorem exists_stop (a : UInt8) (s : Bytes) :
    ∃ tail, s = s.takeWhile (fun b => decide (b ≠ a)) ++ tail ∧ ∀ b ∈ tail.head?, b = a := by
  refine ⟨s.dropWhile fun b => decide (b ≠ a), List.takeWhile_append_dropWhile.symm, fun b hb => ?_⟩
  have hhead := List.head?_dropWhile_not (fun b => decide (b ≠ a)) s
  rw [Option.mem_def.mp hb] at hhead
  simpa using hhead

theorem takeWhile_of_stop {a : UInt8} {s tail : Bytes} (hs : a ∉ s) (htail : ∀ b ∈ tail.head?, b = a) :
    (s ++ tail).takeWhile (fun b => decide (b ≠ a)) = s := by
  have hself : s.takeWhile (fun b => decide (b ≠ a)) = s := by
    rw [List.takeWhile_eq_self_iff]
    exact fun b hb => decide_eq_true fun h => hs (h ▸ hb)
  cases tail with
  | nil => rw [List.append_nil, hself]
  | cons b tail =>
    obtain rfl := htail b rfl
    exact (@takeWhile_append_cons _ (fun c => decide (c ≠ b)) b (by simp) s tail).trans hself

theorem quotedText_eq_iff {s v : Bytes} (hv : dquote ∉ v) :
    quotedText s = some v ↔ ∃ tail, s = v ++ dquote :: tail := by
  constructor
  · intro h
    unfold quotedText at h
    split at h
    · rename_i hmem
      obtain ⟨tail, hs, htail⟩ := exists_stop dquote s
      rw [Option.some.inj h] at hs
      cases tail with
      | nil =>
        rw [List.append_nil] at hs
        exact absurd (hs ▸ hmem) hv
      | cons b tail =>
        obtain rfl := htail b rfl
        exact ⟨tail, hs⟩
    · cases h
  · rintro ⟨tail, rfl⟩
    exact quotedText_append hv tail

/-- What is left without the spaces around it. -/
theorem trimSpaces_eq_iff {s v : Bytes} (hne : v ≠ []) (hlast : v.getLast hne ≠ space) :
    trimSpaces s = v ↔ (∀ b ∈ v.head?, b ≠ space) ∧
      ∃ left right, s = left ++ v ++ right ∧ ∀ b ∈ left ++ right, b = space := by
  have hspace : ∀ (t : Bytes) (b : UInt8), b ∈ t.takeWhile (fun c => decide (c = space)) → b = space := by
    intro t b hb
    have htrue := List.mem_takeWhile_imp hb
    exact of_decide_eq_true htrue
  constructor
  · rintro rfl
    have hdrop : s.takeWhile (fun c => decide (c = space)) ++ s.dropWhile (fun c => decide (c = space)) = s :=
      List.takeWhile_append_dropWhile
    have hback : s.dropWhile (fun c => decide (c = space)) = trimSpaces s ++
        ((s.dropWhile fun c => decide (c = space)).reverse.takeWhile fun c => decide (c = space)).reverse := by
      rw [trimSpaces, List.rdropWhile, ← List.reverse_append, List.takeWhile_append_dropWhile,
        List.reverse_reverse]
    refine ⟨fun b hb => ?_, s.takeWhile fun c => decide (c = space),
      ((s.dropWhile fun c => decide (c = space)).reverse.takeWhile fun c => decide (c = space)).reverse,
      ?_, fun b hb => ?_⟩
    · have hhead := List.head?_dropWhile_not (fun c => decide (c = space)) s
      rw [hback, List.head?_append_of_ne_nil _ hne, Option.mem_def.mp hb] at hhead
      simpa using hhead
    · rw [List.append_assoc, ← hback, hdrop]
    · obtain hb | hb := List.mem_append.mp hb
      · exact hspace s b hb
      · exact hspace _ b (List.mem_reverse.mp hb)
  · rintro ⟨hhead, left, right, rfl, hspaces⟩
    have hleft : ∀ b ∈ left, decide (b = space) = true := fun b hb =>
      decide_eq_true (hspaces b (List.mem_append_left right hb))
    have hright : ∀ b ∈ right.reverse, decide (b = space) = true := fun b hb =>
      decide_eq_true (hspaces b (List.mem_append_right left (List.mem_reverse.mp hb)))
    have hfront : (v ++ right).dropWhile (fun c => decide (c = space)) = v ++ right := by
      obtain ⟨c, v, rfl⟩ := List.exists_cons_of_ne_nil hne
      rw [List.cons_append, List.dropWhile_cons_of_neg (by simpa using hhead c rfl)]
    have hend : v.rdropWhile (fun c => decide (c = space)) = v := by
      rw [List.rdropWhile_eq_self_iff]
      exact fun _ => by simpa using hlast
    rw [trimSpaces, List.append_assoc, List.dropWhile_append_of_pos hleft, hfront, List.rdropWhile,
      List.reverse_append, List.dropWhile_append_of_pos hright]
    exact hend

theorem bareText_eq_iff {s v : Bytes} (hne : v ≠ []) (hsemicolon : semicolon ∉ v)
    (hlast : v.getLast hne ≠ space) :
    bareText s = v ↔ (∀ b ∈ v.head?, b ≠ space) ∧ ∃ left right tail, s = left ++ v ++ right ++ tail ∧
      (∀ b ∈ left ++ right, b = space) ∧ (∀ b ∈ tail.head?, b = semicolon) := by
  rw [bareText, trimSpaces_eq_iff hne hlast]
  refine and_congr_right fun _ => ?_
  constructor
  · rintro ⟨left, right, hs, hspaces⟩
    obtain ⟨tail, hstop, htail⟩ := exists_stop semicolon s
    exact ⟨left, right, tail, hs ▸ hstop, hspaces, htail⟩
  · rintro ⟨left, right, tail, rfl, hspaces, htail⟩
    refine ⟨left, right, takeWhile_of_stop ?_ htail, hspaces⟩
    simp only [List.mem_append, not_or]
    refine ⟨⟨fun hmem => ?_, hsemicolon⟩, fun hmem => ?_⟩
    · exact absurd (hspaces _ (List.mem_append_left right hmem)) (by decide)
    · exact absurd (hspaces _ (List.mem_append_right left hmem)) (by decide)

/-- A quote at the beginning is no space. -/
theorem dquote_mem_bareText (t : Bytes) : dquote ∈ bareText (dquote :: t) := by
  have htake : (dquote :: t).takeWhile (fun b => decide (b ≠ semicolon)) =
      dquote :: t.takeWhile fun b => decide (b ≠ semicolon) := by
    rw [List.takeWhile_cons_of_pos (by decide)]
  have hdrop : ∀ s : Bytes, (dquote :: s).dropWhile (fun b => decide (b = space)) = dquote :: s := fun s => by
    rw [List.dropWhile_cons_of_neg (by decide)]
  rw [bareText, htake, trimSpaces, hdrop]
  cases htrim : (dquote :: t.takeWhile fun b => decide (b ≠ semicolon)).rdropWhile (fun b => decide (b = space)) with
  | nil =>
    have hall := List.rdropWhile_eq_nil_iff.mp htrim dquote List.mem_cons_self
    exact absurd hall (by decide)
  | cons b s =>
    have hpre := List.rdropWhile_prefix (fun b => decide (b = space))
      (dquote :: t.takeWhile fun b => decide (b ≠ semicolon))
    rw [htrim] at hpre
    rw [(List.cons_prefix_cons.mp hpre).1]
    exact List.mem_cons_self

/-- A value in quotes, or a bare one. -/
theorem boundaryValue_iff {v : Bytes} (hv : dquote ∉ v) (rest : Bytes) :
    boundaryValue rest = some v ↔ (∃ tail, rest = dquote :: (v ++ dquote :: tail)) ∨ bareText rest = v := by
  have hbare : ∀ t, bareText (dquote :: t) ≠ v := fun t h => hv (h ▸ dquote_mem_bareText t)
  have hlong : ∀ {c : UInt8} {t : Bytes}, (c = dquote → t = []) →
      ¬ ∃ tail, c :: t = dquote :: (v ++ dquote :: tail) := by
    rintro c t hc ⟨tail, heq⟩
    obtain ⟨rfl, rfl⟩ := List.cons.inj heq
    exact absurd (hc rfl) (List.append_ne_nil_of_right_ne_nil v (List.cons_ne_nil _ _))
  match rest with
  | [] =>
    rw [boundaryValue, Option.some_inj]
    exact (or_iff_right fun ⟨tail, heq⟩ => nomatch heq).symm
  | [c] =>
    rw [boundaryValue, Option.some_inj]
    exact (or_iff_right (hlong fun _ => rfl)).symm
  | c :: d :: rest =>
    rw [boundaryValue]
    split
    · rename_i hc
      subst hc
      rw [quotedText_eq_iff hv, or_iff_left (hbare _)]
      simp
    · rename_i hc
      rw [Option.some_inj]
      exact (or_iff_right (hlong fun h => absurd h hc)).symm

/-- **The boundary is read** from the headers in which it stands behind the first `boundary=`. -/
theorem boundaryOf_iff (header : Bytes) (b : Boundary) :
    boundaryOf header = some b.text ↔ BoundaryIsRead header b.text := by
  have hquote : dquote ∉ b.text := fun h =>
    b.dquote_notMem (List.mem_cons_of_mem _ (List.mem_cons_of_mem _ h))
  have hsemicolon : semicolon ∉ b.text := fun h => absurd (b.chars _ h) (by decide)
  have hbare : ∀ s, bareText s = b.text ↔ _ := fun s => bareText_eq_iff b.nonempty hsemicolon b.end_ne_space
  unfold boundaryOf BoundaryIsRead
  cases cutFirst (asciiBytes "boundary=") header with
  | none => simp
  | some q =>
    simp only [Option.bind_some, Option.some_inj, exists_eq_left']
    rw [← hbare]
    exact boundaryValue_iff hquote q.2

/-- **Main result.** A form comes back from its body, and its boundary from its header, exactly when each part
is apart from the delimiter, has a plain name and a file name that is read, and the boundary stands behind the
first `boundary=` of the header. -/
theorem form_comes_back_iff (f : Form) (h : ContentTypeHeader f.boundary.text) :
    (parse f.boundary.text f.body = f.parts.map FormPart.asPart ∧
        boundaryOf h.text = some f.boundary.text) ↔
      (∀ p ∈ f.parts, p.Apart f.boundary.text ∧ Plain p.name ∧ p.FilenameIsRead) ∧
        BoundaryIsRead h.text f.boundary.text := by
  rw [parse_body_iff, boundaryOf_iff]

example : boundaryOf (asciiBytes "multipart/form-data; boundary=\"a b\"") = some (asciiBytes "a b") := by
  decide

/-! ## A file name that comes first -/

/-- The boundary `X`. -/
def shortBoundary : Boundary where
  text := asciiBytes "X"
  nonempty := List.cons_ne_nil _ _
  length_le := by decide
  chars := List.all_eq_true.mp (by decide)
  end_ne_space := by decide

/-- `multipart/form-data;boundary=X` -/
def shortHeader : ContentTypeHeader shortBoundary.text where
  type := ⟨asciiBytes "multipart", List.cons_ne_nil _ _, List.all_eq_true.mp (by decide)⟩
  subtype := ⟨asciiBytes "form-data", List.cons_ne_nil _ _, List.all_eq_true.mp (by decide)⟩
  params := [
    { before := ⟨[], fun _ h => nomatch h⟩
      after := ⟨[], fun _ h => nomatch h⟩
      key := ⟨asciiBytes "boundary", List.cons_ne_nil _ _, List.all_eq_true.mp (by decide)⟩
      value := .token ⟨asciiBytes "X", List.cons_ne_nil _ _, List.all_eq_true.mp (by decide)⟩ }]
  distinct := by decide
  carries := ⟨_, List.mem_singleton_self _, by decide, rfl⟩

/-- A file `a.txt` in the field `file`, its file name written before the name of the field. -/
def reorderedForm : Form where
  boundary := shortBoundary
  parts := [⟨asciiBytes "file", some (asciiBytes "a.txt"), none, asciiBytes "hello", true⟩]
  apart := by decide

/-- The field is called by the name of the file. -/
theorem filename_is_read_as_name :
    parse shortBoundary.text reorderedForm.body =
        [⟨asciiBytes "a.txt", some (asciiBytes "a.txt"), none, asciiBytes "hello"⟩] ∧
      ¬ ∀ (f : Form) (h : ContentTypeHeader f.boundary.text),
        parse f.boundary.text f.body = f.parts.map FormPart.asPart ∧
          boundaryOf h.text = some f.boundary.text := by
  have hparse : parse shortBoundary.text reorderedForm.body =
      [⟨asciiBytes "a.txt", some (asciiBytes "a.txt"), none, asciiBytes "hello"⟩] := by decide +kernel
  refine ⟨hparse, fun h => ?_⟩
  have hall := (h reorderedForm shortHeader).1
  have hboundary : reorderedForm.boundary = shortBoundary := rfl
  rw [hboundary, hparse] at hall
  exact absurd hall (by decide)

end PlmCore.Dst.Multipart
