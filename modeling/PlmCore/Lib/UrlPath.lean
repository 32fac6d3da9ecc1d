/-
The path of a URL with a special scheme, as the URL standard parses it: cut into segments at
`/` and `\`, the dot segments removed on the way. A `..` takes back the segment before it, if
there is one, and a dot segment at the end leaves an empty segment.

`removeDotSegments_head_iff` says which of the written segments stands first afterwards,
without running the parser: everything before it was taken back, and nothing behind it takes
back more than it brought.
-/
import Mathlib.Data.List.Infix
import PlmCore.Lib.Separated
import Mathlib.Tactic.Common

set_option autoImplicit false

namespace PlmCore.Lib.UrlPath

/-! ## Segments -/

abbrev Segment := List Char

/-- A special scheme separates by both slashes. -/
def isSeparator (c : Char) : Bool := c == '/' || c == '\\'

/-- `.`, also written `%2e`. -/
def isSingleDot (seg : Segment) : Bool :=
  seg.map Char.toLower ∈ [".".toList, "%2e".toList]

/-- `..`, each dot also written `%2e`. -/
def isDoubleDot (seg : Segment) : Bool :=
  seg.map Char.toLower ∈ ["..".toList, ".%2e".toList, "%2e.".toList, "%2e%2e".toList]

/-- A segment that names something. -/
def isOrdinary (seg : Segment) : Bool := !isSingleDot seg && !isDoubleDot seg

/-- The segments as written, after the separator the path starts with. -/
def segments : List Char → List Segment
  | [] => [[]]
  | c :: path => if isSeparator c then path.splitOnP isSeparator else (c :: path).splitOnP isSeparator

/-- The text of a path. -/
def pathText (path : List Segment) : List Char := path.flatMap ('/' :: ·)

/-! ## Removing the dot segments -/

/-- One segment that is not the last. -/
def pushSegment (path : List Segment) (seg : Segment) : List Segment :=
  if isDoubleDot seg then path.dropLast
  else if isSingleDot seg then path
  else path ++ [seg]

/-- The last segment: a dot segment leaves an empty one. -/
def pushLast (path : List Segment) (seg : Segment) : List Segment :=
  if isDoubleDot seg then path.dropLast ++ [[]]
  else if isSingleDot seg then path ++ [[]]
  else path ++ [seg]

/-- The segments of the parsed path, read after those of `path`. -/
def removeDotSegments : List Segment → List Segment → List Segment
  | path, [] => path
  | path, [seg] => pushLast path seg
  | path, seg :: next :: segs => removeDotSegments (pushSegment path seg) (next :: segs)

/-- The path a server receives. -/
def normalize (path : List Char) : List Char := pathText (removeDotSegments [] (segments path))

/-- The walk over the segments as if more of them followed. -/
def walk (path segs : List Segment) : List Segment := segs.foldl pushSegment path

theorem walk_append (path segs more : List Segment) :
    walk path (segs ++ more) = walk (walk path segs) more := List.foldl_append

theorem walk_concat (path segs : List Segment) (seg : Segment) :
    walk path (segs ++ [seg]) = pushSegment (walk path segs) seg := by
  rw [walk_append]
  rfl

/-- Only the last segment is read differently. -/
theorem removeDotSegments_concat (path segs : List Segment) (seg : Segment) :
    removeDotSegments path (segs ++ [seg]) = pushLast (walk path segs) seg := by
  induction segs generalizing path with
  | nil => rfl
  | cons x segs ih =>
    cases hsegs : segs ++ [seg] with
    | nil => simp at hsegs
    | cons y ys =>
      rw [List.cons_append, hsegs, removeDotSegments, ← hsegs, ih]
      rfl

theorem pushLast_eq (path : List Segment) (seg : Segment) :
    pushLast path seg = pushSegment path seg ++ (if isOrdinary seg then [] else [[]]) := by
  unfold pushLast pushSegment isOrdinary
  cases isDoubleDot seg <;> cases isSingleDot seg <;> simp

/-! ## Which segment stands first -/

/-- The number of segments that name something. -/
def ordinaries (segs : List Segment) : Nat := segs.countP isOrdinary

/-- The number of `..`. -/
def doubleDots (segs : List Segment) : Nat := segs.countP isDoubleDot

/-- From no point on are there more than `k` names beyond the `..` that take them back. -/
def TakenBack (k : Nat) (segs : List Segment) : Prop :=
  ∀ suf, suf <:+ segs → ordinaries suf ≤ doubleDots suf + k

/-- Up to no point are there more than `k` `..` beyond the names they take back. -/
def StaysAbove (k : Nat) (segs : List Segment) : Prop :=
  ∀ pre, pre <+: segs → doubleDots pre ≤ ordinaries pre + k

theorem ordinaries_concat (segs : List Segment) (seg : Segment) :
    ordinaries (segs ++ [seg]) = ordinaries segs + (if isOrdinary seg then 1 else 0) := by
  simp [ordinaries]

theorem doubleDots_concat (segs : List Segment) (seg : Segment) :
    doubleDots (segs ++ [seg]) = doubleDots segs + (if isDoubleDot seg then 1 else 0) := by
  simp [doubleDots]

theorem takenBack_concat {k : Nat} {segs : List Segment} {seg : Segment} :
    TakenBack k (segs ++ [seg]) ↔ ∀ suf, suf <:+ segs →
      ordinaries suf + (if isOrdinary seg then 1 else 0)
        ≤ doubleDots suf + (if isDoubleDot seg then 1 else 0) + k := by
  constructor
  · intro h suf hsuf
    have h := h (suf ++ [seg]) (List.suffix_append_self_iff.mpr hsuf)
    rw [ordinaries_concat, doubleDots_concat] at h
    exact h
  · intro h suf hsuf
    rcases List.suffix_concat_iff.mp hsuf with rfl | ⟨suf, rfl, hsuf'⟩
    · simp [ordinaries, doubleDots]
    · rw [ordinaries_concat, doubleDots_concat]
      exact h suf hsuf'

theorem isOrdinary_of_isDoubleDot {seg : Segment} (h : isDoubleDot seg = true) :
    isOrdinary seg = false := by
  simp [isOrdinary, h]

/-- How far the walk is from the root. -/
theorem length_walk_le_iff (segs : List Segment) :
    ∀ k : Nat, (walk [] segs).length ≤ k ↔ TakenBack k segs := by
  -- the segments are taken from the right: the last one changes every suffix by the same
  induction segs using List.reverseRecOn with
  | nil =>
    intro k
    simp [walk, TakenBack, ordinaries, doubleDots]
  | append_singleton segs seg ih =>
    intro k
    rw [walk_concat, takenBack_concat, pushSegment]
    by_cases hdd : isDoubleDot seg = true
    · have hk := ih (k + 1)
      rw [if_pos hdd, List.length_dropLast]
      simp only [hdd, isOrdinary_of_isDoubleDot hdd, if_true, Bool.false_eq_true, if_false]
      unfold TakenBack at hk
      constructor
      · intro h suf hsuf
        have := hk.mp (by omega) suf hsuf
        omega
      · intro h
        have := hk.mpr fun suf hsuf => by have := h suf hsuf; omega
        omega
    · rw [if_neg hdd]
      by_cases hsd : isSingleDot seg = true
      · rw [if_pos hsd]
        simpa [isOrdinary, hdd, hsd, TakenBack] using ih k
      · have hord : isOrdinary seg = true := by simp [isOrdinary, hdd, hsd]
        rw [if_neg hsd, List.length_append, List.length_singleton]
        simp only [hord, hdd, if_true, Bool.false_eq_true, if_false]
        cases k with
        | zero =>
          constructor
          · intro h
            omega
          · intro h
            have := h [] List.nil_suffix
            simp [ordinaries, doubleDots] at this
        | succ k =>
          have hk := ih k
          unfold TakenBack at hk
          constructor
          · intro h suf hsuf
            have := hk.mp (by omega) suf hsuf
            omega
          · intro h
            have := hk.mpr fun suf hsuf => by have := h suf hsuf; omega
            omega

/-- The walk is back at the root. -/
theorem walk_eq_nil_iff {segs : List Segment} : walk [] segs = [] ↔ TakenBack 0 segs := by
  rw [← length_walk_le_iff, Nat.le_zero, List.length_eq_zero_iff]

theorem staysAbove_concat {k : Nat} {segs : List Segment} {seg : Segment} :
    StaysAbove k (segs ++ [seg]) ↔ StaysAbove k segs
      ∧ doubleDots (segs ++ [seg]) ≤ ordinaries (segs ++ [seg]) + k := by
  constructor
  · intro h
    exact ⟨fun pre hpre => h pre (hpre.trans (List.prefix_append _ _)), h _ List.prefix_rfl⟩
  · rintro ⟨h, hall⟩ pre hpre
    rcases List.prefix_concat_iff.mp hpre with rfl | hpre
    · exact hall
    · exact h pre hpre

/-- A walk that never takes back its first segment keeps it. -/
theorem walk_of_staysAbove (s : Segment) {segs : List Segment} (h : StaysAbove 0 segs) :
    ∃ t, walk [s] segs = s :: t ∧ t.length + doubleDots segs = ordinaries segs := by
  induction segs using List.reverseRecOn with
  | nil => exact ⟨[], rfl, rfl⟩
  | append_singleton segs seg ih =>
    obtain ⟨hsegs, hall⟩ := staysAbove_concat.mp h
    obtain ⟨t, ht, hlen⟩ := ih hsegs
    rw [ordinaries_concat, doubleDots_concat] at hall ⊢
    rw [walk_concat, ht, pushSegment]
    by_cases hdd : isDoubleDot seg = true
    · -- the segment that is taken back is one of `t`
      simp only [hdd, isOrdinary_of_isDoubleDot hdd, if_true, Bool.false_eq_true, if_false]
        at hall ⊢
      cases t with
      | nil =>
        simp only [List.length_nil] at hlen
        omega
      | cons a t =>
        refine ⟨(a :: t).dropLast, rfl, ?_⟩
        simp only [List.length_dropLast, List.length_cons] at hlen ⊢
        omega
    · rw [if_neg hdd]
      by_cases hsd : isSingleDot seg = true
      · rw [if_pos hsd]
        exact ⟨t, rfl, by simpa [isOrdinary, hdd, hsd] using hlen⟩
      · have hord : isOrdinary seg = true := by simp [isOrdinary, hdd, hsd]
        rw [if_neg hsd]
        refine ⟨t ++ [seg], rfl, ?_⟩
        simp only [hord, hdd, if_true, Bool.false_eq_true, if_false, List.length_append,
          List.length_singleton]
        omega

/-- The segment `s` among the written ones, everything before it taken back and nothing
behind it taking it back. -/
def StandsFirst (s : Segment) (segs post : List Segment) : Prop :=
  ∃ pre, segs = pre ++ s :: post ∧ isOrdinary s = true ∧ TakenBack 0 pre ∧ StaysAbove 0 post

theorem walk_of_standsFirst {s : Segment} {segs post : List Segment} (h : StandsFirst s segs post) :
    ∃ t, walk [] segs = s :: t ∧ t.length + doubleDots post = ordinaries post := by
  obtain ⟨pre, rfl, hord, hpre, hpost⟩ := h
  rw [walk_append, walk_eq_nil_iff.mpr hpre]
  have hs : walk [] (s :: post) = walk [s] post := by
    simp only [isOrdinary, Bool.and_eq_true, Bool.not_eq_true'] at hord
    simp [walk, pushSegment, hord]
  rw [hs]
  exact walk_of_staysAbove s hpost

/-- What the walk leaves first was written, and stands first. -/
theorem standsFirst_of_walk {s : Segment} (segs : List Segment) :
    ∀ t, walk [] segs = s :: t →
      ∃ post, StandsFirst s segs post ∧ t.length + doubleDots post = ordinaries post := by
  induction segs using List.reverseRecOn with
  | nil => intro t h; cases h
  | append_singleton segs seg ih =>
    intro t h
    rw [walk_concat, pushSegment] at h
    -- a segment that is not first is added behind the one that is
    have hmore : ∀ t', walk [] segs = s :: t' →
        t'.length + (if isOrdinary seg then 1 else 0)
          = t.length + (if isDoubleDot seg then 1 else 0) →
        ∃ post, StandsFirst s (segs ++ [seg]) post ∧ t.length + doubleDots post = ordinaries post := by
      intro t' hwalk hlen
      obtain ⟨post, ⟨pre, hsegs, hord, hpre, hpost⟩, hcount⟩ := ih t' hwalk
      refine ⟨post ++ [seg], ⟨pre, by simp [hsegs], hord, hpre, staysAbove_concat.mpr ⟨hpost, ?_⟩⟩, ?_⟩
      · rw [ordinaries_concat, doubleDots_concat]
        omega
      · rw [ordinaries_concat, doubleDots_concat]
        omega
    by_cases hdd : isDoubleDot seg = true
    · rw [if_pos hdd] at h
      obtain ⟨t', a, hwalk, rfl⟩ : ∃ t' a, walk [] segs = s :: t' ∧ t' = t ++ [a] := by
        have hne : walk [] segs ≠ [] := by
          intro hnil
          rw [hnil] at h
          cases h
        refine ⟨t ++ [(walk [] segs).getLast hne], (walk [] segs).getLast hne, ?_, rfl⟩
        rw [← List.cons_append, ← h, List.dropLast_append_getLast]
      refine hmore _ hwalk ?_
      simp [hdd, isOrdinary_of_isDoubleDot hdd]
    · rw [if_neg hdd] at h
      by_cases hsd : isSingleDot seg = true
      · rw [if_pos hsd] at h
        exact hmore t h (by simp [isOrdinary, hdd, hsd])
      · have hord : isOrdinary seg = true := by simp [isOrdinary, hdd, hsd]
        rw [if_neg hsd] at h
        cases hwalk : walk [] segs with
        | nil =>
          rw [hwalk] at h
          obtain ⟨rfl, rfl⟩ : seg = s ∧ t = [] := by simpa [eq_comm] using h
          exact ⟨[], ⟨segs, rfl, hord, walk_eq_nil_iff.mp hwalk, by
            simp [StaysAbove, ordinaries, doubleDots]⟩, rfl⟩
        | cons a t' =>
          rw [hwalk] at h
          obtain ⟨rfl, rfl⟩ : a = s ∧ t' ++ [seg] = t := by simpa using h
          exact hmore t' hwalk (by simp [hord, hdd])

/-- The parsed path is the walk, and an empty segment after a dot segment at the end. -/
theorem removeDotSegments_eq_walk (segs : List Segment) (seg : Segment) :
    removeDotSegments [] (segs ++ [seg])
      = walk [] (segs ++ [seg]) ++ (if isOrdinary seg then [] else [[]]) := by
  rw [removeDotSegments_concat, pushLast_eq, walk_concat]

/-- Something follows the first segment if something was written behind it. -/
theorem tail_eq_nil_iff {s : Segment} {segs post : List Segment} {seg : Segment} {t : List Segment}
    (h : StandsFirst s (segs ++ [seg]) post) (hlen : t.length + doubleDots post = ordinaries post) :
    t ++ (if isOrdinary seg then [] else [[]]) = [] ↔ post = [] := by
  obtain ⟨pre, hsegs, hord, -, hpost⟩ := h
  constructor
  · intro ht
    obtain ⟨rfl, hseg⟩ : t = [] ∧ isOrdinary seg = true := by
      simpa using List.append_eq_nil_iff.mp ht
    rcases List.eq_nil_or_concat post with hnil | ⟨more, last, hlast⟩
    · exact hnil
    · -- the last segment names something, so a `..` too many stands before it
      rw [List.concat_eq_append] at hlast
      subst hlast
      have hsegs' : segs ++ [seg] = (pre ++ s :: more) ++ [last] := by simpa using hsegs
      have hlast : last = seg := (List.append_inj' hsegs' rfl).2 |> List.singleton_inj.mp |> Eq.symm
      subst hlast
      obtain ⟨hmore, -⟩ := staysAbove_concat.mp hpost
      have hmore := hmore more List.prefix_rfl
      have hdd : isDoubleDot last = false := by
        simp only [isOrdinary, Bool.and_eq_true, Bool.not_eq_true'] at hseg
        exact hseg.2
      rw [ordinaries_concat, doubleDots_concat] at hlen
      simp only [hseg, hdd, if_true, Bool.false_eq_true, if_false, List.length_nil] at hlen
      omega
  · intro hnil
    subst hnil
    have hseg : s = seg := (List.append_inj' hsegs rfl).2 |> List.singleton_inj.mp |> Eq.symm
    have ht : t = [] := List.length_eq_zero_iff.mp (by simpa [ordinaries, doubleDots] using hlen)
    subst hseg ht
    simp [hord]

/-- **The first segment of a parsed path**, from the path to the segment that was written. -/
theorem standsFirst_of_removeDotSegments {s : Segment} (hs : s ≠ []) {segs t : List Segment}
    (h : removeDotSegments [] segs = s :: t) :
    ∃ post, StandsFirst s segs post ∧ (t = [] ↔ post = []) := by
  rcases List.eq_nil_or_concat segs with rfl | ⟨init, seg, hsegs⟩
  · cases h
  · rw [List.concat_eq_append] at hsegs
    subst hsegs
    rw [removeDotSegments_eq_walk] at h
    cases hwalk : walk [] (init ++ [seg]) with
    | nil =>
      -- only the empty segment could stand first
      rw [hwalk] at h
      split at h
      · cases h
      · exact absurd (List.cons.inj h).1.symm hs
    | cons a t' =>
      rw [hwalk, List.cons_append] at h
      obtain ⟨rfl, rfl⟩ := List.cons.inj h
      obtain ⟨post, hpost, hlen⟩ := standsFirst_of_walk _ t' hwalk
      exact ⟨post, hpost, tail_eq_nil_iff hpost hlen⟩

/-- **The first segment of a parsed path**, from the segment that was written to the path. -/
theorem removeDotSegments_of_standsFirst {s : Segment} {segs post : List Segment}
    (h : StandsFirst s segs post) :
    ∃ t, removeDotSegments [] segs = s :: t ∧ (t = [] ↔ post = []) := by
  obtain ⟨t, hwalk, hlen⟩ := walk_of_standsFirst h
  rcases List.eq_nil_or_concat segs with rfl | ⟨init, seg, hsegs⟩
  · cases hwalk
  · rw [List.concat_eq_append] at hsegs
    subst hsegs
    refine ⟨t ++ (if isOrdinary seg then [] else [[]]), ?_, tail_eq_nil_iff h hlen⟩
    rw [removeDotSegments_eq_walk, hwalk, List.cons_append]

/-! ## The text of the parsed path -/

theorem mem_splitOnP {path : List Char} {seg : Segment} (h : seg ∈ path.splitOnP isSeparator) :
    ∀ c ∈ seg, isSeparator c = false := by
  induction path generalizing seg with
  | nil =>
    rw [List.splitOnP_nil, List.mem_singleton] at h
    simp [h]
  | cons x path ih =>
    rw [List.splitOnP_cons_eq_if_modifyHead] at h
    split at h
    · rcases List.mem_cons.mp h with rfl | h
      · simp
      · exact ih h
    · rename_i hx
      cases hsplit : path.splitOnP isSeparator with
      | nil => exact absurd hsplit (List.splitOnP_ne_nil _ _)
      | cons first others =>
        rw [hsplit] at h ih
        rcases List.mem_cons.mp h with rfl | h
        · intro c hc
          rcases List.mem_cons.mp hc with rfl | hc
          · simpa using hx
          · exact ih (by simp) c hc
        · exact ih (by simp [h])

theorem mem_segments {path : List Char} {seg : Segment} (h : seg ∈ segments path) :
    ∀ c ∈ seg, isSeparator c = false := by
  unfold segments at h
  split at h
  · rw [List.mem_singleton] at h
    simp [h]
  · split at h <;> exact mem_splitOnP h

/-- The parsed path has written segments and empty ones. -/
theorem mem_removeDotSegments {segs : List Segment} :
    ∀ {path : List Segment} {seg : Segment}, seg ∈ removeDotSegments path segs →
      seg ∈ path ∨ seg ∈ segs ∨ seg = [] := by
  induction segs with
  | nil => intro path seg h; exact Or.inl h
  | cons x segs ih =>
    intro path seg h
    cases segs with
    | nil =>
      rw [removeDotSegments, pushLast_eq, List.mem_append] at h
      rcases h with h | h
      · unfold pushSegment at h
        split at h
        · exact Or.inl (List.mem_of_mem_dropLast h)
        · split at h
          · exact Or.inl h
          · rcases List.mem_append.mp h with h | h
            · exact Or.inl h
            · exact Or.inr (Or.inl h)
      · split at h
        · cases h
        · exact Or.inr (Or.inr (List.mem_singleton.mp h))
    | cons y segs =>
      rw [removeDotSegments] at h
      rcases ih h with h | h | h
      · unfold pushSegment at h
        split at h
        · exact Or.inl (List.mem_of_mem_dropLast h)
        · split at h
          · exact Or.inl h
          · rcases List.mem_append.mp h with h | h
            · exact Or.inl h
            · exact Or.inr (Or.inl (by simp [List.mem_singleton.mp h]))
      · exact Or.inr (Or.inl (by simp [h]))
      · exact Or.inr (Or.inr h)

theorem not_mem_of_mem_removeDotSegments {path : List Char} {seg : Segment}
    (h : seg ∈ removeDotSegments [] (segments path)) : '/' ∉ seg := by
  intro hslash
  rcases mem_removeDotSegments h with h | h | rfl
  · cases h
  · exact absurd (mem_segments h _ hslash) (by decide)
  · cases hslash

theorem pathText_cons (seg : Segment) (path : List Segment) :
    pathText (seg :: path) = '/' :: (seg ++ pathText path) := by
  simp [pathText]

/-- A path that is read under a directory. -/
theorem prefix_pathText_iff {s : Segment} (hs : '/' ∉ s) {path : List Segment}
    (hpath : ∀ seg ∈ path, '/' ∉ seg) :
    ('/' :: (s ++ ['/'])) <+: pathText path ↔ ∃ t, t ≠ [] ∧ path = s :: t := by
  constructor
  · rintro ⟨r, hr⟩
    cases path with
    | nil => cases hr
    | cons seg t =>
      rw [pathText_cons, List.cons_append, List.cons.injEq, List.append_assoc,
        List.singleton_append] at hr
      have hfree : ∀ z : Segment, '/' ∉ z → ∀ a ∈ z, a ∉ ({'/'} : Set Char) := by
        rintro z hz a ha rfl
        exact hz ha
      cases t with
      | nil =>
        -- the slash behind `s` would belong to the only segment
        have hmem : '/' ∈ seg := by
          have hseg : s ++ '/' :: r = seg := by simpa [pathText] using hr.2
          rw [← hseg]
          simp
        exact absurd hmem (hpath seg (by simp))
      | cons next t =>
        rw [pathText_cons] at hr
        obtain ⟨rfl, -, -⟩ := fields_split (hfree s hs) (hfree seg (hpath seg (by simp)))
          rfl rfl hr.2
        exact ⟨next :: t, by simp, rfl⟩
  · rintro ⟨t, ht, rfl⟩
    cases t with
    | nil => exact absurd rfl ht
    | cons next t =>
      rw [pathText_cons, pathText_cons]
      exact ⟨next ++ pathText t, by simp⟩

/-- A path that is a file or read under a directory. -/
theorem pathText_eq_or_prefix_iff {s : Segment} (hs : '/' ∉ s) {path : List Segment}
    (hpath : ∀ seg ∈ path, '/' ∉ seg) :
    (pathText path = '/' :: s ∨ ('/' :: (s ++ ['/'])) <+: pathText path) ↔ ∃ t, path = s :: t := by
  rw [prefix_pathText_iff hs hpath]
  constructor
  · rintro (h | ⟨t, -, rfl⟩)
    · cases path with
      | nil => cases h
      | cons seg t =>
        rw [pathText_cons, List.cons.injEq] at h
        cases t with
        | nil => exact ⟨[], by simpa [pathText] using h.2⟩
        | cons next t =>
          have hmem : '/' ∈ s := by
            rw [← h.2, pathText_cons]
            simp
          exact absurd hmem hs
    · exact ⟨t, rfl⟩
  · rintro ⟨t, rfl⟩
    cases t with
    | nil => exact Or.inl (by simp [pathText])
    | cons next t => exact Or.inr ⟨next :: t, by simp, rfl⟩

/-- **A path under a directory**, told from the segments as written. -/
theorem prefix_normalize_iff {s : Segment} (hne : s ≠ []) (hs : '/' ∉ s) {path : List Char} :
    ('/' :: (s ++ ['/'])) <+: normalize path
      ↔ ∃ post, post ≠ [] ∧ StandsFirst s (segments path) post := by
  rw [normalize, prefix_pathText_iff hs fun seg h => not_mem_of_mem_removeDotSegments h]
  constructor
  · rintro ⟨t, ht, h⟩
    obtain ⟨post, hpost, hnil⟩ := standsFirst_of_removeDotSegments hne h
    exact ⟨post, fun h => ht (hnil.mpr h), hpost⟩
  · rintro ⟨post, hne', hpost⟩
    obtain ⟨t, h, hnil⟩ := removeDotSegments_of_standsFirst hpost
    exact ⟨t, fun h => hne' (hnil.mp h), h⟩

/-- **A file or a path under a directory**, told from the segments as written. -/
theorem normalize_eq_or_prefix_iff {s : Segment} (hne : s ≠ []) (hs : '/' ∉ s) {path : List Char} :
    (normalize path = '/' :: s ∨ ('/' :: (s ++ ['/'])) <+: normalize path)
      ↔ ∃ post, StandsFirst s (segments path) post := by
  rw [normalize, pathText_eq_or_prefix_iff hs fun seg h => not_mem_of_mem_removeDotSegments h]
  constructor
  · rintro ⟨t, h⟩
    obtain ⟨post, hpost, -⟩ := standsFirst_of_removeDotSegments hne h
    exact ⟨post, hpost⟩
  · rintro ⟨post, hpost⟩
    obtain ⟨t, h, -⟩ := removeDotSegments_of_standsFirst hpost
    exact ⟨t, h⟩

end PlmCore.Lib.UrlPath
