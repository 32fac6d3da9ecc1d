/-
Texts that can be cut in another way.

Fields with marks between them are read back by looking for the marks, and go wrong where a field
holds a mark. `Separated` asks that none does; this file says exactly when two texts are the same
although their fields differ: for one mark between two fields, for a list joined by a separator, and
for fields that each stand behind a mark of their own.
-/
import Mathlib.Data.List.Basic

set_option autoImplicit false

namespace PlmCore.Lib

section Cuts

variable {α : Type}

/-! ## One mark -/

/-- **A mark whose first letter is not in the rest of it** stands at the same place in both texts, or
one of the outer fields holds it. -/
theorem append_mark_eq_iff {c : α} {w p p' k k' : List α} (hc : c ∉ w) :
    p ++ c :: (w ++ k) = p' ++ c :: (w ++ k') ↔
      (p = p' ∧ k = k') ∨
        (∃ m, p' = p ++ c :: (w ++ m) ∧ k = m ++ c :: (w ++ k')) ∨
        ∃ m, p = p' ++ c :: (w ++ m) ∧ k' = m ++ c :: (w ++ k) := by
  -- what stands behind the earlier mark up to the later one holds the rest of the mark
  have hbehind : ∀ {x k k' : List α}, w ++ k = x ++ c :: (w ++ k') →
      ∃ m, x = w ++ m ∧ k = m ++ c :: (w ++ k') := by
    intro x k k' h
    obtain ⟨m, hx, hk⟩ | ⟨m, hw, hk⟩ := List.append_eq_append_iff.mp h
    · exact ⟨m, hx, hk⟩
    · cases m with
      | nil =>
        rw [List.append_nil] at hw
        exact ⟨[], by rw [hw, List.append_nil], hk.symm⟩
      | cons a m =>
        obtain ⟨rfl, -⟩ := List.cons.inj hk
        exact absurd (hw ▸ List.mem_append_right x List.mem_cons_self) hc
  constructor
  · intro h
    obtain ⟨x, hp, hk⟩ | ⟨x, hp, hk⟩ := List.append_eq_append_iff.mp h
    · cases x with
      | nil =>
        rw [List.append_nil] at hp
        exact .inl ⟨hp.symm, List.append_cancel_left (List.cons.inj hk).2⟩
      | cons a x =>
        obtain ⟨rfl, hbody⟩ := List.cons.inj hk
        obtain ⟨m, rfl, hm⟩ := hbehind hbody
        exact .inr (.inl ⟨m, hp, hm⟩)
    · cases x with
      | nil =>
        rw [List.append_nil] at hp
        exact .inl ⟨hp, (List.append_cancel_left (List.cons.inj hk).2).symm⟩
      | cons a x =>
        obtain ⟨rfl, hbody⟩ := List.cons.inj hk
        obtain ⟨m, rfl, hm⟩ := hbehind hbody
        exact .inr (.inr ⟨m, hp, hm⟩)
  · rintro (⟨rfl, rfl⟩ | ⟨m, rfl, rfl⟩ | ⟨m, rfl, rfl⟩)
    · rfl
    · simp
    · simp

/-! ## A joined list -/

/-- The fields of a list cut at the separators they hold; no field at all reads as one empty
field. -/
def pieces [BEq α] (sep : α) : List (List α) → List (List α)
  | [] => [[]]
  | fields => fields.flatMap (·.splitOn sep)

/-- The pieces are what the joined list is split into. -/
theorem splitOn_intercalate_eq_pieces [BEq α] [LawfulBEq α] (sep : α) (fields : List (List α)) :
    ([sep].intercalate fields).splitOn sep = pieces sep fields := by
  cases fields with
  | nil => rfl
  | cons field fields =>
    rw [pieces.eq_2 _ _ (List.cons_ne_nil _ _)]
    induction fields generalizing field with
    | nil => simp
    | cons next fields ih =>
      rw [List.intercalate_cons_cons, List.append_assoc, List.singleton_append,
        List.splitOn_append_cons_self, ih]
      rfl

/-- **Joined lists are the same text** exactly when their pieces are the same. -/
theorem intercalate_eq_iff [BEq α] [LawfulBEq α] {sep : α} {fields fields' : List (List α)} :
    [sep].intercalate fields = [sep].intercalate fields' ↔ pieces sep fields = pieces sep fields' := by
  rw [← splitOn_intercalate_eq_pieces, ← splitOn_intercalate_eq_pieces]
  constructor
  · exact congrArg _
  · intro h
    have hback : [sep].intercalate (([sep].intercalate fields).splitOn sep) = [sep].intercalate fields :=
      List.intercalate_splitOn sep
    rw [← hback, h, List.intercalate_splitOn]

/-- Lists of fields without the separator are their own pieces. -/
theorem pieces_eq_self [BEq α] [LawfulBEq α] {sep : α} {fields : List (List α)} (hne : fields ≠ [])
    (h : ∀ field ∈ fields, sep ∉ field) : pieces sep fields = fields := by
  rw [← splitOn_intercalate_eq_pieces, List.splitOn_intercalate sep h hne]

/-- A joined list of two parts. -/
theorem intercalate_append {sep : α} {xs ys : List (List α)} (hxs : xs ≠ []) (hys : ys ≠ []) :
    [sep].intercalate (xs ++ ys) = [sep].intercalate xs ++ sep :: [sep].intercalate ys := by
  induction xs with
  | nil => exact absurd rfl hxs
  | cons x xs ih =>
    cases xs with
    | nil => simp [List.intercalate_cons_of_ne_nil hys]
    | cons x' xs =>
      rw [List.cons_append, List.cons_append, List.intercalate_cons_cons, ← List.cons_append,
        ih (List.cons_ne_nil _ _), List.intercalate_cons_cons]
      simp

/-- **A part between two separators** stands in a text exactly when its pieces stand in a row among
those of the text, the first and the last one of the text apart. -/
theorem between_infix_iff [BEq α] [LawfulBEq α] {sep : α} {part text first last : List α}
    {fields : List (List α)} (htext : text.splitOn sep = first :: (fields ++ [last])) :
    sep :: (part ++ [sep]) <:+: text ↔ part.splitOn sep <:+: fields := by
  constructor
  · rintro ⟨before, after, rfl⟩
    have hsplit : (before ++ sep :: (part ++ [sep]) ++ after).splitOn sep =
        before.splitOn sep ++ (part.splitOn sep ++ after.splitOn sep) := by
      simp only [List.append_assoc, List.cons_append, List.nil_append,
        List.splitOn_append_cons_self]
    rw [hsplit] at htext
    obtain ⟨b, bs, hb⟩ := List.exists_cons_of_ne_nil (List.splitOn_ne_nil sep before)
    obtain ⟨as, a, ha⟩ : ∃ as a, after.splitOn sep = as ++ [a] :=
      ⟨_, _, (List.dropLast_append_getLast (List.splitOn_ne_nil sep after)).symm⟩
    rw [hb, ha, List.cons_append, List.cons.injEq, ← List.append_assoc, ← List.append_assoc] at htext
    exact ⟨bs, as, by rw [← (List.append_inj' htext.2 rfl).1, List.append_assoc]⟩
  · rintro ⟨bs, as, rfl⟩
    -- the text is the pieces before, those of the part, and those after, joined
    refine ⟨[sep].intercalate (first :: bs), [sep].intercalate (as ++ [last]), ?_⟩
    have hjoined := congrArg [sep].intercalate htext
    rw [List.intercalate_splitOn] at hjoined
    have hsplit : first :: (bs ++ part.splitOn sep ++ as ++ [last]) =
        (first :: bs) ++ (part.splitOn sep ++ (as ++ [last])) := by simp
    rw [hjoined, hsplit, intercalate_append (List.cons_ne_nil _ _) (by simp),
      intercalate_append (List.splitOn_ne_nil sep part) (by simp), List.intercalate_splitOn]
    simp

/-! ## Fields behind marks -/

/-- Marks and the fields behind them. -/
def marked (rest : List (List α × List α)) : List α := rest.flatMap fun p => p.1 ++ p.2

variable (ok : List α → Prop)

/-- No two neighbours can be cut anew at the mark between them so that both parts are fit to be
fields. -/
def NoOtherCut : List α → List (List α × List α) → Prop
  | _, [] => True
  | v, (s, w) :: rest =>
    (∀ a b, ok a → ok b → v ++ (s ++ w) = a ++ (s ++ b) → a = v) ∧ NoOtherCut w rest

/-- Some mark occurs again behind its place, and what follows there is fit to be a field. -/
def CutsLater : List (List α × List α) → Prop
  | [] => False
  | (s, w) :: rest => (∃ y b, y ≠ [] ∧ ok b ∧ s ++ w = y ++ (s ++ b)) ∨ CutsLater rest

variable {ok} {v v' x : List α} {rest rest' : List (List α × List α)}

theorem marked_cons (s w : List α) (rest : List (List α × List α)) :
    marked ((s, w) :: rest) = s ++ (w ++ marked rest) := by
  rw [marked, List.flatMap_cons, List.append_assoc]
  rfl

/-- A first mark that comes later in one reading makes some mark occur again. By induction on the
marks: the later one ends behind the next mark, or what is behind it is a field, or the next mark
comes later too. -/
theorem cutsLater_of_longer (hpre : ∀ x y, ok x → ok (x ++ y))
    (hmarks : rest.map (·.1) = rest'.map (·.1)) (hok : ∀ p ∈ rest', ok p.2) (hx : x ≠ [])
    (h : marked rest = x ++ marked rest') : CutsLater ok rest := by
  induction rest generalizing x rest' with
  | nil =>
    exact absurd (List.append_eq_nil_iff.mp h.symm).1 hx
  | cons p rest ih =>
    obtain ⟨s, w⟩ := p
    cases rest' with
    | nil => cases hmarks
    | cons p' rest' =>
      obtain ⟨s', w'⟩ := p'
      obtain ⟨hs, hmarks'⟩ := List.cons.inj hmarks
      obtain rfl : s = s' := hs
      obtain ⟨hw', hok'⟩ := List.forall_mem_cons.mp hok
      rw [marked_cons, marked_cons, ← List.append_assoc, ← List.append_assoc] at h
      obtain ⟨y, hy, hlater⟩ | ⟨b, hb, hrest⟩ := List.append_eq_append_iff.mp h
      · by_cases hne : y ++ w' = []
        · -- the mark itself ends where the first field does
          obtain ⟨hynil, rfl⟩ := List.append_eq_nil_iff.mp hne
          rw [hynil, List.append_nil] at hy
          exact .inl ⟨x, [], hx, hw', by rw [← hy, List.append_nil]⟩
        · exact .inr (ih hmarks' hok' hne (hlater.trans (List.append_assoc ..).symm))
      · obtain ⟨z, hz, -⟩ | ⟨z, hz, hlater⟩ := List.append_eq_append_iff.mp hrest
        · exact .inl ⟨x, b, hx, hz ▸ hpre w' z hw', hb.trans (List.append_assoc ..)⟩
        · by_cases hznil : z = []
          · rw [hznil, List.append_nil] at hz
            exact .inl ⟨x, b, hx, hz ▸ hw', hb.trans (List.append_assoc ..)⟩
          · exact .inr (ih hmarks' hok' hznil hlater)

/-- A mark that occurs again cuts its neighbours anew. -/
theorem NoOtherCut.not_cutsLater (hpre : ∀ x y, ok x → ok (x ++ y)) (h : NoOtherCut ok v rest)
    (hv : ok v) (hok : ∀ p ∈ rest, ok p.2) : ¬ CutsLater ok rest := by
  induction rest generalizing v with
  | nil => exact id
  | cons p rest ih =>
    obtain ⟨s, w⟩ := p
    obtain ⟨hw, hok⟩ := List.forall_mem_cons.mp hok
    rintro (⟨y, b, hy, hb, heq⟩ | hlater)
    · have hcut := h.1 (v ++ y) b (hpre v y hv) hb (by rw [heq, List.append_assoc])
      exact hy (List.append_right_eq_self.mp hcut)
    · exact ih h.2 hw hok hlater

/-- **Fields that cannot be cut anew** are told by their text. -/
theorem NoOtherCut.unique (hpre : ∀ x y, ok x → ok (x ++ y)) (hsuf : ∀ x y, ok y → ok (x ++ y))
    (hcut : NoOtherCut ok v rest) (hv : ok v) (hok : ∀ p ∈ rest, ok p.2)
    (hv' : ok v') (hok' : ∀ p ∈ rest', ok p.2) (hmarks : rest.map (·.1) = rest'.map (·.1))
    (h : v ++ marked rest = v' ++ marked rest') : v = v' ∧ rest = rest' := by
  induction rest generalizing v v' rest' with
  | nil =>
    rw [List.map_eq_nil_iff.mp hmarks.symm] at h ⊢
    exact ⟨List.append_cancel_right h, rfl⟩
  | cons p rest ih =>
    obtain ⟨s, w⟩ := p
    cases rest' with
    | nil => cases hmarks
    | cons p' rest' =>
      obtain ⟨s', w'⟩ := p'
      obtain ⟨hs, hmarks'⟩ := List.cons.inj hmarks
      obtain rfl : s = s' := hs
      obtain ⟨hw, hrest⟩ := List.forall_mem_cons.mp hok
      obtain ⟨hw', hrest'⟩ := List.forall_mem_cons.mp hok'
      have hsame : v = v' → v = v' ∧ (s, w) :: rest = (s, w') :: rest' := by
        rintro rfl
        rw [marked_cons, marked_cons] at h
        obtain ⟨rfl, rfl⟩ := ih hcut.2 hw hrest hw' hrest' hmarks'
          (List.append_cancel_left (List.append_cancel_left h))
        exact ⟨rfl, rfl⟩
      obtain ⟨x, hx, hlonger⟩ | ⟨x, hx, hshorter⟩ := List.append_eq_append_iff.mp h
      · by_cases hxnil : x = []
        · rw [hxnil, List.append_nil] at hx
          exact hsame hx.symm
        · -- the first mark comes later in the other reading
          exact absurd (cutsLater_of_longer hpre hmarks hok' hxnil hlonger)
            (hcut.not_cutsLater hpre hv hok)
      · by_cases hxnil : x = []
        · rw [hxnil, List.append_nil] at hx
          exact hsame hx
        · -- it comes earlier, so the field in front holds it
          rw [marked_cons, marked_cons, ← List.append_assoc x] at hshorter
          obtain ⟨z, hz, -⟩ | ⟨z, hz, -⟩ := List.append_eq_append_iff.mp hshorter
          · have hcut' := hcut.1 v' (z ++ w) hv' (hsuf z w hw) (by
              rw [hx, List.append_assoc, ← List.append_assoc x, hz, List.append_assoc])
            rw [hx] at hcut'
            exact absurd (List.append_right_eq_self.mp hcut'.symm) hxnil
          · have hlength := congrArg List.length hz
            have hpos := List.length_pos_of_ne_nil hxnil
            simp only [List.length_append] at hlength
            omega

/-- Neighbours that can be cut anew give other fields with the same text. -/
theorem exists_of_not_noOtherCut (hv : ok v) (hok : ∀ p ∈ rest, ok p.2) (h : ¬ NoOtherCut ok v rest) :
    ∃ v' rest', ok v' ∧ (∀ p ∈ rest', ok p.2) ∧ rest.map (·.1) = rest'.map (·.1) ∧
      v ++ marked rest = v' ++ marked rest' ∧ ¬ (v = v' ∧ rest = rest') := by
  induction rest generalizing v with
  | nil => exact absurd trivial h
  | cons p rest ih =>
    obtain ⟨s, w⟩ := p
    obtain ⟨hw, hrest⟩ := List.forall_mem_cons.mp hok
    by_cases hfirst : ∀ a b, ok a → ok b → v ++ (s ++ w) = a ++ (s ++ b) → a = v
    · obtain ⟨w', rest', hw', hrest', hmarks, htext, hne⟩ := ih hw hrest fun hlater => h ⟨hfirst, hlater⟩
      refine ⟨v, (s, w') :: rest', hv, List.forall_mem_cons.mpr ⟨hw', hrest'⟩, ?_, ?_, ?_⟩
      · rw [List.map_cons, List.map_cons, hmarks]
      · rw [marked_cons, marked_cons, htext]
      · rintro ⟨-, heq⟩
        obtain ⟨hpair, hlist⟩ := List.cons.inj heq
        exact hne ⟨(Prod.mk.inj hpair).2, hlist⟩
    · push Not at hfirst
      obtain ⟨a, b, ha, hb, heq, hne⟩ := hfirst
      refine ⟨a, (s, b) :: rest, ha, List.forall_mem_cons.mpr ⟨hb, hrest⟩, rfl, ?_, fun hsame =>
        hne hsame.1.symm⟩
      rw [marked_cons, marked_cons, ← List.append_assoc s, ← List.append_assoc v, heq]
      simp only [List.append_assoc]

end Cuts

end PlmCore.Lib
