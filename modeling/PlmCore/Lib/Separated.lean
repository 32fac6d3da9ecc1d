/-
Unique readability of texts built from fields and separators.

A serialiser that writes fields one after the other, each closed by a separator, can be
read back when no field contains the separator that closes it. `Readable` states that
property of a writer together with whatever is written after it, so that readable
writers compose: a field closed by a separator, a pair of writers, the image under an
injective map, a list closed by a mark. `fields_split` is the one fact everything rests
on: a text is cut in only one way at its first separator.

The file is about lists over any alphabet.
-/
import Mathlib.Data.List.TakeWhile
import Mathlib.Data.Set.Basic
import Mathlib.Tactic.Common

set_option autoImplicit false

namespace PlmCore.Lib

variable {α β γ : Type}

/-- **The first separator cuts a text in one way.** If neither `x` nor `y` contains an
element of `sep`, and both are followed by one, they are equal and so is what follows. -/
theorem fields_split {sep : Set α} {x y r r' : List α} {d d' : α}
    (hx : ∀ a ∈ x, a ∉ sep) (hy : ∀ a ∈ y, a ∉ sep) (hd : d ∈ sep) (hd' : d' ∈ sep)
    (h : x ++ d :: r = y ++ d' :: r') : x = y ∧ d = d' ∧ r = r' := by
  induction x generalizing y with
  | nil =>
    cases y with
    | nil =>
      simp only [List.nil_append, List.cons.injEq] at h
      exact ⟨rfl, h.1, h.2⟩
    | cons b y =>
      simp only [List.nil_append, List.cons_append, List.cons.injEq] at h
      exact absurd (h.1 ▸ hd) (hy b (by simp))
  | cons a x ih =>
    cases y with
    | nil =>
      simp only [List.nil_append, List.cons_append, List.cons.injEq] at h
      exact absurd (h.1 ▸ hd') (hx a (by simp))
    | cons b y =>
      simp only [List.cons_append, List.cons.injEq] at h
      obtain ⟨rfl, h⟩ := h
      obtain ⟨rfl, hrest⟩ :=
        ih (fun c hc => hx c (by simp [hc])) (fun c hc => hy c (by simp [hc])) h
      exact ⟨rfl, hrest⟩

/-- Two fields closed by different separators, neither containing either, differ. -/
theorem fields_ne {x y : List α} (r r' : List α) {d d' : α} (hx : d ∉ x ∧ d' ∉ x)
    (hy : d ∉ y ∧ d' ∉ y) (hne : d ≠ d') : x ++ d :: r ≠ y ++ d' :: r' := by
  have hfree : ∀ z : List α, d ∉ z ∧ d' ∉ z → ∀ a ∈ z, a ∉ ({d, d'} : Set α) := by
    rintro z hz a ha (rfl | rfl)
    · exact hz.1 ha
    · exact hz.2 ha
  intro h
  exact hne (fields_split (hfree x hx) (hfree y hy) (Or.inl rfl) (Or.inr rfl) h).2.1

/-! ## Readable writers -/

/-- The values in `S` can be read back from what `enc` writes, whatever follows. -/
def Readable (S : Set β) (enc : β → List α) : Prop :=
  ∀ b ∈ S, ∀ b' ∈ S, ∀ r r', enc b ++ r = enc b' ++ r' → b = b' ∧ r = r'

/-- Fewer values are still readable. -/
theorem Readable.mono {S T : Set β} {enc : β → List α} (h : Readable T enc) (hST : S ⊆ T) :
    Readable S enc :=
  fun b hb b' hb' => h b (hST hb) b' (hST hb')

/-- A field closed by a separator it does not contain. -/
theorem Readable.field (d : α) : Readable {x : List α | d ∉ x} fun x => x ++ [d] := by
  intro x hx y hy r r' h
  simp only [List.append_assoc, List.singleton_append] at h
  have hnot : ∀ z : List α, d ∉ z → ∀ a ∈ z, a ∉ ({d} : Set α) := by
    rintro z hz a ha rfl
    exact hz ha
  obtain ⟨rfl, -, rfl⟩ := fields_split (hnot x hx) (hnot y hy) rfl rfl h
  exact ⟨rfl, rfl⟩

/-- Two readable writers, one after the other. -/
theorem Readable.pair {S : Set β} {T : Set γ} {f : β → List α} {g : γ → List α}
    (hf : Readable S f) (hg : Readable T g) :
    Readable (S ×ˢ T) fun p : β × γ => f p.1 ++ g p.2 := by
  rintro ⟨b, c⟩ ⟨hb, hc⟩ ⟨b', c'⟩ ⟨hb', hc'⟩ r r' h
  simp only [List.append_assoc] at h
  obtain ⟨rfl, htail⟩ := hf b hb b' hb' _ _ h
  obtain ⟨rfl, rfl⟩ := hg c hc c' hc' _ _ htail
  exact ⟨rfl, rfl⟩

/-- A list of readable items, closed by a mark no item can be mistaken for. -/
theorem Readable.list {S : Set β} {enc : β → List α} (h : Readable S enc) {mark : List α}
    (hmark : ∀ b ∈ S, ∀ r r', enc b ++ r ≠ mark ++ r') :
    Readable {bs : List β | ∀ b ∈ bs, b ∈ S} fun bs => bs.flatMap enc ++ mark := by
  intro bs
  induction bs with
  | nil =>
    rintro - bs' hbs' r r' he
    cases bs' with
    | nil =>
      simp only [List.flatMap_nil, List.nil_append, List.append_cancel_left_eq] at he
      exact ⟨rfl, he⟩
    | cons b' bs' =>
      simp only [List.flatMap_nil, List.nil_append, List.flatMap_cons, List.append_assoc] at he
      exact absurd he.symm (hmark b' (hbs' b' (by simp)) _ _)
  | cons b bs ih =>
    intro hbs bs' hbs' r r' he
    cases bs' with
    | nil =>
      simp only [List.flatMap_nil, List.nil_append, List.flatMap_cons, List.append_assoc] at he
      exact absurd he (hmark b (hbs b (by simp)) _ _)
    | cons b' bs' =>
      simp only [List.flatMap_cons, List.append_assoc] at he
      obtain ⟨rfl, htail⟩ := h b (hbs b (by simp)) b' (hbs' b' (by simp)) _ _ he
      rw [← List.append_assoc, ← List.append_assoc] at htail
      obtain ⟨rfl, rfl⟩ :=
        ih (fun c hc => hbs c (by simp [hc])) bs' (fun c hc => hbs' c (by simp [hc])) _ _ htail
      exact ⟨rfl, rfl⟩

/-- A list of readable nonempty items that runs to the end of the text. -/
theorem Readable.list_injective {S : Set β} {enc : β → List α} (h : Readable S enc)
    (hne : ∀ b ∈ S, enc b ≠ []) {bs bs' : List β} (hbs : ∀ b ∈ bs, b ∈ S)
    (hbs' : ∀ b ∈ bs', b ∈ S) (he : bs.flatMap enc = bs'.flatMap enc) : bs = bs' := by
  induction bs generalizing bs' with
  | nil =>
    cases bs' with
    | nil => rfl
    | cons b' bs' =>
      have hb' := hne b' (hbs' b' (by simp))
      simp_all
  | cons b bs ih =>
    cases bs' with
    | nil =>
      have hb := hne b (hbs b (by simp))
      simp_all
    | cons b' bs' =>
      simp only [List.flatMap_cons] at he
      obtain ⟨rfl, htail⟩ := h b (hbs b (by simp)) b' (hbs' b' (by simp)) _ _ he
      rw [ih (fun c hc => hbs c (by simp [hc])) (fun c hc => hbs' c (by simp [hc])) htail]

/-! ## Bracketed groups

A field followed by any number of groups `open key eq value close`, the whole closed by
`stop`. The value may contain the closing bracket: it is recovered because the text goes
on with `open` or `stop`, which it may not contain. -/

/-- The groups after a field, and the stop. -/
def bracketed (op eq cl stop : α) : List (List α × List α) → List α
  | [] => [stop]
  | (k, v) :: rest => op :: (k ++ eq :: (v ++ cl :: bracketed op eq cl stop rest))

theorem readable_bracketed (op eq cl stop : α) (hos : op ≠ stop) (hoc : op ≠ cl) (hcs : cl ≠ stop) :
    Readable {p : List α × List (List α × List α) |
        (op ∉ p.1 ∧ stop ∉ p.1) ∧
          ∀ kv ∈ p.2, eq ∉ kv.1 ∧ op ∉ kv.2 ∧ stop ∉ kv.2}
      fun p => p.1 ++ bracketed op eq cl stop p.2 := by
  rintro ⟨x, ks⟩ ⟨hx, hks⟩ ⟨y, ks'⟩ ⟨hy, hks'⟩ r r' h
  have hop : op ∈ ({op, stop} : Set α) := Or.inl rfl
  have hst : stop ∈ ({op, stop} : Set α) := Or.inr rfl
  -- the induction is on the groups; the field in front grows by the value and its bracket
  induction ks generalizing x y ks' with
  | nil =>
    have hx' : ∀ a ∈ x, a ∉ ({op, stop} : Set α) := by
      rintro a ha (rfl | rfl)
      · exact hx.1 ha
      · exact hx.2 ha
    have hy' : ∀ a ∈ y, a ∉ ({op, stop} : Set α) := by
      rintro a ha (rfl | rfl)
      · exact hy.1 ha
      · exact hy.2 ha
    cases ks' with
    | nil =>
      simp only [bracketed, List.append_assoc, List.singleton_append] at h
      obtain ⟨rfl, -, rfl⟩ := fields_split hx' hy' hst hst h
      exact ⟨rfl, rfl⟩
    | cons kv' ks' =>
      simp only [bracketed, List.append_assoc, List.cons_append] at h
      obtain ⟨-, hc, -⟩ := fields_split hx' hy' hst hop h
      exact absurd hc.symm hos
  | cons kv ks ih =>
    have hx' : ∀ a ∈ x, a ∉ ({op, stop} : Set α) := by
      rintro a ha (rfl | rfl)
      · exact hx.1 ha
      · exact hx.2 ha
    have hy' : ∀ a ∈ y, a ∉ ({op, stop} : Set α) := by
      rintro a ha (rfl | rfl)
      · exact hy.1 ha
      · exact hy.2 ha
    cases ks' with
    | nil =>
      simp only [bracketed, List.append_assoc, List.cons_append] at h
      obtain ⟨-, hc, -⟩ := fields_split hx' hy' hop hst h
      exact absurd hc hos
    | cons kv' ks' =>
      obtain ⟨k, v⟩ := kv
      obtain ⟨k', v'⟩ := kv'
      have hkv := hks (k, v) (by simp)
      have hkv' := hks' (k', v') (by simp)
      simp only [bracketed, List.append_assoc, List.cons_append] at h
      obtain ⟨rfl, -, hrest⟩ := fields_split hx' hy' hop hop h
      have hfield : (k ++ [eq]) ++ (v ++ cl :: (bracketed op eq cl stop ks ++ r))
          = (k' ++ [eq]) ++ (v' ++ cl :: (bracketed op eq cl stop ks' ++ r')) := by
        simpa only [List.append_assoc, List.singleton_append] using hrest
      obtain ⟨rfl, htail⟩ := Readable.field eq k hkv.1 k' hkv'.1 _ _ hfield
      have hv : op ∉ v ++ [cl] ∧ stop ∉ v ++ [cl] := by
        simp [hkv.2.1, hkv.2.2, hoc, hcs.symm]
      have hv' : op ∉ v' ++ [cl] ∧ stop ∉ v' ++ [cl] := by
        simp [hkv'.2.1, hkv'.2.2, hoc, hcs.symm]
      have hstep : (v ++ [cl]) ++ bracketed op eq cl stop ks ++ r
          = (v' ++ [cl]) ++ bracketed op eq cl stop ks' ++ r' := by
        simpa [List.append_assoc] using htail
      obtain ⟨heq, rfl⟩ := ih (v ++ [cl]) hv (fun z hz => hks z (by simp [hz])) (v' ++ [cl]) ks'
        hv' (fun z hz => hks' z (by simp [hz])) hstep
      simp only [Prod.mk.injEq, List.append_cancel_right_eq] at heq
      obtain ⟨rfl, rfl⟩ := heq
      exact ⟨rfl, rfl⟩

end PlmCore.Lib
