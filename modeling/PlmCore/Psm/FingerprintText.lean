/-
What the text of `FingerPrintService.compute` separates.

Two versions ought to have the same text exactly when they have the same content. The
text is a concatenation with fixed separators, so this depends on the strings it
contains. Four characters matter, `:`, `;`, `=` and `[`; `|` and `]` do not, because the
position of a section mark or of a closing bracket is determined by the next one of the
four. When no stored string contains one of them the text is exactly the content with
null replaced by the empty string and the links listed in the order of the query
(`fingerprintText_eq_iff`), and what is left are two defects of that normal form: null
and the empty string are confused, and links with equal target are ordered by their
generated row id.
-/
import Mathlib.Data.List.Perm.Basic
import Mathlib.Data.Multiset.MapFold
import Mathlib.Tactic.MkIffOfInductiveProp
import PlmCore.Lib.Separated
import PlmCore.Psm.Fingerprint

set_option autoImplicit false

namespace PlmCore.Psm

open PlmCore.Lib

/-! ## Equal contents -/

/-- What a link says, without its row id and without an order on its attributes. -/
structure LinkFacts where
  linkTypeId : String
  targetSourceId : String
  targetType : String
  targetKey : String
  linkLogicalId : Option String
  attributes : Multiset (String × Option String)
  deriving DecidableEq

/-- What a link says. -/
def LinkContent.facts (l : LinkContent) : LinkFacts :=
  ⟨l.linkTypeId, l.targetSourceId, l.targetType, l.targetKey, l.linkLogicalId, ↑l.attributes⟩

/-- Two versions have the same content: state, attribute map, set of domains and multiset
of effective links. -/
@[mk_iff]
structure SameContent (c c' : VersionContent) : Prop where
  state : c.lifecycleStateId = c'.lifecycleStateId
  attributes : c.attributes.Perm c'.attributes
  links : (c.links.map LinkContent.facts).Perm (c'.links.map LinkContent.facts)
  domains : c.domains.Perm c'.domains

instance (c c' : VersionContent) : Decidable (SameContent c c') :=
  decidable_of_iff _ (sameContent_iff c c').symm

/-- The content with each null replaced by the empty string, as `nvl` does. -/
def nvlAttributes (as : List (String × Option String)) : List (String × Option String) :=
  as.map fun a => (a.1, some (nvl a.2))

/-- `nvl` on every nullable column of a link. -/
def LinkContent.nvl (l : LinkContent) : LinkContent :=
  { l with linkLogicalId := some (Lib.nvl l.linkLogicalId), attributes := nvlAttributes l.attributes }

/-- `nvl` on every nullable column of a version. -/
def VersionContent.nvl (c : VersionContent) : VersionContent where
  lifecycleStateId := some (Lib.nvl c.lifecycleStateId)
  attributes := nvlAttributes c.attributes
  links := c.links.map LinkContent.nvl
  domains := c.domains

/-- `nvl` on what a link says. -/
def LinkFacts.nvl (f : LinkFacts) : LinkFacts :=
  { f with
    linkLogicalId := some (Lib.nvl f.linkLogicalId)
    attributes := f.attributes.map fun a => (a.1, some (Lib.nvl a.2)) }

theorem LinkContent.facts_nvl (l : LinkContent) : l.nvl.facts = l.facts.nvl := by
  simp [LinkContent.facts, LinkContent.nvl, LinkFacts.nvl, nvlAttributes]

/-- Equal contents stay equal when null is read as empty. -/
theorem SameContent.nvl {c c' : VersionContent} (h : SameContent c c') :
    SameContent c.nvl c'.nvl where
  state := by simp only [VersionContent.nvl, h.state]
  attributes := h.attributes.map _
  links := by
    have hmap := h.links.map LinkFacts.nvl
    simpa [VersionContent.nvl, Function.comp_def, LinkContent.facts_nvl] using hmap
  domains := h.domains

/-- A link as the text shows it: null is empty, attributes in order, no row id. -/
structure ShownLink where
  linkTypeId : String
  targetSourceId : String
  targetType : String
  targetKey : String
  linkLogicalId : String
  attributes : List (String × String)
  deriving DecidableEq

/-- What the text shows of a link. -/
def LinkContent.shown (l : LinkContent) : ShownLink :=
  ⟨l.linkTypeId, l.targetSourceId, l.targetType, l.targetKey, Lib.nvl l.linkLogicalId,
    (sortedAttributes l.attributes).map fun a => (a.1, Lib.nvl a.2)⟩

/-- The links in the order in which the text shows them. -/
def VersionContent.linkSequence (c : VersionContent) : List ShownLink :=
  (sortedLinks c.links).map LinkContent.shown

/-- The contents differ, but only by null against the empty string. -/
def NullClash (c c' : VersionContent) : Prop :=
  ¬ SameContent c c' ∧ SameContent c.nvl c'.nvl

/-- The contents agree up to null against empty, but links with the same link type, source,
type and key are listed in another order, the order of their generated row ids. -/
def TieOrderClash (c c' : VersionContent) : Prop :=
  SameContent c.nvl c'.nvl ∧ c.linkSequence ≠ c'.linkSequence

/-! ## The stored strings -/

/-- The strings of attribute values. -/
def attributeStrings (as : List (String × Option String)) : List String :=
  as.flatMap fun a => a.1 :: a.2.toList

/-- The strings of a link. -/
def LinkContent.strings (l : LinkContent) : List String :=
  l.linkTypeId :: l.targetSourceId :: l.targetType :: l.targetKey
    :: (l.linkLogicalId.toList ++ attributeStrings l.attributes)

/-- Every string of a content. -/
def VersionContent.strings (c : VersionContent) : List String :=
  c.lifecycleStateId.toList ++ attributeStrings c.attributes
    ++ c.links.flatMap LinkContent.strings ++ c.domains

/-- The separators a stored string can be confused with. -/
def reservedCharacters : List Char := [':', ';', '=', '[']

/-- No stored string contains a reserved character. -/
def Unreserved (c : VersionContent) : Prop :=
  ∀ x ∈ c.strings, ∀ d ∈ reservedCharacters, d ∉ x.toList

/-- Every stored string consists of `d` alone. -/
def WrittenIn (d : Char) (c : VersionContent) : Prop :=
  ∀ x ∈ c.strings, ∀ e ∈ x.toList, e = d

-- Both look at the characters of the strings, not at every character there is.
instance (c : VersionContent) : Decidable (Unreserved c) :=
  letI (x : String) : Decidable (∀ d ∈ reservedCharacters, d ∉ x.toList) := List.decidableBAll _ _
  List.decidableBAll _ _

instance (d : Char) (c : VersionContent) : Decidable (WrittenIn d c) :=
  letI (x : String) : Decidable (∀ e ∈ x.toList, e = d) := List.decidableBAll _ _
  List.decidableBAll _ _

/-! ## The text as a list of characters -/

/-- The characters of `id:value;`. -/
def attributeChars (p : List Char × List Char) : List Char := (p.1 ++ [':']) ++ (p.2 ++ [';'])

/-- The characters of a link and the `;` after it. -/
def linkChars (p : List Char × List Char × List Char × List Char ×
    (List Char × List (List Char × List Char))) : List Char :=
  (p.1 ++ [':']) ++ ((p.2.1 ++ [':']) ++ ((p.2.2.1 ++ [':']) ++ ((p.2.2.2.1 ++ [':'])
    ++ (p.2.2.2.2.1 ++ bracketed '[' '=' ']' ';' p.2.2.2.2.2))))

/-- The characters of a pair of strings. -/
def pairChars (p : String × String) : List Char × List Char := (p.1.toList, p.2.toList)

/-- The characters of a shown link. -/
def ShownLink.chars (l : ShownLink) :
    List Char × List Char × List Char × List Char × (List Char × List (List Char × List Char)) :=
  (l.linkTypeId.toList, l.targetSourceId.toList, l.targetType.toList, l.targetKey.toList,
    l.linkLogicalId.toList, l.attributes.map pairChars)

theorem pairChars_injective : Function.Injective pairChars := by
  rintro ⟨a, b⟩ ⟨a', b'⟩ h
  simp only [pairChars, Prod.mk.injEq, String.toList_inj] at h
  obtain ⟨rfl, rfl⟩ := h
  rfl

theorem ShownLink.chars_injective : Function.Injective ShownLink.chars := by
  rintro ⟨a, b, c, d, e, f⟩ ⟨a', b', c', d', e', f'⟩ h
  simp only [ShownLink.chars, Prod.mk.injEq, String.toList_inj,
    pairChars_injective.list_map.eq_iff] at h
  obtain ⟨rfl, rfl, rfl, rfl, rfl, rfl⟩ := h
  rfl

theorem attributeText_toList (a : String × Option String) :
    (attributeText a).toList = attributeChars (pairChars (a.1, nvl a.2)) := by
  simp [attributeText, attributeChars, pairChars]

theorem linkText_toList (l : LinkContent) :
    (linkText l ++ ";").toList = linkChars l.shown.chars := by
  have hgroups : ∀ as : List (String × Option String),
      (as.flatMap fun a => (linkAttributeText a).toList) ++ [';']
        = bracketed '[' '=' ']' ';' ((as.map fun a => (a.1, nvl a.2)).map pairChars) := by
    intro as
    induction as with
    | nil => simp [bracketed]
    | cons a as ih =>
      simp only [List.flatMap_cons, List.append_assoc, ih, List.map_cons, bracketed, pairChars]
      simp [linkAttributeText]
  have hattrs := hgroups (sortedAttributes l.attributes)
  simp only [linkText, String.toList_append, String.toList_join, List.flatMap_map, List.append_assoc,
    linkChars, ShownLink.chars, LinkContent.shown]
  rw [← hattrs]
  simp

/-- The characters of the sections after the state. -/
def sectionChars (c : VersionContent) : List Char :=
  (((sortedAttributes c.attributes).map fun a => pairChars (a.1, nvl a.2)).flatMap attributeChars
      ++ "|links=".toList)
    ++ (((c.linkSequence.map ShownLink.chars).flatMap linkChars ++ "|domains=".toList)
      ++ ((sortedDomains c.domains).map String.toList).flatMap fun d => d ++ [';'])

/-- The characters of the whole text. -/
theorem fingerprintText_toList (c : VersionContent) :
    (fingerprintText c).toList = "state=".toList
      ++ ((((nvl c.lifecycleStateId).toList ++ "|attrs".toList) ++ ['=']) ++ sectionChars c) := by
  have hl : (fun l : LinkContent => (linkText l).toList ++ [';'])
      = fun l => linkChars l.shown.chars := by
    funext l
    rw [← linkText_toList]
    simp
  have ha : (fun a : String × Option String => (attributeText a).toList)
      = fun a => attributeChars (pairChars (a.1, nvl a.2)) := funext attributeText_toList
  have hsemi : (";" : String).toList = [';'] := rfl
  simp only [fingerprintText, sectionChars, VersionContent.linkSequence, String.toList_append,
    String.toList_join, List.flatMap_map, List.map_map, ha, hsemi, hl, List.append_assoc]
  simp

/-! ## Reading the text back -/

/-- Characters without a reserved one. -/
def PlainChars (x : List Char) : Prop := ∀ d ∈ reservedCharacters, d ∉ x

theorem PlainChars.colon {x : List Char} (h : PlainChars x) : ':' ∉ x :=
  h ':' (by simp [reservedCharacters])

theorem PlainChars.semicolon {x : List Char} (h : PlainChars x) : ';' ∉ x :=
  h ';' (by simp [reservedCharacters])

theorem PlainChars.equals {x : List Char} (h : PlainChars x) : '=' ∉ x :=
  h '=' (by simp [reservedCharacters])

theorem PlainChars.bracket {x : List Char} (h : PlainChars x) : '[' ∉ x :=
  h '[' (by simp [reservedCharacters])

/-- The plain pairs. -/
def plainPairs : Set (List Char × List Char) := {p | PlainChars p.1 ∧ PlainChars p.2}

/-- The links all of whose columns are plain. -/
def plainLinks : Set (List Char × List Char × List Char × List Char ×
    (List Char × List (List Char × List Char))) :=
  {p | (PlainChars p.1 ∧ PlainChars p.2.1 ∧ PlainChars p.2.2.1 ∧ PlainChars p.2.2.2.1
    ∧ PlainChars p.2.2.2.2.1) ∧ ∀ kv ∈ p.2.2.2.2.2, kv ∈ plainPairs}

theorem readable_attributeChars : Readable plainPairs attributeChars :=
  (Readable.pair (Readable.field ':') (Readable.field ';')).mono
    fun _ hp => ⟨hp.1.colon, hp.2.semicolon⟩

theorem readable_linkChars : Readable plainLinks linkChars := by
  have hgroups := readable_bracketed '[' '=' ']' ';'
    (by decide) (by decide) (by decide)
  refine (Readable.pair (Readable.field ':') (Readable.pair (Readable.field ':')
    (Readable.pair (Readable.field ':') (Readable.pair (Readable.field ':') hgroups)))).mono ?_
  rintro p ⟨⟨h₁, h₂, h₃, h₄, h₅⟩, hks⟩
  exact ⟨h₁.colon, h₂.colon, h₃.colon, h₄.colon, ⟨h₅.bracket, h₅.semicolon⟩,
    fun kv hkv => ⟨(hks kv hkv).1.equals, (hks kv hkv).2.bracket, (hks kv hkv).2.semicolon⟩⟩

/-- An attribute is not mistaken for the mark of the link section: its first `:` or `=` is
a `:`. -/
theorem attributeChars_ne_mark (p : List Char × List Char) (hp : p ∈ plainPairs)
    (r r' : List Char) : attributeChars p ++ r ≠ "|links=".toList ++ r' := by
  have h := fields_ne (x := p.1) (y := "|links".toList) (p.2 ++ [';'] ++ r) r'
    ⟨hp.1.colon, hp.1.equals⟩ (by decide) (show ':' ≠ '=' by decide)
  simpa [attributeChars] using h

/-- A link is not mistaken for the mark of the domain section. -/
theorem linkChars_ne_mark (p : List Char × List Char × List Char × List Char ×
    (List Char × List (List Char × List Char))) (hp : p ∈ plainLinks) (r r' : List Char) :
    linkChars p ++ r ≠ "|domains=".toList ++ r' := by
  have h := fields_ne (x := p.1) (y := "|domains".toList)
    ((p.2.1 ++ [':']) ++ ((p.2.2.1 ++ [':']) ++ ((p.2.2.2.1 ++ [':'])
      ++ (p.2.2.2.2.1 ++ bracketed '[' '=' ']' ';' p.2.2.2.2.2))) ++ r) r'
    ⟨hp.1.1.colon, hp.1.1.equals⟩ (by decide) (show ':' ≠ '=' by decide)
  simpa [linkChars] using h

theorem plainChars_nvl {o : Option String} (h : ∀ x ∈ o, PlainChars x.toList) :
    PlainChars (nvl o).toList := by
  cases o with
  | none => simp [nvl, PlainChars]
  | some x => exact h x rfl

/-- The strings of an unreserved content are plain. -/
theorem Unreserved.plain {c : VersionContent} (h : Unreserved c) {x : String}
    (hx : x ∈ c.strings) : PlainChars x.toList := h x hx

theorem Unreserved.state {c : VersionContent} (h : Unreserved c) :
    PlainChars (nvl c.lifecycleStateId).toList :=
  plainChars_nvl fun x hx => h.plain (by simp [VersionContent.strings, Option.mem_def.mp hx])

theorem mem_attributeStrings {as : List (String × Option String)} {a : String × Option String}
    (ha : a ∈ as) : a.1 ∈ attributeStrings as ∧ ∀ x ∈ a.2, x ∈ attributeStrings as := by
  simp only [attributeStrings, List.mem_flatMap]
  exact ⟨⟨a, ha, by simp⟩, fun x hx => ⟨a, ha, by simp [Option.mem_def.mp hx]⟩⟩

/-- The values of plain attributes, shown. -/
theorem plain_shownAttributes (as : List (String × Option String))
    (h : ∀ x ∈ attributeStrings as, PlainChars x.toList) :
    ∀ p ∈ (sortedAttributes as).map fun a => pairChars (a.1, nvl a.2), p ∈ plainPairs := by
  intro p hp
  obtain ⟨a, ha, rfl⟩ := List.mem_map.mp hp
  rw [sortedAttributes, List.mem_insertionSort] at ha
  have hm := mem_attributeStrings ha
  exact ⟨h _ hm.1, plainChars_nvl fun x hx => h x (hm.2 x hx)⟩

theorem Unreserved.attributes {c : VersionContent} (h : Unreserved c) :
    ∀ p ∈ (sortedAttributes c.attributes).map fun a => pairChars (a.1, nvl a.2),
      p ∈ plainPairs :=
  plain_shownAttributes _ fun x hx => h.plain (by simp [VersionContent.strings, hx])

theorem Unreserved.links {c : VersionContent} (h : Unreserved c) :
    ∀ p ∈ c.linkSequence.map ShownLink.chars, p ∈ plainLinks := by
  intro p hp
  simp only [VersionContent.linkSequence, List.map_map, List.mem_map] at hp
  obtain ⟨l, hl, rfl⟩ := hp
  rw [sortedLinks, List.mem_insertionSort] at hl
  have hmem : ∀ x ∈ l.strings, PlainChars x.toList := by
    intro x hx
    refine h.plain ?_
    simp only [VersionContent.strings, List.mem_append, List.mem_flatMap]
    exact .inl (.inr ⟨l, hl, hx⟩)
  have hcols : ∀ x ∈ [l.linkTypeId, l.targetSourceId, l.targetType, l.targetKey],
      PlainChars x.toList := by
    intro x hx
    refine hmem x ?_
    simp only [LinkContent.strings, List.mem_cons, List.not_mem_nil, or_false] at hx ⊢
    tauto
  have hlid : PlainChars (nvl l.linkLogicalId).toList :=
    plainChars_nvl fun x hx => hmem x (by simp [LinkContent.strings, Option.mem_def.mp hx])
  refine ⟨⟨hcols l.linkTypeId (by simp), hcols l.targetSourceId (by simp),
    hcols l.targetType (by simp), hcols l.targetKey (by simp), hlid⟩, ?_⟩
  have hattrs := plain_shownAttributes l.attributes
    fun x hx => hmem x (by simp [LinkContent.strings, hx])
  simpa [ShownLink.chars, LinkContent.shown, Function.comp_def] using hattrs

theorem Unreserved.domains {c : VersionContent} (h : Unreserved c) :
    ∀ d ∈ (sortedDomains c.domains).map String.toList, ';' ∉ d := by
  intro x hx
  obtain ⟨d, hd, rfl⟩ := List.mem_map.mp hx
  rw [sortedDomains, List.mem_insertionSort] at hd
  exact (h.plain (by simp [VersionContent.strings, hd])).semicolon

/-- **Unreserved texts can be read.** Two unreserved contents with the same text show the
same state, attributes, links and domains, each in the order of its query. -/
theorem fingerprintText_read {c c' : VersionContent} (h : Unreserved c) (h' : Unreserved c')
    (he : fingerprintText c = fingerprintText c') :
    nvl c.lifecycleStateId = nvl c'.lifecycleStateId
      ∧ (sortedAttributes c.attributes).map (fun a => (a.1, nvl a.2))
          = (sortedAttributes c'.attributes).map (fun a => (a.1, nvl a.2))
      ∧ c.linkSequence = c'.linkSequence
      ∧ sortedDomains c.domains = sortedDomains c'.domains := by
  have hchars := congrArg String.toList he
  rw [fingerprintText_toList, fingerprintText_toList, List.append_cancel_left_eq] at hchars
  -- the state ends at the first '='
  have hstate : ∀ {c : VersionContent}, Unreserved c →
      '=' ∉ (nvl c.lifecycleStateId).toList ++ "|attrs".toList := by
    intro c hc hmem
    rcases List.mem_append.mp hmem with hm | hm
    · exact hc.state.equals hm
    · revert hm
      decide
  obtain ⟨hs, hsections⟩ := Readable.field '=' _ (hstate h) _ (hstate h') _ _ hchars
  -- then the attributes up to the mark of the links, the links up to the mark of the domains
  obtain ⟨ha, hrest⟩ := readable_attributeChars.list attributeChars_ne_mark
    _ h.attributes _ h'.attributes _ _ hsections
  obtain ⟨hl, hd⟩ := readable_linkChars.list linkChars_ne_mark _ h.links _ h'.links _ _ hrest
  have hd := (Readable.field ';').list_injective (by simp) h.domains h'.domains hd
  refine ⟨String.toList_inj.mp (List.append_cancel_right hs), ?_,
    ShownLink.chars_injective.list_map hl, ?_⟩
  · refine pairChars_injective.list_map ?_
    simpa [Function.comp_def] using ha
  · have hinj : Function.Injective String.toList := fun _ _ => String.toList_inj.mp
    exact hinj.list_map hd

/-! ## The normal form -/

/-- A shown attribute as a stored one. -/
def storedAttribute (p : String × String) : String × Option String := (p.1, some p.2)

/-- What a shown link says. -/
def ShownLink.facts (l : ShownLink) : LinkFacts :=
  ⟨l.linkTypeId, l.targetSourceId, l.targetType, l.targetKey, some l.linkLogicalId,
    ↑(l.attributes.map storedAttribute)⟩

theorem nvlAttributes_perm (as : List (String × Option String)) :
    (((sortedAttributes as).map fun a => (a.1, nvl a.2)).map storedAttribute).Perm
      (nvlAttributes as) := by
  have h := (List.perm_insertionSort (fun a b : String × Option String => a.1 ≤ b.1) as).map
    fun a => (a.1, some (nvl a.2))
  simpa [nvlAttributes, sortedAttributes, storedAttribute, Function.comp_def] using h

theorem LinkContent.shown_facts (l : LinkContent) : l.shown.facts = l.nvl.facts := by
  simp only [ShownLink.facts, LinkContent.shown, LinkContent.facts, LinkContent.nvl,
    LinkFacts.mk.injEq, Multiset.coe_eq_coe, true_and]
  exact nvlAttributes_perm l.attributes

/-- What the link section says is the multiset of effective links, up to null. -/
theorem linkSequence_facts_perm (c : VersionContent) :
    (c.linkSequence.map ShownLink.facts).Perm (c.nvl.links.map LinkContent.facts) := by
  have h := (List.perm_insertionSort
    (fun a b : LinkContent => a.sortKey ≤ b.sortKey) c.links).map fun l => l.nvl.facts
  simpa [VersionContent.linkSequence, VersionContent.nvl, sortedLinks, LinkContent.shown_facts,
    Function.comp_def] using h

/-- Attribute lists with distinct names and the same values up to null are listed alike. -/
theorem sortedAttributes_congr {as as' : List (String × Option String)}
    (hkeys : (as.map (·.1)).Nodup) (h : (nvlAttributes as).Perm (nvlAttributes as')) :
    (sortedAttributes as).map (fun a => (a.1, nvl a.2))
      = (sortedAttributes as').map (fun a => (a.1, nvl a.2)) := by
  have hsorted : ∀ bs : List (String × Option String),
      ((sortedAttributes bs).map fun a => (a.1, nvl a.2)).Pairwise fun p q => p.1 ≤ q.1 := by
    intro bs
    rw [List.pairwise_map]
    exact List.pairwise_insertionSort _ bs
  have hperm : ∀ bs : List (String × Option String),
      ((sortedAttributes bs).map fun a => (a.1, nvl a.2)).Perm
        (bs.map fun a => (a.1, nvl a.2)) :=
    fun bs => (List.perm_insertionSort _ bs).map _
  have hvals : (as.map fun a => (a.1, nvl a.2)).Perm (as'.map fun a => (a.1, nvl a.2)) := by
    have hmap := h.map fun a : String × Option String => (a.1, nvl a.2)
    simpa [nvlAttributes, Function.comp_def, nvl] using hmap
  refine List.Perm.eq_of_pairwise ?_ (hsorted as) (hsorted as')
    ((hperm as).trans (hvals.trans (hperm as').symm))
  -- equal names are equal values, since the names of `as` are distinct
  intro p q hp hq hpq hqp
  have hp' : p ∈ as.map fun a => (a.1, nvl a.2) := (hperm as).mem_iff.mp hp
  have hq' : q ∈ as.map fun a => (a.1, nvl a.2) :=
    hvals.mem_iff.mpr ((hperm as').mem_iff.mp hq)
  have hnodup : ((as.map fun a => (a.1, nvl a.2)).map Prod.fst).Nodup := by
    simpa [Function.comp_def] using hkeys
  exact List.inj_on_of_nodup_map hnodup hp' hq' (le_antisymm hpq hqp)

/-- **The text of unreserved contents.** It is the content with null read as empty, and the
links in the order in which the query lists them. -/
theorem fingerprintText_eq_iff {c c' : VersionContent} (h : Unreserved c) (h' : Unreserved c')
    (hkeys : (c.attributes.map (·.1)).Nodup) :
    fingerprintText c = fingerprintText c' ↔
      SameContent c.nvl c'.nvl ∧ c.linkSequence = c'.linkSequence := by
  constructor
  · intro he
    obtain ⟨hstate, hattrs, hlinks, hdomains⟩ := fingerprintText_read h h' he
    refine ⟨⟨congrArg some hstate, ?_, ?_, ?_⟩, hlinks⟩
    · have hp := nvlAttributes_perm c.attributes
      rw [hattrs] at hp
      exact hp.symm.trans (nvlAttributes_perm c'.attributes)
    · have hp := linkSequence_facts_perm c
      rw [hlinks] at hp
      exact hp.symm.trans (linkSequence_facts_perm c')
    · have hp := List.perm_insertionSort (· ≤ ·) c.domains
      have hp' := List.perm_insertionSort (· ≤ ·) c'.domains
      rw [show c.domains.insertionSort (· ≤ ·) = c'.domains.insertionSort (· ≤ ·) from hdomains]
        at hp
      exact hp.symm.trans hp'
  · rintro ⟨hsame, hlinks⟩
    have hstate : nvl c.lifecycleStateId = nvl c'.lifecycleStateId := by
      simpa [VersionContent.nvl] using hsame.state
    have hattrs := congrArg (List.map pairChars) (sortedAttributes_congr hkeys hsame.attributes)
    simp only [List.map_map, Function.comp_def] at hattrs
    have hdomains : sortedDomains c.domains = sortedDomains c'.domains := by
      have hp : (sortedDomains c.domains).Perm (sortedDomains c'.domains) :=
        (List.perm_insertionSort _ _).trans
          (hsame.domains.trans (List.perm_insertionSort _ _).symm)
      exact List.Perm.eq_of_pairwise (fun _ _ _ _ => le_antisymm)
        (List.pairwise_insertionSort _ _) (List.pairwise_insertionSort _ _) hp
    rw [← String.toList_inj, fingerprintText_toList, fingerprintText_toList, sectionChars,
      sectionChars, hstate, hattrs, hlinks, hdomains]

/-- The attribute map of a stored version has one value per name. -/
theorem contentOf_keys_nodup (s : Db) (v : VersionRow) (nodeId : Uuid) :
    ((s.contentOf nodeId v).attributes.map (·.1)).Nodup := by
  have huq := s.valid.uq_node_version_attr
  have hsub : ((s.attributesOf v.id).map fun a => (a.nodeVersionId, a.attributeDefId)).Nodup :=
    huq.sublist (List.filter_sublist.map _)
  have hmap : ((s.attributesOf v.id).map fun a => (a.nodeVersionId, a.attributeDefId))
      = ((s.contentOf nodeId v).attributes.map (·.1)).map fun k => (v.id, k) := by
    simp only [Tables.contentOf, List.map_map]
    refine List.map_congr_left fun a ha => ?_
    have hid : a.nodeVersionId = v.id := by simpa using (List.mem_filter.mp ha).2
    simp [hid]
  rw [hmap] at hsub
  exact hsub.of_map _

/-! ## Stores that hold a given content -/

/-- The version of `storeOf`. -/
def storedVersion (c : VersionContent) : VersionRow where
  id := 0
  nodeId := 0
  versionNumber := 1
  revision := "A"
  iteration := 1
  lifecycleStateId := c.lifecycleStateId
  changeType := .CONTENT
  changeDescription := none
  txId := 0
  previousVersionId := none
  previousVersionFingerprint := none
  fingerprint := none
  branch := "main"
  createdAt := 0
  createdBy := "alice"

/-- The link row a link content comes from. -/
def storedLink (l : LinkContent) : LinkRow where
  id := l.id
  linkTypeId := l.linkTypeId
  sourceNodeVersionId := 0
  targetSourceId := l.targetSourceId
  targetType := l.targetType
  targetKey := l.targetKey
  linkLogicalId := l.linkLogicalId
  createdAt := 0
  createdBy := "alice"

/-- A store with one node and one committed version, whose content is `c`. -/
def storeOf (c : VersionContent) : Tables where
  txs := [⟨0, "alice", .COMMITTED, some "import", 0, some 0⟩]
  nodes := [⟨0, "nt-part", none, some "P1", none, none, none, 0, "alice"⟩]
  versions := [storedVersion c]
  attributes := c.attributes.map fun a => ⟨0, a.1, a.2⟩
  links := c.links.map storedLink
  linkAttributes := c.links.flatMap fun l => l.attributes.map fun a => ⟨l.id, a.1, a.2⟩
  domains := c.domains.map fun d => ⟨0, d⟩
  signatures := []
  baselines := []
  baselineEntries := []
  comments := []
  outbox := []
  nextId := 1

/-- A content with attribute values only. -/
def attributesContent (as : List (String × Option String)) : VersionContent := ⟨none, as, [], []⟩

/-- A content with one link. -/
def linkOnlyContent (logicalId : String) (as : List (String × Option String)) : VersionContent :=
  ⟨none, [], [⟨0, "", "", "", "", some logicalId, as⟩], []⟩

/-- For each reserved character, two contents written in it alone with the same text. -/
def collidingContents : Char → VersionContent × VersionContent
  | ':' => (attributesContent [(":", some "::")], attributesContent [("::", some ":")])
  | ';' => (attributesContent [(";", some ";"), (";;;", some ";")],
      attributesContent [(";", some ";;"), (";;", some ";")])
  | '=' => (linkOnlyContent "" [("=", some "==")], linkOnlyContent "" [("==", some "=")])
  | _ => (linkOnlyContent "[" [("[[", some "[")], linkOnlyContent "[[" [("[", some "[")])

/-- The version in a store that holds `c`. -/
theorem contentOf_storeOf (d : Char) (hd : d ∈ reservedCharacters) :
    ((storeOf (collidingContents d).1).Valid ∧ (storeOf (collidingContents d).2).Valid)
      ∧ (storeOf (collidingContents d).1).contentOf 0 (storedVersion (collidingContents d).1)
          = (collidingContents d).1
      ∧ (storeOf (collidingContents d).2).contentOf 0 (storedVersion (collidingContents d).2)
          = (collidingContents d).2 := by
  simp only [reservedCharacters, List.mem_cons, List.not_mem_nil, or_false] at hd
  rcases hd with rfl | rfl | rfl | rfl <;> decide +kernel

/-- Each colliding pair has one text and two contents, none of which is a null or order
effect. -/
theorem collidingContents_spec (d : Char) (hd : d ∈ reservedCharacters) :
    (WrittenIn d (collidingContents d).1 ∧ WrittenIn d (collidingContents d).2)
      ∧ fingerprintText (collidingContents d).1 = fingerprintText (collidingContents d).2
      ∧ ¬ SameContent (collidingContents d).1.nvl (collidingContents d).2.nvl := by
  simp only [reservedCharacters, List.mem_cons, List.not_mem_nil, or_false] at hd
  rcases hd with rfl | rfl | rfl | rfl <;> decide +kernel

/-! ## When the text separates contents -/

/-- Each of the four characters alone is enough for two stored versions of different content to
have the same text. -/
theorem reserved_character_collides {d : Char} (hd : d ∈ reservedCharacters) :
    ∃ (s s' : Db) (v w : VersionRow), v ∈ s.versions ∧ w ∈ s'.versions
      ∧ WrittenIn d (s.contentOf v.nodeId v) ∧ WrittenIn d (s'.contentOf w.nodeId w)
      ∧ ¬ NullClash (s.contentOf v.nodeId v) (s'.contentOf w.nodeId w)
      ∧ ¬ TieOrderClash (s.contentOf v.nodeId v) (s'.contentOf w.nodeId w)
      ∧ ¬ (fingerprintText (s.contentOf v.nodeId v) = fingerprintText (s'.contentOf w.nodeId w) ↔
            SameContent (s.contentOf v.nodeId v) (s'.contentOf w.nodeId w)) := by
  obtain ⟨⟨hvalid, hvalid'⟩, hc, hc'⟩ := contentOf_storeOf d hd
  obtain ⟨⟨hw, hw'⟩, htext, hdiff⟩ := collidingContents_spec d hd
  refine ⟨⟨_, hvalid⟩, ⟨_, hvalid'⟩, storedVersion (collidingContents d).1,
    storedVersion (collidingContents d).2, by simp [storeOf], by simp [storeOf], ?_⟩
  have hc : (storeOf (collidingContents d).1).contentOf
      (storedVersion (collidingContents d).1).nodeId (storedVersion (collidingContents d).1)
        = (collidingContents d).1 := hc
  have hc' : (storeOf (collidingContents d).2).contentOf
      (storedVersion (collidingContents d).2).nodeId (storedVersion (collidingContents d).2)
        = (collidingContents d).2 := hc'
  rw [hc, hc']
  refine ⟨hw, hw', fun h => hdiff h.2, fun h => hdiff h.1, ?_⟩
  intro hiff
  exact hdiff (hiff.mp htext).nvl

/-- Two attributes, colour and weight. -/
def colourAndWeight : VersionContent :=
  attributesContent [("colour", some "red"), ("weight", some "12")]

/-- One attribute whose value contains separators. -/
def colourOnly : VersionContent := attributesContent [("colour", some "red;weight:12")]

theorem colour_valid : (storeOf colourAndWeight).Valid ∧ (storeOf colourOnly).Valid := by
  decide +kernel

end PlmCore.Psm
