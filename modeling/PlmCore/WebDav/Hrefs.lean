/-
The hrefs of PROPFIND, requested again.

A name is escaped once for the href, and the path of a request is decoded twice: by the server, and again
by `segments`. So a name comes back when it has no slash and the second decoding leaves it alone. The way
to a resource is a walk by names, which takes the first child of a name, in whatever order the children of
a space come. `hrefs_come_back_iff` says that all hrefs of a tree lead back to their resources exactly when
all names come back and no resource has two children of one name.
-/
import PlmCore.Lib.NamedWalk
import PlmCore.WebDav.Tree

set_option autoImplicit false

namespace PlmCore.WebDav

open Lib

/-! ## Names in a path -/

/-- A name that `segments` reads as it is: the second decoding finds nothing to decode, or an escape that
is none. -/
def ComesBack (name : Bytes) : Prop :=
  name ≠ [] ∧ slash ∉ name ∧ (percent ∉ name ∨ pathUnescape name = none)

/-- What `segments` makes of the bytes between two slashes. -/
def readSegment (raw : Bytes) : Bytes := (pathUnescape raw).getD raw

theorem segments_slash (front back : Bytes) :
    segments (front ++ slash :: back) = segments front ++ segments back := by
  unfold segments
  rw [List.splitOn_append_cons_self, List.filter_append, List.map_append]

theorem segments_nil : segments [] = [] := rfl

/-- The path of names, as the server has decoded it. -/
def pathOf (names : List Bytes) : Bytes := names.flatMap (slash :: ·)

/-- Slashes between names, and one behind them, are where the names are cut. -/
theorem segments_append_pathOf (front : Bytes) (names : List Bytes) {tail : Bytes}
    (htail : tail = [] ∨ tail = [slash]) :
    segments (front ++ (pathOf names ++ tail)) = segments front ++ names.flatMap segments := by
  induction names generalizing front with
  | nil =>
    obtain rfl | rfl := htail
    · simp [pathOf]
    · exact segments_slash front []
  | cons name names ih =>
    have hassoc : front ++ (pathOf (name :: names) ++ tail) =
        front ++ slash :: (name ++ (pathOf names ++ tail)) := by simp [pathOf]
    rw [hassoc, segments_slash, ih, List.flatMap_cons]

theorem length_le_of_mem_intercalate {ps : List Bytes} {p : Bytes} (h : p ∈ ps) :
    p.length ≤ ([slash].intercalate ps).length := by
  induction ps with
  | nil => cases h
  | cons q ps ih =>
    cases ps with
    | nil =>
      obtain rfl := List.mem_singleton.mp h
      simp
    | cons r rs =>
      rw [List.intercalate_cons_cons, List.length_append, List.length_append]
      obtain rfl | h := List.mem_cons.mp h
      · omega
      · have hrest := ih h
        omega

theorem length_le_of_mem_splitOn {p s : Bytes} (h : p ∈ s.splitOn slash) : p.length ≤ s.length := by
  have hle := length_le_of_mem_intercalate h
  rwa [List.intercalate_splitOn] at hle

theorem length_readSegment_le (raw : Bytes) : (readSegment raw).length ≤ raw.length := by
  unfold readSegment
  cases h : pathUnescape raw with
  | none => exact Nat.le_refl _
  | some t =>
    have hlength := length_percentDecode h
    rw [Option.getD_some]
    omega

/-- A name that is among what `segments` makes of it comes back: no other part of it is long enough. -/
theorem comesBack_of_mem {name : Bytes} (h : name ∈ segments name) : ComesBack name := by
  obtain ⟨raw, hraw, hread⟩ := List.mem_map.mp h
  obtain ⟨hraw, hne⟩ := List.mem_filter.mp hraw
  have hle := length_readSegment_le raw
  rw [show readSegment raw = name from hread] at hle
  have hslash : slash ∉ name := by
    intro hmem
    obtain ⟨front, back, rfl⟩ := List.append_of_mem hmem
    rw [List.splitOn_append_cons_self, List.mem_append] at hraw
    rw [List.length_append, List.length_cons] at hle
    obtain hraw | hraw := hraw
    · have hshort := length_le_of_mem_splitOn hraw
      omega
    · have hshort := length_le_of_mem_splitOn hraw
      omega
  rw [List.splitOn_eq_singleton hslash, List.mem_singleton] at hraw
  subst hraw
  refine ⟨of_decide_eq_true hne, hslash, ?_⟩
  cases hdecode : pathUnescape raw with
  | none => exact .inr rfl
  | some t =>
    rw [hdecode, Option.getD_some] at hread
    subst hread
    exact .inl (percentDecode_eq_self_iff.mp hdecode)

theorem segments_of_comesBack {name : Bytes} (h : ComesBack name) : segments name = [name] := by
  obtain ⟨hne, hslash, hplain⟩ := h
  have hread : (pathUnescape name).getD name = name := by
    obtain hplain | hbroken := hplain
    · rw [show pathUnescape name = some name from percentDecode_eq_self_iff.mpr hplain, Option.getD_some]
    · rw [hbroken, Option.getD_none]
  simp [segments, List.splitOn_eq_singleton hslash, hne, hread]

theorem flatMap_segments {names : List Bytes} (h : ∀ name ∈ names, ComesBack name) :
    names.flatMap segments = names := by
  induction names with
  | nil => rfl
  | cons name names ih =>
    rw [List.flatMap_cons, segments_of_comesBack (h name List.mem_cons_self),
      ih fun n hn => h n (List.mem_cons_of_mem name hn)]
    rfl

/-- The path of a request for an href. -/
theorem requestPath_href (names : List Bytes) (collection : Bool) :
    ∃ tail, (tail = [] ∨ tail = [slash]) ∧
      requestPath (href hrefBase names collection) = some (pathOf names ++ tail) := by
  have hslash : slash ≠ percent := by decide
  have hkeep : isPathByte percent = false := by decide
  have hdecode : ∀ tail, percentDecode (names.flatMap (fun name => slash :: pathEscape name) ++ tail) =
      (percentDecode tail).map (pathOf names ++ ·) := by
    intro tail
    induction names with
    | nil => simp [pathOf]
    | cons name names ih =>
      rw [List.flatMap_cons, List.append_assoc, List.cons_append, percentDecode_cons hslash, pathEscape,
        percentDecode_encode_append hkeep, ih, Option.map_map, Option.map_map]
      simp [pathOf, Function.comp_def]
  refine ⟨if collection = true ∨ names = [] then [slash] else [], ?_, ?_⟩
  · split
    · exact .inr rfl
    · exact .inl rfl
  · rw [requestPath, href, List.append_assoc, List.drop_left, pathUnescape, hdecode]
    split <;> rfl

/-- What `segments` reads from an href. -/
theorem segments_href (names : List Bytes) (collection : Bool) :
    (requestPath (href hrefBase names collection)).map segments = some (names.flatMap segments) := by
  obtain ⟨tail, htail, hpath⟩ := requestPath_href names collection
  rw [hpath, Option.map_some]
  exact congrArg some (segments_append_pathOf [] names htail)

/-! ## The tree as a graph of named places -/

/-- A resource, and the context it is read in. -/
abbrev Place := RequestContext × Resource

namespace Services

variable (d : Services)

def places (order : d.RangeOrder) (p : Place) : List Place :=
  (d.children order p.1 p.2).map fun next => (p.1.enter next, next)

def placeName (p : Place) : Bytes := p.2.name

/-- `Resolve` walks by names. -/
theorem resolveFrom_eq (orders : Nat → d.RangeOrder) (p : Place) (segments : List Bytes) :
    d.resolveFrom orders p.1 p.2 segments = walkNames d.places placeName orders p segments := by
  induction segments generalizing orders p with
  | nil => rfl
  | cons segment segments ih =>
    have hfind : (d.places (orders 0) p).find? (placeName · = segment) =
        ((d.children (orders 0) p.1 p.2).find? (·.name = segment)).map fun next =>
          (p.1.enter next, next) := by
      rw [places, List.find?_map]
      rfl
    rw [resolveFrom, walkNames, hfind]
    cases (d.children (orders 0) p.1 p.2).find? (·.name = segment) with
    | none => rfl
    | some next => exact ih _ (p.1.enter next, next)

/-- The order of the directory types changes the order of the children only. -/
theorem sameChildren : SameChildren d.places := by
  rintro i j ⟨rc, resource⟩ c hc
  obtain ⟨next, hnext, rfl⟩ := List.mem_map.mp hc
  refine List.mem_map.mpr ⟨next, ?_, rfl⟩
  cases resource with
  | spaceDir spaceID name =>
    obtain ⟨typeID, htype, hmem⟩ := List.mem_flatMap.mp hnext
    have hperm := i.property.trans j.property.symm
    exact List.mem_flatMap.mpr ⟨typeID, hperm.mem_iff.mp htype, hmem⟩
  | rootRes => exact hnext
  | nodeDir nodeID name createdAt => exact hnext
  | fileEntry dataID name sizeBytes contentType => exact hnext

/-- The root is nobody's child. -/
theorem rootRes_notMem_children (order : d.RangeOrder) (rc : RequestContext) (resource : Resource) :
    Resource.rootRes ∉ d.children order rc resource := by
  have hlink : ∀ link, fileEntryFromLink link ≠ some .rootRes := by
    intro link h
    unfold fileEntryFromLink at h
    split at h <;> cases h
  intro hmem
  cases resource with
  | rootRes =>
    obtain ⟨s, -, h⟩ := List.mem_filterMap.mp hmem
    split at h <;> cases h
  | spaceDir spaceID name =>
    obtain ⟨typeID, -, hmem⟩ := List.mem_flatMap.mp hmem
    obtain ⟨item, -, h⟩ := List.mem_filterMap.mp hmem
    split at h <;> cases h
  | nodeDir nodeID name createdAt =>
    obtain ⟨link, -, h⟩ := List.mem_filterMap.mp hmem
    unfold childOfLink at h
    split at h
    · split at h
      · cases h
      · split at h
        · cases h
        · obtain ⟨fileLink, -, h⟩ := Option.bind_eq_some_iff.mp h
          exact hlink fileLink h
    · split at h
      · exact hlink link h
      · cases h
  | fileEntry dataID name sizeBytes contentType => cases hmem

/-- What has children is listed with them. -/
theorem isCollection_of_mem {order : d.RangeOrder} {rc : RequestContext} {resource child : Resource}
    (h : child ∈ d.children order rc resource) : resource.isCollection = true := by
  cases resource with
  | fileEntry => cases h
  | rootRes => rfl
  | spaceDir => rfl
  | nodeDir => rfl

end Services

/-! ## Hrefs that lead back -/

variable (d : Services) (rc : RequestContext)

/-- Every href of every PROPFIND, requested again, is resolved to the resource it was emitted for, whatever
the orders of the maps both times. -/
def HrefsLeadBack : Prop :=
  ∀ httpDate orders orders' depthHeader depth path resources, depthOf depthHeader = some depth →
    d.propfindResources orders rc depth (segments path) = some resources →
    ∀ q ∈ resources,
      (requestPath (entryFor httpDate q.1 q.2).href).bind (fun path =>
        (d.resolve orders' rc (segments path)).map Prod.snd) = some q.1

/-- Every resource that can be reached from the root has a name that comes back, and one that tells it from
the other children of the same resource. -/
def NamesTellResources : Prop :=
  ToldByName d.places Services.placeName (rc, .rootRes) ∧
    ∀ p, Relation.ReflTransGen (NamedChild d.places) (rc, .rootRes) p →
      ∀ c, NamedChild d.places p c → ComesBack c.2.name

variable {d rc}

theorem resolve_eq (orders : Nat → d.RangeOrder) (names : List Bytes) :
    d.resolve orders rc names = walkNames d.places Services.placeName orders (rc, .rootRes) names :=
  d.resolveFrom_eq orders (rc, .rootRes) names

/-- What is resolved for the href of an entry: the walk by what `segments` reads from each name. -/
theorem resolve_href (httpDate : Bytes → Bytes) (orders : Nat → d.RangeOrder) (resource : Resource)
    (names : List Bytes) :
    (requestPath (entryFor httpDate resource names).href).bind (fun path =>
        (d.resolve orders rc (segments path)).map Prod.snd) =
      (walkNames d.places Services.placeName orders (rc, .rootRes) (names.flatMap segments)).map Prod.snd := by
  obtain ⟨path, hpath, hsegments⟩ := Option.map_eq_some_iff.mp (segments_href names resource.isCollection)
  have hhref : (entryFor httpDate resource names).href = href hrefBase names resource.isCollection := rfl
  rw [hhref, hpath, Option.bind_some, hsegments, resolve_eq]

/-- A place leads back by the names on the way to it. -/
theorem leads_back {names : List Bytes} {p : Place}
    (hway : NamedWay d.places Services.placeName (rc, .rootRes) names p) (h : NamesTellResources d rc)
    (httpDate : Bytes → Bytes) (orders : Nat → d.RangeOrder) :
    (requestPath (entryFor httpDate p.2 names).href).bind (fun path =>
      (d.resolve orders rc (segments path)).map Prod.snd) = some p.2 := by
  have hback : ∀ name ∈ names, ComesBack name := by
    intro name hname
    obtain ⟨u, c, hu, hchild, rfl⟩ := hway.exists_child hname
    exact h.2 u hu c hchild
  rw [resolve_href, flatMap_segments hback, walkNames_of_namedWay d.sameChildren h.1 hway]
  rfl

/-- One step of a walk. -/
theorem mem_places_of_walk {orders : Nat → d.RangeOrder} {p q : Place} {name : Bytes}
    (h : walkNames d.places Services.placeName orders p [name] = some q) :
    q = (p.1.enter q.2, q.2) := by
  unfold walkNames at h
  split at h
  · cases h
  · rename_i c hfind
    cases h
    obtain ⟨next, -, heq⟩ := List.mem_map.mp (List.mem_of_find?_eq_some hfind)
    rw [← heq]

/-- The name of a child comes back when what `segments` makes of it leads to the child: it ends there by a
part that is the name, or it makes nothing of it, and the child is the place itself. -/
theorem comesBack_of_walk {names : List Bytes} {u q : Place} {name : Bytes} {next : Resource}
    {order : d.RangeOrder} {orders : Nat → d.RangeOrder}
    (hu : NamedWay d.places Services.placeName (rc, .rootRes) names u)
    (hback : ∀ name ∈ names, ComesBack name) (hnext : next ∈ d.children order u.1 u.2)
    (hname : next.name = name)
    (hq : walkNames d.places Services.placeName orders u (segments name) = some q) (hnextq : q.2 = next) :
    ComesBack name := by
  obtain hnil | ⟨init, last, hconcat⟩ := List.eq_nil_or_concat' (segments name)
  · rw [hnil] at hq
    cases hq
    obtain rfl | ⟨init, last, rfl⟩ := List.eq_nil_or_concat' names
    · cases hu
      obtain rfl : Resource.rootRes = next := hnextq
      exact absurd hnext (d.rootRes_notMem_children order _ _)
    · obtain ⟨-, -, -, hlast⟩ := namedWay_concat_iff.mp hu
      have hsame : name = last := by rw [← hname, ← hnextq, ← hlast, Services.placeName]
      rw [hsame]
      exact hback last (List.mem_append_right init (List.mem_singleton_self last))
  · rw [hconcat] at hq
    obtain ⟨-, -, -, hlast⟩ := namedWay_concat_iff.mp (namedWay_of_walkNames hq)
    refine comesBack_of_mem ?_
    have heq : name = last := by rw [← hname, ← hnextq, ← hlast, Services.placeName]
    rw [hconcat]
    exact List.mem_append_right init (List.mem_singleton.mpr heq)

/-- The names on a way come back and lead every walk to its end, when all hrefs lead back. Each step is
seen from the listing of the place before it. -/
theorem way_comes_back (h : HrefsLeadBack d rc) {names : List Bytes} {p : Place}
    (hway : NamedWay d.places Services.placeName (rc, .rootRes) names p) :
    (∀ name ∈ names, ComesBack name) ∧
      ∀ orders, walkNames d.places Services.placeName orders (rc, .rootRes) names = some p := by
  induction names using List.reverseRecOn generalizing p with
  | nil =>
    cases hway
    exact ⟨fun name hname => (nomatch hname), fun orders => rfl⟩
  | append_singleton names name ih =>
    obtain ⟨u, hu, ⟨order, hchild⟩, hname⟩ := namedWay_concat_iff.mp hway
    obtain ⟨hback, hwalk⟩ := ih hu
    obtain ⟨next, hnext, rfl⟩ := List.mem_map.mp hchild
    have hrequest : segments (pathOf names) = names := by
      have hsegments := segments_append_pathOf [] names (.inl rfl)
      rw [List.append_nil, segments_nil, List.nil_append, List.nil_append, flatMap_segments hback]
        at hsegments
      exact hsegments
    -- the listing of the place before has an entry for the child
    have hlisted : d.propfindResources (fun _ => order) rc 1 (segments (pathOf names)) =
        some ((u.2, names) :: (d.children order u.1 u.2).map fun child => (child, names ++ [child.name])) := by
      rw [hrequest, Services.propfindResources, resolve_eq, hwalk]
      simp [Services.isCollection_of_mem d hnext]
    have hentry : ∀ orders, (walkNames d.places Services.placeName orders (rc, .rootRes)
        (names ++ segments name)).map Prod.snd = some next := by
      intro orders
      have hlead := h id (fun _ => order) orders ['1'] 1 _ _ (by decide) hlisted (next, names ++ [next.name])
        (List.mem_cons_of_mem _ (List.mem_map_of_mem hnext))
      rw [resolve_href, List.flatMap_append, flatMap_segments hback, List.flatMap_singleton] at hlead
      rwa [← hname]
    have hcomes : ComesBack name := by
      obtain ⟨q, hq, hnextq⟩ := Option.map_eq_some_iff.mp (hentry fun _ => order)
      rw [walkNames_append, hwalk, Option.bind_some] at hq
      exact comesBack_of_walk hu hback hnext hname hq hnextq
    refine ⟨?_, fun orders => ?_⟩
    · intro n hn
      obtain hn | hn := List.mem_append.mp hn
      · exact hback n hn
      · exact List.mem_singleton.mp hn ▸ hcomes
    · obtain ⟨q, hq, hnextq⟩ := Option.map_eq_some_iff.mp (hentry orders)
      rw [segments_of_comesBack hcomes] at hq
      rw [hq]
      rw [walkNames_append, hwalk, Option.bind_some] at hq
      have hplace := mem_places_of_walk hq
      rw [hplace, hnextq]

/-- **Main result.** All hrefs lead back exactly when all names come back and tell siblings apart. -/
theorem hrefs_come_back_iff (d : Services) (rc : RequestContext) :
    HrefsLeadBack d rc ↔ NamesTellResources d rc := by
  constructor
  · intro h
    refine ⟨(walkNames_iff_told d.sameChildren _).mp fun names p hway => (way_comes_back h hway).2, ?_⟩
    intro p hp c hchild
    obtain ⟨names, hway⟩ : ∃ names, NamedWay d.places Services.placeName (rc, .rootRes) names p :=
      exists_namedWay hp
    have hlast := namedWay_concat_iff.mpr ⟨p, hway, hchild, rfl⟩
    exact (way_comes_back h hlast).1 _ (List.mem_append_right names (List.mem_singleton_self _))
  · intro h httpDate orders orders' depthHeader depth path resources _ hlisted q hq
    obtain ⟨⟨rc', resource⟩, hresolve, rfl⟩ := Option.map_eq_some_iff.mp hlisted
    rw [resolve_eq] at hresolve
    have hway := namedWay_of_walkNames hresolve
    obtain rfl | hq := List.mem_cons.mp hq
    · exact leads_back hway h httpDate orders'
    · split at hq
      · obtain ⟨child, hchild, rfl⟩ := List.mem_map.mp hq
        have hlast := namedWay_concat_iff.mpr ⟨(rc', resource), hway,
          ⟨_, List.mem_map_of_mem (f := fun next => (rc'.enter next, next)) hchild⟩, rfl⟩
        exact leads_back hlast h httpDate orders'
      · cases hq

/-- One project space, named `R/D`. -/
def slashSpace : Services where
  projectSpaces _ := some [⟨asciiBytes "s1", asciiBytes "R/D"⟩]
  rootNodes _ _ := none
  childLinks _ _ := none
  entityMetadata := []
  nodeTypeName _ := none

/-- The space is listed as `/api/dav/R%2FD/`, and a request for this finds nothing. -/
theorem slash_in_a_name_is_not_found :
    href hrefBase [asciiBytes "R/D"] true = asciiBytes "/api/dav/R%2FD/" ∧
      (∀ orders rc, (requestPath (asciiBytes "/api/dav/R%2FD/")).bind (fun path =>
        (slashSpace.resolve orders rc (segments path)).map Prod.snd) = none) ∧
      ¬ ∀ d rc, HrefsLeadBack d rc := by
  have hhref : href hrefBase [asciiBytes "R/D"] true = asciiBytes "/api/dav/R%2FD/" := by decide +kernel
  have hpath : requestPath (asciiBytes "/api/dav/R%2FD/") = some (asciiBytes "/R/D/") := by decide +kernel
  have hsegments : segments (asciiBytes "/R/D/") = [asciiBytes "R", asciiBytes "D"] := by decide
  have hnone : ∀ orders rc, (requestPath (asciiBytes "/api/dav/R%2FD/")).bind (fun path =>
      (slashSpace.resolve orders rc (segments path)).map Prod.snd) = none := by
    intro orders rc
    have hchildren : slashSpace.children (orders 0) rc .rootRes =
        [.spaceDir (asciiBytes "s1") (asciiBytes "R/D")] := rfl
    have hne : (asciiBytes "R/D" = asciiBytes "R") = False := by decide
    rw [hpath, Option.bind_some, hsegments]
    simp [Services.resolve, Services.resolveFrom, hchildren, Resource.name, hne]
  refine ⟨hhref, hnone, fun h => ?_⟩
  have horder : slashSpace.RangeOrder := ⟨[], List.Perm.refl _⟩
  have hlisted : slashSpace.propfindResources (fun _ => horder) ⟨[], []⟩ 1 (segments [slash]) =
      some [(.rootRes, []), (.spaceDir (asciiBytes "s1") (asciiBytes "R/D"), [asciiBytes "R/D"])] := rfl
  have hlead := h slashSpace ⟨[], []⟩ id (fun _ => horder) (fun _ => horder) ['1'] 1 _ _ (by decide) hlisted
    (.spaceDir (asciiBytes "s1") (asciiBytes "R/D"), [asciiBytes "R/D"]) (List.mem_cons_of_mem _ (List.mem_singleton_self _))
  have hentry : (entryFor id (.spaceDir (asciiBytes "s1") (asciiBytes "R/D")) [asciiBytes "R/D"]).href =
      asciiBytes "/api/dav/R%2FD/" := hhref
  rw [hentry, hnone] at hlead
  cases hlead

end PlmCore.WebDav
