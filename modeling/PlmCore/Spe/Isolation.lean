/-
Routing by project space.

The gateway asks pno for the effective service tags of the space of a request and keeps the
answer for a while; a call that fails gives the configuration without tags, which is kept as
well. The answers are those of one table of spaces, and the registry may be another one at each
request. An entry of the cache can go at any time, as it does when it is old or the cache full.
-/
import Mathlib.Algebra.Group.Nat.Defs
import PlmCore.Lib.Run
import PlmCore.Pno.ProjectSpaces
import PlmCore.Spe.Gate

set_option autoImplicit false

namespace PlmCore.Spe

open PlmCore.Lib PlmCore.Pno

/-! ## The configuration of a space -/

/-- `TagConfig::default`. -/
def TagConfig.default : TagConfig := ⟨false, fun _ => []⟩

/-- `parse_tag_config`, on what `effective_service_tags` answers. -/
def parse_tag_config (e : EffectiveTags) : TagConfig := ⟨e.isolated, e.service_tags⟩

/-- The answer of pno for a space, `none` only when there is none. -/
def pnoAnswer (t : Spaces) (ps : String) : Option TagConfig :=
  (t.effective_service_tags ps).map parse_tag_config

/-- The cached configurations and the round-robin counters. -/
structure Routing where
  tag_cache : String → Option TagConfig
  counters : String → Nat

/-- A request at the proxy, the instances registered then, and whether pno answers if asked. -/
structure Arrival where
  req : Request
  ext : Option AuthedContext
  instances : String → List ServiceInstanceInfo
  answered : Bool

/-- The space of a request: that of the token, else the header. -/
def Arrival.project_space (a : Arrival) : Option String :=
  (a.ext.bind (·.project_space)).or (header_str a.req.headers "x-plm-projectspace")

namespace Routing

variable (t : Spaces) (s : Routing)

/-- The call to pno. -/
def fetch (ps : String) (answered : Bool) : TagConfig :=
  if answered then (pnoAnswer t ps).getD .default else .default

/-- `get_tag_config`. -/
def get_tag_config (answered : Bool) (ps : Option String) : TagConfig :=
  match ps.filter (· ≠ "") with
  | none => .default
  | some ps => (s.tag_cache ps).getD (fetch t ps answered)

/-- The gateway as a request finds it. -/
def gateway (g : Gateway) (a : Arrival) : Gateway :=
  { g with
    get_tag_config := s.get_tag_config t a.answered
    instances := a.instances
    next_rr := s.counters }

/-- The cache after a request that had its configuration looked up. -/
def remember (a : Arrival) : String → Option TagConfig :=
  match a.project_space.filter (· ≠ "") with
  | none => s.tag_cache
  | some ps => Function.update s.tag_cache ps (some (s.get_tag_config t a.answered a.project_space))

/-- The counters after a request for a service: one further if there was a candidate. -/
def count (a : Arrival) (service_code : String) : String → Nat :=
  let config := s.get_tag_config t a.answered a.project_space
  if filter_candidates (a.instances service_code) (config.tags_for_service service_code)
      config.isolated = [] then s.counters
  else Function.update s.counters service_code ((s.counters service_code + 1) % 2 ^ 64)

end Routing

/-- What happens at the proxy. -/
inductive RoutingEvent
  | arrive (a : Arrival)
  /-- an entry of the cache is dropped -/
  | forget (ps : String)

/-- One event. -/
def Routing.step (t : Spaces) (s : Routing) : RoutingEvent → Routing
  | .arrive a =>
    match Proxy.extract_service_code a.req.path with
    | none => s
    | some service_code => ⟨s.remember t a, s.count t a service_code⟩
  | .forget ps => { s with tag_cache := Function.update s.tag_cache ps none }

/-- A gateway that has just started. -/
def Routing.started : Routing := ⟨fun _ => none, fun _ => 0⟩

/-! ## Candidates -/

/-- The instances tags are looked for in: the healthy ones, or all when none is. -/
def considered (all : List ServiceInstanceInfo) : List ServiceInstanceInfo :=
  let healthy := all.filter (·.healthy)
  if healthy.isEmpty then all else healthy

/-- The instance has this tag. -/
def ServiceInstanceInfo.HasTag (i : ServiceInstanceInfo) (tag : String) : Prop :=
  i.space_tag = some tag ∧ is_untagged i.space_tag = false

/-- The considered instances without a tag. -/
def untagged (all : List ServiceInstanceInfo) : List ServiceInstanceInfo :=
  (considered all).filter fun i => is_untagged i.space_tag

/-- The considered instances with one of the tags. -/
def tagged (all : List ServiceInstanceInfo) (required : List String) : List ServiceInstanceInfo :=
  (considered all).filter fun i => i.space_tag.any fun t => trim t.toList ≠ [] && required.contains t

theorem filter_candidates_eq (all : List ServiceInstanceInfo) (required : List String) (isolated : Bool) :
    filter_candidates all required isolated =
      if required = [] then
        if isolated then [] else if (untagged all).isEmpty then considered all else untagged all
      else if !(tagged all required).isEmpty then tagged all required
      else if isolated then [] else untagged all := rfl

theorem mem_tagged {all : List ServiceInstanceInfo} {required : List String} {i : ServiceInstanceInfo}
    (h : i ∈ tagged all required) : ∃ tag ∈ required, i.HasTag tag := by
  obtain ⟨-, htag⟩ := List.mem_filter.mp h
  obtain ⟨tag, hspace, hmem⟩ := (Option.any_eq_true _ _).mp htag
  simp only [Bool.and_eq_true, decide_eq_true_eq, List.contains_iff_mem] at hmem
  refine ⟨tag, hmem.2, hspace, ?_⟩
  rw [hspace]
  exact decide_eq_false hmem.1

/-- **Why an instance is a candidate**: for a required tag, because it has none, or for want of
any that has none. -/
theorem mem_filter_candidates {all : List ServiceInstanceInfo} {required : List String}
    {isolated : Bool} {i : ServiceInstanceInfo} (h : i ∈ filter_candidates all required isolated) :
    (∃ tag ∈ required, i.HasTag tag)
      ∨ isolated = false ∧ is_untagged i.space_tag = true
      ∨ isolated = false ∧ required = [] ∧ ∀ j ∈ considered all, is_untagged j.space_tag = false := by
  rw [filter_candidates_eq] at h
  by_cases hreq : required = []
  · rw [if_pos hreq] at h
    cases isolated with
    | true => cases h
    | false =>
      rw [if_neg Bool.false_ne_true] at h
      by_cases hnone : (untagged all).isEmpty = true
      · refine Or.inr (Or.inr ⟨rfl, hreq, fun j hj => ?_⟩)
        have hempty := List.filter_eq_nil_iff.mp (List.isEmpty_iff.mp hnone) j hj
        exact Bool.eq_false_iff.mpr hempty
      · rw [if_neg hnone] at h
        exact Or.inr (Or.inl ⟨rfl, (List.mem_filter.mp h).2⟩)
  · rw [if_neg hreq] at h
    by_cases htagged : (!(tagged all required).isEmpty) = true
    · rw [if_pos htagged] at h
      exact Or.inl (mem_tagged h)
    · rw [if_neg htagged] at h
      cases isolated with
      | true => cases h
      | false =>
        rw [if_neg Bool.false_ne_true] at h
        exact Or.inr (Or.inl ⟨rfl, (List.mem_filter.mp h).2⟩)

theorem considered_subset (all : List ServiceInstanceInfo) : considered all ⊆ all := by
  unfold considered
  dsimp only
  split
  · exact List.Subset.refl _
  · exact fun _ hi => List.mem_of_mem_filter hi

/-- Candidates are registered. -/
theorem mem_of_candidate {all : List ServiceInstanceInfo} {required : List String} {isolated : Bool}
    {i : ServiceInstanceInfo} (h : i ∈ filter_candidates all required isolated) : i ∈ all := by
  have huntagged : ∀ {j}, j ∈ untagged all → j ∈ all := fun hj =>
    considered_subset all (List.mem_of_mem_filter hj)
  rw [filter_candidates_eq] at h
  split_ifs at h
  · cases h
  · exact considered_subset all h
  · exact huntagged h
  · exact considered_subset all (List.mem_of_mem_filter h)
  · cases h
  · exact huntagged h

/-! ## Isolation -/

/-- Calls for the tags of the space `ps` are answered. -/
def AnsweredFor (ps : String) (s : Routing) : RoutingEvent → Prop
  | .arrive a => a.project_space = some ps → s.tag_cache ps = none → a.answered = true
  | .forget _ => True

/-- Isolation, for a request of the space `ps` that is sent to the instance `i`. -/
structure Isolating (t : Spaces) (ps service_code : String) (all : List ServiceInstanceInfo)
    (i : ServiceInstanceInfo) : Prop where
  /-- from an isolated space only to an instance with one of its effective tags -/
  isolated : t.is_isolated ps = true →
    ∃ e tag, t.effective_service_tags ps = some e ∧ tag ∈ e.service_tags service_code ∧ i.HasTag tag
  /-- to an instance of an isolated space only from this one and from those that inherit its tags,
  unless the space has no tags and no instance without one is there -/
  foreign : ∀ owner tag, t.flagged owner = true → (⟨owner, service_code, tag⟩ : ServiceTag) ∈ t.tags →
    i.HasTag tag → ∃ e, t.effective_service_tags ps = some e
      ∧ (ComesTo t.parent ps owner ∧ e.service_tags service_code = t.get_service_tags owner service_code
        ∨ e.isolated = false ∧ e.service_tags service_code = []
          ∧ ∀ j ∈ considered all, is_untagged j.space_tag = false)

/-- A candidate under pno's answer keeps isolation. -/
theorem isolating_of_candidate {t : Spaces} (hexclusive : t.Exclusive) {ps service_code : String}
    {e : EffectiveTags} (he : t.effective_service_tags ps = some e) {all : List ServiceInstanceInfo}
    {i : ServiceInstanceInfo} (h : i ∈ filter_candidates all (e.service_tags service_code) e.isolated) :
    Isolating t ps service_code all i := by
  have hflag := (Spaces.effective_service_tags_spec he).2
  constructor
  · intro hisolated
    rw [hflag, hisolated] at h
    rcases mem_filter_candidates h with ⟨tag, htag, hi⟩ | ⟨hno, -⟩ | ⟨hno, -⟩
    · exact ⟨e, tag, he, htag, hi⟩
    · cases hno
    · cases hno
  · intro owner tag howner hrow hi
    refine ⟨e, he, ?_⟩
    rcases mem_filter_candidates h with ⟨tag', htag', hi'⟩ | ⟨-, hnone⟩ | hany
    · -- the instance has one tag
      obtain rfl : tag' = tag := Option.some.inj (hi'.1.symm.trans hi.1)
      exact Or.inl (hexclusive.inherited he htag' hrow howner)
    · rw [hi.2] at hnone
      cases hnone
    · exact Or.inr hany

/-! ## Runs -/

/-- What is cached for a space is pno's answer. -/
def KeepsAnswer (t : Spaces) (ps : String) (s : Routing) : Prop :=
  ∀ config, s.tag_cache ps = some config → pnoAnswer t ps = some config

theorem pnoAnswer_eq (t : Spaces) (ps : String) :
    ∃ e, t.effective_service_tags ps = some e ∧ pnoAnswer t ps = some (parse_tag_config e) := by
  have hends : t.effective_service_tags ps ≠ none := Spaces.effective_service_tags_ne_none
  obtain ⟨e, he⟩ := Option.ne_none_iff_exists'.mp hends
  exact ⟨e, he, by rw [pnoAnswer, he]; rfl⟩

section Step

variable {t : Spaces} {s : Routing} {ps : String}

theorem get_tag_config_some (hps : ps ≠ "") (answered : Bool) :
    s.get_tag_config t answered (some ps) = (s.tag_cache ps).getD (Routing.fetch t ps answered) := by
  simp [Routing.get_tag_config, Option.filter, hps]

/-- A request whose call, if it makes one, is answered is routed by pno's answer. -/
theorem KeepsAnswer.config (h : KeepsAnswer t ps s) (hps : ps ≠ "") {answered : Bool}
    (hanswered : s.tag_cache ps = none → answered = true) :
    pnoAnswer t ps = some (s.get_tag_config t answered (some ps)) := by
  rw [get_tag_config_some hps]
  cases hcache : s.tag_cache ps with
  | some config => exact h config hcache
  | none =>
    obtain ⟨e, -, he⟩ := pnoAnswer_eq t ps
    rw [hanswered hcache, Option.getD_none, Routing.fetch, if_pos rfl, he]
    rfl

theorem KeepsAnswer.step (h : KeepsAnswer t ps s) (hps : ps ≠ "") {e : RoutingEvent}
    (hanswered : AnsweredFor ps s e) : KeepsAnswer t ps (s.step t e) := by
  cases e with
  | forget ps' =>
    intro config hconfig
    by_cases heq : ps = ps'
    · simp [Routing.step, heq] at hconfig
    · simp only [Routing.step, Function.update_of_ne heq] at hconfig
      exact h config hconfig
  | arrive a =>
    intro config hconfig
    cases hcode : Proxy.extract_service_code a.req.path with
    | none =>
      simp only [Routing.step, hcode] at hconfig
      exact h config hconfig
    | some service_code =>
      simp only [Routing.step, hcode, Routing.remember] at hconfig
      cases hspace : a.project_space.filter (· ≠ "") with
      | none =>
        rw [hspace] at hconfig
        exact h config hconfig
      | some ps' =>
        rw [hspace] at hconfig
        obtain ⟨hspace, -⟩ := Option.filter_eq_some_iff.mp hspace
        by_cases heq : ps = ps'
        · subst heq
          dsimp only at hconfig
          rw [Function.update_self] at hconfig
          rw [h.config hps (hanswered hspace), ← hconfig, hspace]
        · dsimp only at hconfig
          rw [Function.update_of_ne heq] at hconfig
          exact h config hconfig

end Step

/-- An isolated space with a tag of its own for psm, and an open one. -/
def twoSpaces : Spaces where
  spaces := [⟨"ps-secret", none, true, true⟩, ⟨"ps-open", none, true, false⟩]
  tags := [⟨"ps-secret", "psm", "PSM2"⟩]
  pk_space := by decide

def sharedInstance : ServiceInstanceInfo := ⟨"psm-1", "psm-api-1:8080", none, true⟩

def secretInstance : ServiceInstanceInfo := ⟨"psm-2", "psm-api-2:8080", some "PSM2", true⟩

/-- A request of a space to psm, with instances of it registered. -/
def arrivalOf (ps : String) (psm : List ServiceInstanceInfo) (answered : Bool) : Arrival where
  req :=
    { method := "GET"
      path := "/api/psm/nodes".toList
      query := none
      headers := [("x-plm-projectspace", ps)]
      path_legal := by decide }
  ext := none
  instances code := if code = "psm" then psm else []
  answered := answered

theorem twoSpaces_exclusive : twoSpaces.Exclusive := by
  intro r hr r' hr' _ _ _
  rw [List.mem_singleton.mp hr, List.mem_singleton.mp hr']

end PlmCore.Spe
