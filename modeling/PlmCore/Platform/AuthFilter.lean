/-
The inbound authentication of the services: `PlmAuthFilter` of platform-lib and the middleware of
pno-api-rs and of platform-api-rs (`auth.rs`).

A filter looks at the path of a request and lets it through with the service secret, with a
Bearer token or, on a public path, with neither. The dispatcher then finds a handler for the
same path: Spring segment by segment, each segment without its parameters and decoded once; axum
segment by segment as it was sent. Token verifiers and `AntPathMatcher` are parameters. Header
names are in lower case.
-/
import PlmCore.Lib.JavaText
import PlmCore.Lib.PathPattern
import PlmCore.Spe.Gateway

set_option autoImplicit false

namespace PlmCore.Platform

open PlmCore.Lib PlmCore.Lib.PathPattern PlmCore.Lib.PathPattern.Part PlmCore.Lib.UrlPath
open PlmCore.Spe

/-! ## Verdicts -/

/-- On what ground a request is let through. -/
inductive Ground where
  | publicPath | secret | bearer
  deriving DecidableEq

inductive Verdict where
  | passed (ground : Ground)
  | rejected (status : Nat) (message : String)
  deriving DecidableEq

/-- The request carries the service secret. -/
def CarriesSecret (headers : Headers) (secret : Option String) : Prop :=
  ∃ s, secret = some s ∧ headers.get "x-service-secret" = some s

/-- What the filter owes a handler: under a secret path it is reached with the secret, and without
a Bearer token only under a public path or with the secret. -/
structure Guarded (publicPaths secretPaths : List Pattern) (handler : Pattern) (verdict : Verdict)
    (carried : Prop) : Prop where
  secretPath : ∀ p ∈ secretPaths, p.covers handler = true → ∀ g, verdict = .passed g → carried
  otherPath : ∀ g, verdict = .passed g → g ≠ .bearer →
    (∃ p ∈ publicPaths, p.covers handler = true) ∨ carried

/-! ## `PlmAuthFilter` -/

/-- `AuthProperties`, what the filter reads. -/
structure AuthProperties where
  publicPaths : List Pattern
  secretPaths : List Pattern
  serviceSecret : Option String

/-- `PlmPrincipal`, what the filter reads. -/
structure PlmPrincipal where
  tokenType : Option String
  jobId : Option String

/-- `HttpServletRequest`: the raw path of the target, and where the application is mounted. -/
structure HttpServletRequest where
  requestURI : List Char
  contextPath : Option (List Char)
  headers : Headers

def HttpServletRequest.pathInCtx (req : HttpServletRequest) : List Char :=
  match req.contextPath with
  | some ctxPath =>
    if ctxPath ≠ [] ∧ ctxPath <+: req.requestURI then req.requestURI.drop ctxPath.length
    else req.requestURI
  | none => req.requestURI

section PlmAuthFilter

-- `AntPathMatcher.match`, and the verifier of the tokens
variable (MATCHER : List Char → List Char → Bool) (verify : String → Option PlmPrincipal)

def matchesAny (path : List Char) (patterns : List Pattern) : Bool :=
  patterns.any fun p => MATCHER p.text path || p.text.isPrefixOf path

/-- The Bearer branch. -/
def bearerBranch (req : HttpServletRequest) : Verdict :=
  match req.headers.get "authorization" with
  | none => .rejected 401 "Missing Bearer token"
  | some auth =>
    if ¬ "Bearer ".toList.isPrefixOf auth.toList then .rejected 401 "Missing Bearer token"
    else
      match verify (Lib.trim (String.ofList (auth.toList.drop "Bearer ".length))) with
      | none => .rejected 401 "Invalid or expired token"
      | some p =>
        if p.tokenType = some "op" ∧
            (req.headers.get "x-job-id" = none ∨ req.headers.get "x-job-id" ≠ p.jobId) then
          .rejected 403 "Operation token job-id mismatch"
        else .passed .bearer

def PlmAuthFilter.doFilter (props : AuthProperties) (req : HttpServletRequest) : Verdict :=
  if matchesAny MATCHER req.pathInCtx props.publicPaths then .passed .publicPath
  else if matchesAny MATCHER req.pathInCtx props.secretPaths then
    match req.headers.get "x-service-secret" with
    | none => .rejected 403 "Invalid or missing service secret"
    | some provided =>
      if some provided ≠ props.serviceSecret then
        .rejected 403 "Invalid or missing service secret"
      else .passed .secret
  else bearerBranch verify req

end PlmAuthFilter

/-- Spring dispatches the request to the handler. -/
def Dispatches (req : HttpServletRequest) (handler : Pattern) : Prop :=
  ∃ raw decoded, segments? req.pathInCtx = some raw ∧ Decodes raw decoded
    ∧ handler.matches decoded = true

/-- `AntPathMatcher` on plain patterns: `*` is one directory, `**` at the end any number of them,
empty directories of the path are skipped, and a pattern without a slash at the end is not matched
by a path with one. -/
structure AntPathMatcher (MATCHER : List Char → List Char → Bool) : Prop where
  spec : ∀ p : Pattern, p.plain = true → ∀ segs : List Segment, segs ≠ [] →
    (∀ seg ∈ segs, '/' ∉ seg) →
    (MATCHER p.text (pathText segs) = true ↔
      p.matches (nonempty segs) = true ∧ (p.tail = true ∨ segs.getLast? ≠ some []))

/-! ## The services on platform-lib -/

/-- A pattern without a tail. -/
def whole (parts : List Part) : Pattern := ⟨parts, false⟩

/-- `/a/**` -/
def below (a : String) : Pattern := ⟨[.lit a], true⟩

/-- What a service configures, and the first segments of what its controllers map. The first
segments of the public paths begin those of neither the secret paths nor the controllers, and no
secret path begins another. -/
structure JavaService where
  publicPaths : List Pattern :=
    [below "actuator", ⟨[lit "v3", lit "api-docs"], true⟩, below "swagger-ui"]
  secretPaths : List Pattern := [below "internal"]
  heads : List String
  plain : ∀ p ∈ publicPaths ++ secretPaths, p.plain = true := by decide
  heads_apart : ∀ h ∈ heads, ∀ p ∈ publicPaths,
    p.headText <+: h.toList → below h ∈ publicPaths := by decide
  public_apart : ∀ q ∈ secretPaths, ∀ p ∈ publicPaths, ¬ p.headText <+: q.headText := by decide
  secret_apart : ∀ q ∈ secretPaths, ∀ p ∈ secretPaths, p.headText <+: q.headText → p = q := by
    decide

/-- `/ui/**` is public too. -/
def withUi : List Pattern :=
  [below "actuator", ⟨[lit "v3", lit "api-docs"], true⟩, below "swagger-ui", below "ui"]

-- the controllers of platform-lib are under `/internal` in every service
def cadApi : JavaService where heads := ["internal"]

def dst : JavaService where
  publicPaths := withUi
  heads := ["internal", "data", "stats", "item-type"]

def platformApi : JavaService where
  publicPaths := [below "actuator", ⟨[lit "v3", lit "api-docs"], true⟩, below "swagger-ui",
    whole [lit "status"], below "status"]
  heads := ["internal", "algorithms", "actions", "admin", "items", "status", "transactions",
    "dashboard", "sections", "ui", "registry"]

def pnoApi : JavaService where
  secretPaths := [below "internal", whole [lit "users", any, lit "context"],
    whole [lit "project-spaces", any, lit "effective-service-tags"]]
  heads := ["internal", "roles", "users", "access-rights", "project-spaces", "global-actions",
    "permissions", "my-global-permissions", "nodetypes"]

def psmAdmin : JavaService where
  publicPaths := withUi
  heads := ["internal", "enums", "metamodel", "sources", "domains", "nodetypes", "views", "admin"]

def psmApi : JavaService where
  publicPaths := withUi
  heads := ["internal", "nodes", "baselines", "link-type", "transactions", "item-type", "sources",
    "actions", "cad", "dashboard"]

def searchApi : JavaService where heads := ["internal", "search"]

def webdav : JavaService where heads := ["internal"]

def javaServices : List JavaService :=
  [cadApi, dst, platformApi, pnoApi, psmAdmin, psmApi, searchApi, webdav]

/-- A handler of the service: of one of its controllers, or under a public path. -/
def JavaService.Maps (svc : JavaService) (handler : Pattern) : Prop :=
  (∃ h ∈ svc.heads, handler.head? = some h) ∨ ∃ p ∈ svc.publicPaths, p.covers handler = true

/-! ## The path tests -/

section Matching

variable {MATCHER : List Char → List Char → Bool} (ant : AntPathMatcher MATCHER)
  {raw decoded : List Segment} (hslash : ∀ seg ∈ raw, '/' ∉ seg) (hdec : Decodes raw decoded)
include ant hslash hdec

/-- A pattern the filter finds begins the first segment that is decoded. -/
theorem headText_of_matchesAny {patterns : List Pattern} (hplain : ∀ p ∈ patterns, p.plain = true)
    {head : Segment} {rest : List Segment} (hhead : decoded = head :: rest) (hne : head ≠ [])
    (h : matchesAny MATCHER (pathText raw) patterns = true) :
    ∃ p ∈ patterns, p.headText <+: head ∧
      (p.matches (nonempty raw) = true ∧ (p.tail = true ∨ raw.getLast? ≠ some [])
        ∨ p.text <+: pathText raw) := by
  subst hhead
  cases hdec with
  | cons hd hrest =>
    rename_i seg segs
    obtain ⟨p, hp, hfound⟩ := List.any_eq_true.mp h
    have hlit := (Pattern.literal_headText (hplain p hp)).1
    rw [Bool.or_eq_true, ant.spec p (hplain p hp) _ (by simp) hslash, List.isPrefixOf_iff_prefix]
      at hfound
    refine ⟨p, hp, prefix_of_decodeSegment hlit ?_ hd, hfound⟩
    rcases hfound with ⟨hmatch, -⟩ | htext
    · rw [nonempty_cons (ne_nil_of_decodeSegment hd hne)] at hmatch
      obtain ⟨_, hcons⟩ := Pattern.eq_headText_of_matches (hplain p hp) hmatch
      rw [(List.cons.inj hcons).1]
    · exact Pattern.headText_prefix (hplain p hp) htext

/-- A pattern that the decoded path matches is found if the path is spelled like it. -/
theorem matchesAny_of_spelled {patterns : List Pattern} {p : Pattern} (hp : p ∈ patterns)
    (hplain : p.plain = true) (hm : p.matches decoded = true)
    (h : p.matches raw = true ∨ p.text <+: pathText raw) :
    matchesAny MATCHER (pathText raw) patterns = true := by
  refine List.any_eq_true.mpr ⟨p, hp, ?_⟩
  rw [Bool.or_eq_true, List.isPrefixOf_iff_prefix]
  rcases h with h | h
  · refine Or.inl ((ant.spec p hplain raw ?_ hslash).mpr ⟨(matches_nonempty hdec hm).trans h, ?_⟩)
    · rintro rfl
      obtain ⟨rest, hrest⟩ := Pattern.eq_headText_of_matches hplain h
      simp at hrest
    · by_cases htail : p.tail = true
      · exact Or.inl htail
      · have hm' : matchParts false p.parts decoded = true := by
          simpa [Pattern.matches, htail] using hm
        have hne := hdec.ne_nil (ne_nil_of_matchParts hm')
        exact Or.inr fun hlast => hne [] (List.mem_of_getLast? hlast) rfl
  · exact Or.inr h

end Matching

/-- The request target spells out every secret path the handler is mapped under: its literal
segments stand in the raw path as they are, or the path begins with the pattern itself. -/
def SpelledOut (secretPaths : List Pattern) (handler : Pattern) (req : HttpServletRequest) : Prop :=
  ∀ p ∈ secretPaths, p.covers handler = true →
    (∃ raw, segments? req.pathInCtx = some raw ∧ p.matches raw = true) ∨ p.text <+: req.pathInCtx

/-- The request has a Bearer token that the filter accepts. -/
def AcceptedBearer (verify : String → Option PlmPrincipal) (req : HttpServletRequest) : Prop :=
  bearerBranch verify req = .passed .bearer

section Filter

variable {MATCHER : List Char → List Char → Bool} {verify : String → Option PlmPrincipal}
  {props : AuthProperties} {req : HttpServletRequest}

theorem bearerBranch_passed {g : Ground} (h : bearerBranch verify req = .passed g) :
    g = .bearer := by
  unfold bearerBranch at h
  split at h
  · cases h
  · split at h
    · cases h
    · split at h
      · cases h
      · split at h <;> cases h
        rfl

/-- On a secret path only the secret lets a request through. -/
theorem doFilter_of_secret (hpub : matchesAny MATCHER req.pathInCtx props.publicPaths = false)
    (h : matchesAny MATCHER req.pathInCtx props.secretPaths = true) {g : Ground}
    (hpass : PlmAuthFilter.doFilter MATCHER verify props req = .passed g) :
    CarriesSecret req.headers props.serviceSecret := by
  rw [PlmAuthFilter.doFilter, if_neg (by simp [hpub]), if_pos h] at hpass
  cases hget : req.headers.get "x-service-secret" with
  | none => simp [hget] at hpass
  | some provided =>
    by_cases heq : some provided = props.serviceSecret
    · exact ⟨provided, heq.symm, hget⟩
    · simp [hget, heq] at hpass

theorem doFilter_of_other (hpub : matchesAny MATCHER req.pathInCtx props.publicPaths = false)
    (h : matchesAny MATCHER req.pathInCtx props.secretPaths = false) :
    PlmAuthFilter.doFilter MATCHER verify props req = bearerBranch verify req := by
  rw [PlmAuthFilter.doFilter, if_neg (by simp [hpub]), if_neg (by simp [h])]

end Filter

/-- What the filter of the service reads. -/
def JavaService.props (svc : JavaService) (serviceSecret : Option String) : AuthProperties :=
  ⟨svc.publicPaths, svc.secretPaths, serviceSecret⟩

section Java

variable {svc : JavaService} {handler : Pattern} {req : HttpServletRequest}

theorem JavaService.Maps.head (h : svc.Maps handler) : ∃ s, handler.head? = some s ∧
    (s ∈ svc.heads ∨ ∃ p ∈ svc.publicPaths, p.covers handler = true) := by
  rcases h with ⟨s, hs, hhead⟩ | ⟨p, hp, hcover⟩
  · exact ⟨s, hhead, Or.inl hs⟩
  · obtain ⟨s, hs, -⟩ := Pattern.plain_head (svc.plain p (List.mem_append_left _ hp))
    exact ⟨s, head_of_covers hs hcover, Or.inr ⟨p, hp, hcover⟩⟩

variable {MATCHER : List Char → List Char → Bool} (ant : AntPathMatcher MATCHER)
  (hmaps : svc.Maps handler) {raw decoded : List Segment}
  (hraw : segments? req.pathInCtx = some raw) (hdec : Decodes raw decoded) (hm : handler.matches decoded = true)
include ant hmaps hraw hdec hm

/-- **The public test is right**: what it lets through goes to a handler under a public path. -/
theorem JavaService.covers_of_public
    (h : matchesAny MATCHER req.pathInCtx svc.publicPaths = true) :
    ∃ p ∈ svc.publicPaths, p.covers handler = true := by
  obtain ⟨hpath, hslash, -⟩ := segments?_eq_some hraw
  obtain ⟨s, hs, hheads | hcovered⟩ := hmaps.head
  · obtain ⟨hne, rest, hcons⟩ := head_of_matches hs hm
    rw [hpath] at h
    obtain ⟨p, hp, hpre, -⟩ := headText_of_matchesAny ant hslash hdec
      (fun p hp => svc.plain p (List.mem_append_left _ hp)) hcons hne h
    refine ⟨below s, svc.heads_apart s hheads p hp hpre, ?_⟩
    obtain ⟨parts, tail⟩ := handler
    cases parts with
    | nil => simp [Pattern.head?] at hs
    | cons part parts =>
      cases part with
      | any => simp [Pattern.head?] at hs
      | lit s' =>
        obtain rfl : s' = s := by simpa [Pattern.head?] using hs
        simp [Pattern.covers, coverParts, below]
  · exact hcovered

omit hmaps in
/-- **The secret test is right exactly on targets that are spelled out.** -/
theorem JavaService.secret_found_iff {q : Pattern} (hq : q ∈ svc.secretPaths)
    (hcover : q.covers handler = true) :
    matchesAny MATCHER req.pathInCtx svc.publicPaths = false ∧
      (matchesAny MATCHER req.pathInCtx svc.secretPaths = true ↔
        SpelledOut svc.secretPaths handler req) := by
  obtain ⟨hpath, hslash, -⟩ := segments?_eq_some hraw
  have hplain : ∀ p ∈ svc.secretPaths, p.plain = true :=
    fun p hp => svc.plain p (List.mem_append_right _ hp)
  have hmatch := matches_of_covers hcover hm
  obtain ⟨rest, hcons⟩ := Pattern.eq_headText_of_matches (hplain q hq) hmatch
  have hne : q.headText ≠ [] := by
    obtain ⟨s, hs, -, htext, -⟩ := Pattern.plain_head (hplain q hq)
    rw [htext]
    exact (head_of_matches hs hmatch).1
  -- the only secret path the handler is under is `q`
  have honly : ∀ p ∈ svc.secretPaths, p.covers handler = true → p = q := by
    intro p hp hpcover
    obtain ⟨rest', hcons'⟩ := Pattern.eq_headText_of_matches (hplain p hp)
      (matches_of_covers hpcover hm)
    refine svc.secret_apart q hq p hp ?_
    rw [(List.cons.inj (hcons'.symm.trans hcons)).1]
  constructor
  · by_contra hpub
    rw [Bool.not_eq_false, hpath] at hpub
    obtain ⟨p, hp, hpre, -⟩ := headText_of_matchesAny ant hslash hdec
      (fun p hp => svc.plain p (List.mem_append_left _ hp)) hcons hne hpub
    exact svc.public_apart q hq p hp hpre
  constructor
  · intro h p hp hpcover
    obtain rfl := honly p hp hpcover
    rw [hpath] at h ⊢
    obtain ⟨p', hp', hpre, hfound⟩ := headText_of_matchesAny ant hslash hdec hplain hcons hne h
    obtain rfl := svc.secret_apart p hq p' hp' hpre
    rcases hfound with ⟨hfound, -⟩ | htext
    · exact Or.inl ⟨raw, hpath ▸ hraw, (matches_nonempty hdec hmatch).symm.trans hfound⟩
    · exact Or.inr htext
  · intro h
    rw [hpath]
    refine matchesAny_of_spelled ant hslash hdec hq (hplain q hq) hmatch ?_
    rcases h q hq hcover with ⟨raw', hraw', hspelled⟩ | htext
    · obtain rfl : raw = raw' := Option.some.inj (hraw.symm.trans hraw')
      exact Or.inl hspelled
    · exact Or.inr (hpath ▸ htext)

/-- **When the filter guards its handlers.** -/
theorem JavaService.guarded_iff {verify : String → Option PlmPrincipal}
    {serviceSecret : Option String} :
    Guarded svc.publicPaths svc.secretPaths handler
        (PlmAuthFilter.doFilter MATCHER verify (svc.props serviceSecret) req)
        (CarriesSecret req.headers serviceSecret) ↔
      SpelledOut svc.secretPaths handler req ∨ CarriesSecret req.headers serviceSecret
        ∨ ¬ AcceptedBearer verify req := by
  by_cases hpub : matchesAny MATCHER req.pathInCtx svc.publicPaths = true
  · -- a public target: the handler is under no secret path
    have hfree : ∀ q ∈ svc.secretPaths, q.covers handler = true → False := by
      intro q hq hcover
      rw [(svc.secret_found_iff ant hraw hdec hm hq hcover).1] at hpub
      cases hpub
    refine iff_of_true ⟨?_, ?_⟩ (Or.inl fun q hq hcover => (hfree q hq hcover).elim)
    · exact fun q hq hcover => (hfree q hq hcover).elim
    · exact fun _ _ _ => Or.inl (svc.covers_of_public ant hmaps hraw hdec hm hpub)
  rw [Bool.not_eq_true] at hpub
  by_cases hsec : matchesAny MATCHER req.pathInCtx svc.secretPaths = true
  · -- the secret is asked for
    have hcarried : ∀ g, PlmAuthFilter.doFilter MATCHER verify (svc.props serviceSecret) req
        = .passed g → CarriesSecret req.headers serviceSecret :=
      fun g => doFilter_of_secret hpub hsec
    refine iff_of_true ⟨fun _ _ _ => hcarried, fun g hg _ => Or.inr (hcarried g hg)⟩ (Or.inl ?_)
    intro q hq hcover
    exact (svc.secret_found_iff ant hraw hdec hm hq hcover).2.mp hsec q hq hcover
  -- the token is asked for
  rw [Bool.not_eq_true] at hsec
  rw [doFilter_of_other hpub hsec]
  constructor
  · intro h
    by_cases hspelled : SpelledOut svc.secretPaths handler req
    · exact Or.inl hspelled
    · by_cases hacc : AcceptedBearer verify req
      · simp only [SpelledOut, not_forall] at hspelled
        obtain ⟨q, hq, hcover, -⟩ := hspelled
        exact Or.inr (Or.inl (h.secretPath q hq hcover _ hacc))
      · exact Or.inr (Or.inr hacc)
  · intro h
    refine ⟨fun q hq hcover g hg => ?_, fun g hg hne => absurd (bearerBranch_passed hg) hne⟩
    obtain rfl := bearerBranch_passed hg
    rcases h with hspelled | hcarried | hacc
    · have := (svc.secret_found_iff ant hraw hdec hm hq hcover).2.mpr hspelled
      rw [hsec] at this
      cases this
    · exact hcarried
    · exact absurd hg hacc

end Java

/-! ## The axum services -/

/-- `is_public`. -/
def is_public (prefixes : List Pattern) (path : List Char) : Bool :=
  prefixes.any fun p => p.text.isPrefixOf path

/-- `str::strip_suffix`. -/
def strip_suffix (text suffix : List Char) : Option (List Char) :=
  if suffix.isSuffixOf text then some (text.take (text.length - suffix.length)) else none

/-- `ant_match`. -/
def ant_match (pattern path : List Char) : Bool :=
  if pattern.isPrefixOf path then true
  else
    match strip_suffix pattern "/**".toList with
    | some pre => path = pre || (pre ++ ['/']).isPrefixOf path
    | none =>
      let pp := pattern.splitOn '/'
      let sp := path.splitOn '/'
      pp.length = sp.length && (pp.zip sp).all fun x => x.1 = ['*'] || x.1 = x.2

/-- The middleware, given its two path tests and its answer to a wrong secret. -/
def authMiddleware {User : Type} (isPublic isSecret : List Char → Bool) (wrongSecret : Verdict)
    (verify_any : String → Option User) (service_secret : String) (req : Request) : Verdict :=
  if isPublic req.path then .passed .publicPath
  else if isSecret req.path then
    if (req.headers.get "x-service-secret").bind to_str = some service_secret then .passed .secret
    else wrongSecret
  else
    match ((req.headers.get "authorization").bind to_str).bind fun a =>
      strip_prefix "Bearer ".toList a.toList with
    | none => .rejected 401 "Missing Bearer token"
    | some t =>
      if trim t = [] then .rejected 401 "Missing Bearer token"
      else
        match verify_any (String.ofList (trim t)) with
        | none => .rejected 401 "Invalid or expired token"
        | some _ => .passed .bearer

/-- axum dispatches the request to the handler. -/
def AxumDispatches (req : Request) (handler : Pattern) : Prop :=
  ∃ raw, segments? req.path = some raw ∧ handler.matches raw = true

/-- What a service configures and the routes it has. No public prefix begins the first segment of a
route, unless the route is below it; a route under a secret path is not. -/
structure AxumService where
  public_prefixes : List Pattern
  secretPaths : List Pattern := [below "internal"]
  routes : List Pattern
  plain : ∀ p ∈ public_prefixes ++ secretPaths, p.plain = true := by decide
  heads : ∀ r ∈ routes, r.head?.isSome = true := by decide
  routes_apart : ∀ r ∈ routes, ∀ p ∈ public_prefixes, p.headText <+: r.headText →
    (Pattern.mk p.parts true).covers r = true := by decide
  secret_apart : ∀ q ∈ secretPaths, ∀ p ∈ public_prefixes, ¬ p.headText <+: q.headText := by decide

/-- Everything that begins with a public prefix. -/
def AxumService.publicPaths (svc : AxumService) : List Pattern :=
  svc.public_prefixes.map fun p => ⟨p.parts, true⟩

def pnoApiRs : AxumService where
  public_prefixes :=
    [whole [lit "actuator"], whole [lit "v3", lit "api-docs"], whole [lit "swagger-ui"]]
  secretPaths := [below "internal", whole [lit "users", any, lit "context"],
    whole [lit "project-spaces", any, lit "effective-service-tags"]]
  routes := [
    [lit "actuator", lit "health"], [lit "users"], [lit "users", any],
    [lit "users", any, lit "roles", any], [lit "users", any, lit "roles"],
    [lit "users", any, lit "admin"], [lit "users", any, lit "default-space"],
    [lit "users", any, lit "context"], [lit "roles"], [lit "roles", any], [lit "project-spaces"],
    [lit "project-spaces", any], [lit "project-spaces", any, lit "descendants"],
    [lit "project-spaces", any, lit "service-tags"],
    [lit "project-spaces", any, lit "effective-service-tags"],
    [lit "project-spaces", any, lit "service-tags", any],
    [lit "project-spaces", any, lit "isolated"], [lit "users", any, lit "basket"],
    [lit "users", any, lit "basket", any, any, any], [lit "users", any, lit "kv", any],
    [lit "users", any, lit "kv", any, lit "single", any],
    [lit "users", any, lit "kv", any, lit "single", any, any],
    [lit "users", any, lit "kv", any, any, any], [lit "users", any, lit "tokens"],
    [lit "users", any, lit "tokens", any], [lit "internal", lit "tokens", lit "verify"],
    [lit "global-actions"], [lit "permissions"], [lit "permissions", any],
    [lit "my-global-permissions"], [lit "roles", any, lit "policies"],
    [lit "roles", any, lit "global-permissions"], [lit "roles", any, lit "global-permissions", any],
    [lit "roles", any, lit "scope-permissions", any],
    [lit "roles", any, lit "scope-permissions", any, any],
    [lit "nodetypes", any, lit "permissions", any], [lit "access-rights", lit "tree"],
    [lit "access-rights", lit "roles", any, lit "grants"], [lit "access-rights", lit "grants"],
    [lit "internal", lit "authorization", lit "snapshot"],
    [lit "internal", lit "authorization", lit "version"],
    [lit "internal", lit "scopes", lit "register"], [lit "internal", lit "scopes"]].map whole

def platformApiRs : AxumService where
  public_prefixes :=
    [whole [lit "actuator"], whole [lit "v3", lit "api-docs"], whole [lit "swagger-ui"],
      whole [lit "status"]]
  routes := [
    [lit "actuator", lit "health"], [lit "internal", lit "environment", lit "register"],
    [lit "internal", lit "environment", lit "snapshot"],
    [lit "internal", lit "environment", lit "register", any, lit "instances", any],
    [lit "internal", lit "environment", lit "register", any],
    [lit "admin", lit "registry", lit "grouped"], [lit "admin", lit "registry", lit "tags"],
    [lit "admin", lit "registry", lit "overview"],
    [lit "admin", lit "environment", lit "expected-services"],
    [lit "admin", lit "environment", lit "expected-services", lit "services"],
    [lit "admin", lit "environment", lit "expected-services", lit "services", any],
    [lit "internal", lit "registry", lit "actions"], [lit "registry", lit "actions"],
    [lit "internal", lit "config", lit "actions"],
    [lit "internal", lit "algorithms", lit "instances"],
    [lit "internal", lit "algorithms", lit "by-type"], [lit "algorithms", lit "types"],
    [lit "algorithms"], [lit "algorithms", lit "services"], [lit "algorithms", lit "by-type", any],
    [lit "algorithms", any, lit "parameters"], [lit "algorithms", lit "instances"],
    [lit "algorithms", lit "instances", any], [lit "algorithms", any, lit "instances"],
    [lit "algorithms", lit "instances", any, lit "params"],
    [lit "algorithms", lit "instances", any, lit "params", any],
    [lit "algorithms", lit "actions", any, lit "wrappers"],
    [lit "algorithms", lit "actions", any, lit "wrappers", any],
    [lit "algorithms", lit "transitions", any, lit "guards"],
    [lit "algorithms", lit "transitions", lit "guards", any],
    [lit "algorithms", lit "actions", any, lit "guards"],
    [lit "algorithms", lit "actions", any, lit "guards", any], [lit "algorithms", lit "stats"],
    [lit "algorithms", lit "stats", lit "timeseries"], [lit "actions", lit "services"],
    [lit "actions"], [lit "actions", any], [lit "actions", any, lit "parameters"],
    [lit "actions", any, lit "guards"], [lit "actions", any, lit "guards", any], [lit "sections"],
    [lit "internal", lit "settings", lit "register"],
    [lit "internal", lit "settings", lit "register", any, lit "instances", any],
    [lit "internal", lit "settings", lit "register", any], [lit "status"],
    [lit "status", lit "nats"], [lit "transactions"], [lit "transactions", any],
    [lit "transactions", any, any], [lit "transactions", any, any, lit "commit"],
    [lit "transactions", any, any, lit "rollback"], [lit "transactions", any, any, lit "items"],
    [lit "dashboard", lit "entries"], [lit "items"], [lit "ui", lit "manifest"],
    [lit "admin", lit "secrets"], [lit "admin", lit "secrets", any]].map whole

/-- The middleware of pno-api-rs. -/
def pnoMiddleware {User : Type} :
    (String → Option User) → String → Request → Verdict :=
  authMiddleware (is_public pnoApiRs.public_prefixes)
    (fun path => pnoApiRs.secretPaths.any fun p => ant_match p.text path)
    (.rejected 403 "Invalid or missing service secret")

/-- The middleware of platform-api-rs. -/
def platformMiddleware {User : Type} :
    (String → Option User) → String → Request → Verdict :=
  authMiddleware (is_public platformApiRs.public_prefixes)
    (fun path => "/internal/".toList <:+: path)
    (.rejected 401 "Invalid or missing X-Service-Secret")

section Axum

variable {svc : AxumService} {handler : Pattern} {raw : List Segment}
  (hmem : handler ∈ svc.routes) (hraw : ∀ seg ∈ raw, '/' ∉ seg) (hm : handler.matches raw = true)

include hmem hm in
theorem AxumService.starts : ∃ rest, raw = handler.headText :: rest := by
  obtain ⟨s, hs⟩ := Option.isSome_iff_exists.mp (svc.heads handler hmem)
  have htext : handler.headText = s.toList := by rw [Pattern.headText, hs]; rfl
  rw [htext]
  exact (head_of_matches hs hm).2

theorem headText_of_is_public {prefixes : List Pattern} (hplain : ∀ p ∈ prefixes, p.plain = true)
    {seg : Segment} {segs : List Segment}
    (h : is_public prefixes (pathText (seg :: segs)) = true) :
    ∃ p ∈ prefixes, p.headText <+: seg := by
  obtain ⟨p, hp, hpre⟩ := List.any_eq_true.mp h
  exact ⟨p, hp, Pattern.headText_prefix (hplain p hp) (List.isPrefixOf_iff_prefix.mp hpre)⟩

include hmem hm in
theorem AxumService.covers_of_public (h : is_public svc.public_prefixes (pathText raw) = true) :
    ∃ p ∈ svc.publicPaths, p.covers handler = true := by
  obtain ⟨rest, rfl⟩ := AxumService.starts hmem hm
  obtain ⟨p, hp, hpre⟩ :=
    headText_of_is_public (fun p hp => svc.plain p (List.mem_append_left _ hp)) h
  exact ⟨⟨p.parts, true⟩, List.mem_map_of_mem hp, svc.routes_apart handler hmem p hp hpre⟩

include hm in
theorem AxumService.not_public_of_secret {q : Pattern} (hq : q ∈ svc.secretPaths)
    (hcover : q.covers handler = true) : is_public svc.public_prefixes (pathText raw) = false := by
  have hplain : q.plain = true := svc.plain q (List.mem_append_right _ hq)
  obtain ⟨rest, rfl⟩ := Pattern.eq_headText_of_matches hplain (matches_of_covers hcover hm)
  by_contra h
  obtain ⟨p, hp, hpre⟩ := headText_of_is_public
    (fun p hp => svc.plain p (List.mem_append_left _ hp)) (by simpa using h)
  exact svc.secret_apart q hq p hp hpre

/-- **A middleware that asks for the secret wherever a secret path leads guards its handlers.** -/
theorem authMiddleware_guarded {User : Type} {isSecret : List Char → Bool} {wrongSecret : Verdict}
    (hwrong : ∀ g, wrongSecret ≠ .passed g) {verify_any : String → Option User}
    {service_secret : String} {req : Request} (hmem : handler ∈ svc.routes)
    (hdisp : AxumDispatches req handler)
    (hsecret : ∀ raw, req.path = pathText raw → (∀ seg ∈ raw, '/' ∉ seg) →
      handler.matches raw = true → ∀ q ∈ svc.secretPaths, q.covers handler = true →
      isSecret req.path = true) :
    Guarded svc.publicPaths svc.secretPaths handler
      (authMiddleware (is_public svc.public_prefixes) isSecret wrongSecret verify_any
        service_secret req) (CarriesSecret req.headers (some service_secret)) := by
  obtain ⟨raw, hraw, hm⟩ := hdisp
  obtain ⟨hpath, hslash, -⟩ := segments?_eq_some hraw
  unfold authMiddleware
  by_cases hpub : is_public svc.public_prefixes req.path = true
  · rw [if_pos hpub]
    rw [hpath] at hpub
    refine ⟨fun q hq hcover g _ => ?_,
      fun g _ _ => Or.inl (AxumService.covers_of_public hmem hm hpub)⟩
    rw [AxumService.not_public_of_secret hm hq hcover] at hpub
    cases hpub
  rw [if_neg hpub]
  by_cases hs : isSecret req.path = true
  · rw [if_pos hs]
    have hcarried : ∀ g, (if (req.headers.get "x-service-secret").bind to_str = some service_secret
        then Verdict.passed .secret else wrongSecret) = .passed g →
        CarriesSecret req.headers (some service_secret) := by
      intro g hg
      by_cases hsent : (req.headers.get "x-service-secret").bind to_str = some service_secret
      · obtain ⟨value, hget, hvalue⟩ := Option.bind_eq_some_iff.mp hsent
        refine ⟨service_secret, rfl, ?_⟩
        unfold to_str at hvalue
        split at hvalue
        · rw [hget, hvalue]
        · cases hvalue
      · rw [if_neg hsent] at hg
        exact absurd hg (hwrong g)
    exact ⟨fun _ _ _ => hcarried, fun g hg _ => Or.inr (hcarried g hg)⟩
  rw [if_neg hs]
  refine ⟨fun q hq hcover g _ => absurd (hsecret raw hpath hslash hm q hq hcover) hs,
    fun g hg hne => absurd ?_ hne⟩
  -- only the token is left
  split at hg
  · cases hg
  · split at hg
    · cases hg
    · split at hg <;> cases hg
      rfl

end Axum

/-! ### The secret test of pno-api-rs -/

theorem strip_suffix_append (text suffix : List Char) :
    strip_suffix (text ++ suffix) suffix = some text := by
  rw [strip_suffix, if_pos (List.isSuffixOf_iff_suffix.mpr (List.suffix_append ..))]
  simp

/-- A path below a literal is found. -/
theorem ant_match_below {a : String} (ha : '/' ∉ a.toList) {segs : List Segment}
    (hslash : ∀ seg ∈ segs, '/' ∉ seg)
    (h : (below a).matches segs = true) : ant_match (below a).text (pathText segs) = true := by
  obtain ⟨-, hcons⟩ := head_of_matches (p := below a) rfl h
  have htext : (below a).text = ('/' :: a.toList) ++ "/**".toList := by
    simp [below, Pattern.text, Part.text, UrlPath.pathText]
  unfold ant_match
  split
  · rfl
  rw [htext, strip_suffix_append, Bool.or_eq_true, decide_eq_true_eq, List.isPrefixOf_iff_prefix]
  exact (UrlPath.pathText_eq_or_prefix_iff ha hslash).mpr hcons

theorem zip_of_matchParts {ps : List Part} {segs : List Segment}
    (h : matchParts false ps segs = true) : ps.length = segs.length ∧
    ((ps.map Part.text).zip segs).all (fun x => x.1 = ['*'] || x.1 = x.2) = true := by
  induction ps generalizing segs with
  | nil =>
    obtain rfl : segs = [] := by simpa [matchParts] using h
    exact ⟨rfl, rfl⟩
  | cons part ps ih =>
    cases segs with
    | nil => simp [matchParts] at h
    | cons seg segs =>
      rw [matchParts, Bool.and_eq_true] at h
      obtain ⟨hlen, hall⟩ := ih h.2
      refine ⟨by simp [hlen], ?_⟩
      rw [List.map_cons, List.zip_cons_cons, List.all_cons, hall, Bool.and_true]
      cases part with
      | any => simp [Part.text]
      | lit s =>
        have hseg := h.1
        simp only [Part.matches, Bool.and_eq_true, decide_eq_true_eq] at hseg
        simp [Part.text, hseg.2]

/-- A path of the segments of a pattern is found. -/
theorem ant_match_of_matches {p : Pattern} (htail : p.tail = false)
    (hstrip : strip_suffix p.text "/**".toList = none) (hparts : ∀ part ∈ p.parts, '/' ∉ part.text)
    {segs : List Segment} (hslash : ∀ seg ∈ segs, '/' ∉ seg) (h : p.matches segs = true) :
    ant_match p.text (pathText segs) = true := by
  rw [Pattern.matches, htail] at h
  obtain ⟨hlen, hall⟩ := zip_of_matchParts h
  have htexts : ∀ text ∈ p.parts.map Part.text, '/' ∉ text := by simpa using hparts
  have hsplit : p.text.splitOn '/' = [] :: p.parts.map Part.text := by
    rw [Pattern.text, htail, if_neg Bool.false_ne_true, List.append_nil, splitOn_pathText htexts]
  unfold ant_match
  split
  · rfl
  rw [hstrip]
  simp only [hsplit, splitOn_pathText hslash, List.zip_cons_cons, List.all_cons, hall]
  simp [hlen]

theorem pno_secret_found {q : Pattern} (hq : q ∈ pnoApiRs.secretPaths) {segs : List Segment}
    (hslash : ∀ seg ∈ segs, '/' ∉ seg) (h : q.matches segs = true) :
    ant_match q.text (pathText segs) = true := by
  simp only [pnoApiRs, List.mem_cons, List.not_mem_nil, or_false] at hq
  rcases hq with rfl | rfl | rfl
  · exact ant_match_below (by decide) hslash h
  · exact ant_match_of_matches rfl (by decide) (by decide) hslash h
  · exact ant_match_of_matches rfl (by decide) (by decide) hslash h

/-- A route of platform-api-rs below `/internal` has a segment after it. -/
theorem platform_secret_found {handler : Pattern} (hmem : handler ∈ platformApiRs.routes)
    (hcover : (below "internal").covers handler = true) {segs : List Segment}
    (hm : handler.matches segs = true) : "/internal/".toList <:+: pathText segs := by
  have hlong : ∀ r ∈ platformApiRs.routes, (below "internal").covers r = true →
      (Pattern.mk [.lit "internal", .any] true).covers r = true := by decide
  have h := matches_of_covers (hlong handler hmem hcover) hm
  obtain ⟨-, rest, rfl⟩ := head_of_matches (p := ⟨[.lit "internal", .any], true⟩) rfl h
  cases rest with
  | nil => simp [Pattern.matches, matchParts] at h
  | cons next rest =>
    refine List.IsPrefix.isInfix ⟨next ++ pathText rest, ?_⟩
    rw [UrlPath.pathText_cons, UrlPath.pathText_cons]
    simp

/-! ## The three filters -/

/-- **Who guards the internal endpoints.** The middleware of pno-api-rs and of platform-api-rs do,
on every request. `PlmAuthFilter` does exactly on the requests whose target spells the secret path
out, that carry the secret, or that have no Bearer token it accepts. -/
theorem internal_endpoints_guarded_iff {MATCHER : List Char → List Char → Bool}
    (ant : AntPathMatcher MATCHER) :
    (∀ svc ∈ javaServices, ∀ (verify : String → Option PlmPrincipal)
        (serviceSecret : Option String) (req : HttpServletRequest) (handler : Pattern),
        svc.Maps handler → Dispatches req handler →
        (Guarded svc.publicPaths svc.secretPaths handler
            (PlmAuthFilter.doFilter MATCHER verify (svc.props serviceSecret) req)
            (CarriesSecret req.headers serviceSecret) ↔
          SpelledOut svc.secretPaths handler req ∨ CarriesSecret req.headers serviceSecret
            ∨ ¬ AcceptedBearer verify req)) ∧
    (∀ (User : Type) (verify_any : String → Option User) (service_secret : String) (req : Request),
      (∀ handler ∈ pnoApiRs.routes, AxumDispatches req handler →
        Guarded pnoApiRs.publicPaths pnoApiRs.secretPaths handler
          (pnoMiddleware verify_any service_secret req)
          (CarriesSecret req.headers (some service_secret))) ∧
      ∀ handler ∈ platformApiRs.routes, AxumDispatches req handler →
        Guarded platformApiRs.publicPaths platformApiRs.secretPaths handler
          (platformMiddleware verify_any service_secret req)
          (CarriesSecret req.headers (some service_secret))) := by
  refine ⟨?_, fun User verify_any service_secret req => ⟨?_, ?_⟩⟩
  · rintro svc - verify serviceSecret req handler hmaps ⟨raw, decoded, hraw, hdec, hm⟩
    exact svc.guarded_iff ant hmaps hraw hdec hm
  · intro handler hmem hdisp
    -- pno looks for the secret paths one by one
    refine authMiddleware_guarded (by simp) hmem hdisp ?_
    intro raw hpath hslash hm q hq hcover
    rw [hpath]
    exact List.any_eq_true.mpr
      ⟨q, hq, pno_secret_found hq hslash (matches_of_covers hcover hm)⟩
  · intro handler hmem hdisp
    refine authMiddleware_guarded (by simp) hmem hdisp ?_
    -- platform-api has one secret path
    intro raw hpath hslash hm q hq hcover
    obtain rfl : q = below "internal" := by simpa [platformApiRs] using hq
    rw [hpath, decide_eq_true_eq]
    exact platform_secret_found hmem hcover hm

/-- A matcher of the paths and patterns above. -/
def antMatch (pattern path : List Char) : Bool :=
  match (segments? pattern).map readPattern, segments? path with
  | some p, some segs => p.matches (nonempty segs) && (p.tail || segs.getLast? ≠ some [])
  | _, _ => false

theorem antMatch_matcher : AntPathMatcher antMatch := by
  constructor
  intro p hp segs hne hslash
  rw [antMatch, readPattern_text hp, segments?_pathText hne hslash]
  simp

/-- A request to the import endpoint of cad-api with a user's token. -/
def importRequest (path : String) (headers : Headers) : HttpServletRequest :=
  ⟨path.toList, none, ("authorization", "Bearer t") :: headers⟩

theorem import_dispatched (headers : Headers) :
    cadApi.Maps (whole [lit "internal", lit "import"]) ∧
      Dispatches (importRequest "/internal;v=1/import" headers)
        (whole [lit "internal", lit "import"]) :=
  ⟨Or.inl ⟨"internal", by decide, by decide⟩,
    ["internal;v=1".toList, "import".toList], ["internal".toList, "import".toList],
    show segments? "/internal;v=1/import".toList = _ by decide,
    .cons (by decide) (.cons (by decide) .nil), by decide⟩

/-- With the secret in a header the same target is guarded. -/
theorem internal_endpoints_guarded_with_secret :
    Guarded cadApi.publicPaths cadApi.secretPaths (whole [lit "internal", lit "import"])
      (PlmAuthFilter.doFilter antMatch (fun _ => some ⟨none, none⟩) (cadApi.props (some "s"))
        (importRequest "/internal;v=1/import" [("x-service-secret", "s")]))
      (CarriesSecret (importRequest "/internal;v=1/import" [("x-service-secret", "s")]).headers
        (some "s")) := by
  obtain ⟨hmaps, hdisp⟩ := import_dispatched [("x-service-secret", "s")]
  exact ((internal_endpoints_guarded_iff antMatch_matcher).1 cadApi (by simp [javaServices]) _ _ _ _
    hmaps hdisp).mpr (Or.inr (Or.inl ⟨"s", rfl, by decide⟩))

/-- With a path parameter in the target, a user's token opens the import endpoint. -/
theorem internal_endpoint_open_beside_parameter :
    Dispatches (importRequest "/internal;v=1/import" []) (whole [lit "internal", lit "import"]) ∧
      PlmAuthFilter.doFilter antMatch (fun _ => some ⟨none, none⟩) (cadApi.props (some "s"))
        (importRequest "/internal;v=1/import" []) = .passed .bearer ∧
      ¬ Guarded cadApi.publicPaths cadApi.secretPaths (whole [lit "internal", lit "import"])
        (PlmAuthFilter.doFilter antMatch (fun _ => some ⟨none, none⟩) (cadApi.props (some "s"))
          (importRequest "/internal;v=1/import" []))
        (CarriesSecret (importRequest "/internal;v=1/import" []).headers (some "s")) := by
  have hpass : PlmAuthFilter.doFilter antMatch (fun _ => some ⟨none, none⟩)
      (cadApi.props (some "s")) (importRequest "/internal;v=1/import" []) = .passed .bearer := by decide +kernel
  refine ⟨(import_dispatched []).2, hpass, fun h => ?_⟩
  obtain ⟨s, -, hs⟩ := h.secretPath (below "internal") (by decide) (by decide) _ hpass
  revert hs
  simp [importRequest, Headers.get]

end PlmCore.Platform
