/-
Operation tokens at the backends.

A token of type `op` carries the id of its job, and `PlmAuthFilter` lets it through with that id in
`X-Job-Id` only, as `authenticate` of dst does (`auth.zig`). The middleware of pno-api-rs and of
platform-api-rs verifies a token with `verify_any`, whatever its type. All of them verify HS256 with
one key: what a token with a valid signature says is a parameter.
-/
import PlmCore.Dst.Authz
import PlmCore.Platform.AuthFilter

set_option autoImplicit false

namespace PlmCore.Platform

open PlmCore.Lib PlmCore.Lib.PathPattern PlmCore.Lib.PathPattern.Part
open PlmCore.Spe

/-- The claims of a token, without those no backend compares or passes on here. -/
structure Claims where
  sub : String
  typ : String
  username : Option String
  isAdmin : Option Bool
  ps : Option String
  jid : Option String
  roleIds : Option (List String)
  perms : Option (List String)
  exp : Int

section Backends

-- the claims of a token with a valid signature, the time, and the clock skews
variable (decode : String → Option Claims) (now : Int)

/-! ## The verifiers -/

/-- `JwtVerifier.verify`, what the filter reads of the principal. -/
def JwtVerifier.verify (clockSkewSeconds : Nat) (token : String) : Option PlmPrincipal :=
  if Lib.isBlank token then none
  else
    match decode token with
    | none => none
    | some c => if c.exp + clockSkewSeconds < now then none else some ⟨some c.typ, c.jid⟩

/-- `JwtCodec::verify_any`; the type is not compared. -/
def verify_any (clock_skew_seconds : Nat) (token : String) : Option Claims :=
  match decode token with
  | none => none
  | some c => if c.exp + clock_skew_seconds < now then none else some c

/-- `Codec.verify` of platform-lib-zig. -/
def codecVerify (clock_skew_s : Nat) (token : String) : Option Claims :=
  match decode token with
  | none => none
  | some c => if c.exp ≠ 0 ∧ c.exp + clock_skew_s < now then none else some c

/-! ## `authenticate` of dst -/

/-- `std.mem.trim` of blanks. -/
def trimBlanks (text : List Char) : List Char :=
  ((text.dropWhile (· = ' ')).reverse.dropWhile (· = ' ')).reverse

/-- `bearerToken`. -/
def bearerToken (authorization : String) : String :=
  match strip_prefix "Bearer ".toList authorization.toList with
  | some rest => String.ofList (trimBlanks rest)
  | none => ""

/-- `authenticate`. -/
def authenticate (clock_skew_s : Nat) (headers : Headers) : Option Dst.Principal :=
  match headers.get "authorization" with
  | none => none
  | some authz =>
    let token := bearerToken authz
    if token = "" then none
    else
      match codecVerify decode now clock_skew_s token with
      | none => none
      | some v =>
        if v.sub = "" then none
        else if v.typ ≠ "fwd" ∧ v.typ ≠ "op" then none
        else
          -- an operation token is bound to a job
          let jid := v.jid.getD ""
          let header_jid := (headers.get "x-job-id").getD ""
          if v.typ = "op" ∧ (jid = "" ∨ header_jid ≠ jid) then none
          else some ⟨v.sub, v.ps.getD "", v.username.getD "", v.isAdmin.getD false,
            v.perms.getD [], v.roleIds.getD []⟩

/-! ## The backends -/

/-- A service on platform-lib mounted at a path, or one of the others. -/
inductive Backend where
  | java (svc : JavaService) (contextPath : Option (List Char))
  | pno
  | platform
  | dst

/-- What a backend is configured with. -/
structure AuthConfig where
  MATCHER : List Char → List Char → Bool
  serviceSecret : String
  clockSkew : Nat

variable (cfg : AuthConfig)

/-- The request as a servlet sees it. -/
def servletRequest (contextPath : Option (List Char)) (req : Request) : HttpServletRequest :=
  ⟨req.path, contextPath, req.headers⟩

/-- The routes of dst behind its gate. -/
def dstGated : List Pattern := [below "data", whole [lit "stats"]]

/-- The backend treats the path neither as public nor as secret. -/
def Backend.Protects (req : Request) : Backend → Prop
  | .java svc contextPath =>
    matchesAny cfg.MATCHER (servletRequest contextPath req).pathInCtx svc.publicPaths = false ∧
      matchesAny cfg.MATCHER (servletRequest contextPath req).pathInCtx svc.secretPaths = false
  | .pno => is_public pnoApiRs.public_prefixes req.path = false ∧
      (pnoApiRs.secretPaths.any fun p => ant_match p.text req.path) = false
  | .platform => is_public platformApiRs.public_prefixes req.path = false ∧
      ¬ "/internal/".toList <:+: req.path
  | .dst => ∃ handler ∈ dstGated, AxumDispatches req handler

/-- The backend lets the request through. -/
def Backend.LetsThrough (req : Request) : Backend → Prop
  | .java svc contextPath => ∃ ground,
      PlmAuthFilter.doFilter cfg.MATCHER (JwtVerifier.verify decode now cfg.clockSkew)
        (svc.props (some cfg.serviceSecret)) (servletRequest contextPath req) = .passed ground
  | .pno => ∃ ground,
      pnoMiddleware (verify_any decode now cfg.clockSkew) cfg.serviceSecret req = .passed ground
  | .platform => ∃ ground,
      platformMiddleware (verify_any decode now cfg.clockSkew) cfg.serviceSecret req = .passed ground
  | .dst => (authenticate decode now cfg.clockSkew req.headers).isSome = true

/-- The backend compares `X-Job-Id` with the token. -/
def Backend.ComparesJob : Backend → Prop
  | .java _ _ | .dst => True
  | .pno | .platform => False

/-- The request carries the token: it has no blank and no character beyond ASCII. -/
structure Bears (req : Request) (token : String) : Prop where
  header : req.headers.get "authorization" = some ("Bearer " ++ token)
  nonempty : token ≠ ""
  visible : ∀ c ∈ token.toList, '!' ≤ c ∧ c ≤ '~'

/-- The token is a valid one of type `op` for the job. -/
structure IsOperation (token jid : String) : Prop where
  claims : ∃ c, decode token = some c ∧ c.typ = "op" ∧ c.sub ≠ "" ∧ c.jid = some jid ∧ now ≤ c.exp
  nonempty : jid ≠ ""

/-! ## The token in the header -/

/-- Nothing is trimmed off a text without such characters. -/
theorem dropWhile_ends {p : Char → Bool} {text : List Char} (h : ∀ c ∈ text, p c = false) :
    ((text.dropWhile p).reverse.dropWhile p).reverse = text := by
  have hstays : ∀ l : List Char, (∀ c ∈ l, p c = false) → l.dropWhile p = l := by
    intro l hl
    refine List.dropWhile_eq_self_iff.mpr fun hpos => ?_
    rw [hl _ (List.getElem_mem hpos)]
    decide
  rw [hstays text h, hstays text.reverse fun c hc => h c (List.mem_reverse.mp hc),
    List.reverse_reverse]

theorem isWhiteSpace_visible {c : Char} (h : '!' ≤ c ∧ c ≤ '~') : isWhiteSpace c = false := by
  have hlow : 0x21 ≤ c.toNat := h.1
  have hhigh : c.toNat ≤ 0x7E := h.2
  simp only [isWhiteSpace, decide_eq_false_iff_not, List.mem_cons, List.not_mem_nil,
    ← UInt32.toNat_inj, UInt32.le_iff_toNat_le]
  simp only [UInt32.reduceToNat, Char.toNat_val, or_false, not_or, not_and]
  omega

theorem isVisibleAscii_visible {c : Char} (h : '!' ≤ c ∧ c ≤ '~') : isVisibleAscii c = true := by
  have hlow : 0x21 ≤ c.toNat := h.1
  have hblank : ' ' ≤ c := by
    rw [Char.le_def, UInt32.le_iff_toNat_le]
    exact Nat.le_trans (by decide) hlow
  exact decide_eq_true (.inl ⟨hblank, h.2⟩)

variable {decode now cfg} {req : Request} {token jid : String}

/-- The text after the prefix, which every backend drops. -/
theorem Bears.drop (_h : Bears req token) :
    ("Bearer " ++ token).toList.drop "Bearer ".length = token.toList := by
  rw [String.toList_append, List.drop_left']
  rfl

theorem Bears.isPrefix (_h : Bears req token) :
    "Bearer ".toList <+: ("Bearer " ++ token).toList := by
  rw [String.toList_append]
  exact List.prefix_append _ _

theorem Bears.toList_ne_nil (h : Bears req token) : token.toList ≠ [] := by
  intro hnil
  exact h.nonempty (by simpa using hnil)

/-- A visible header value is read as it is. -/
theorem Bears.to_str (h : Bears req token) :
    to_str ("Bearer " ++ token) = some ("Bearer " ++ token) := by
  rw [Spe.to_str, if_pos]
  rw [String.toList_append, List.all_append, Bool.and_eq_true]
  refine ⟨by decide, ?_⟩
  rw [List.all_eq_true]
  exact fun c hc => isVisibleAscii_visible (h.visible c hc)

theorem Bears.trim (h : Bears req token) : Spe.trim token.toList = token.toList :=
  dropWhile_ends fun c hc => isWhiteSpace_visible (h.visible c hc)

theorem Bears.bearerToken (h : Bears req token) : bearerToken ("Bearer " ++ token) = token := by
  have htrim : trimBlanks token.toList = token.toList := by
    refine dropWhile_ends fun c hc => decide_eq_false ?_
    rintro rfl
    exact absurd (h.visible _ hc).1 (by decide)
  simp only [Platform.bearerToken, strip_prefix, if_pos h.isPrefix]
  rw [String.length_toList, h.drop, htrim, String.ofList_toList]

theorem Bears.lib_trim (h : Bears req token) : Lib.trim token = token := by
  have hends : ∀ c ∈ token.toList, decide (c.toNat ≤ 32) = false := by
    intro c hc
    have hlow : 0x21 ≤ c.toNat := (h.visible c hc).1
    exact decide_eq_false (by omega)
  rw [Lib.trim]
  exact (congrArg String.ofList (dropWhile_ends hends)).trans String.ofList_toList

theorem Bears.not_blank (h : Bears req token) : Lib.isBlank token = false := by
  rw [Lib.isBlank, List.all_eq_false]
  obtain ⟨c, hc⟩ := List.exists_mem_of_ne_nil _ h.toList_ne_nil
  refine ⟨c, hc, ?_⟩
  have hlow : 0x21 ≤ c.toNat := (h.visible c hc).1
  have hhigh : c.toNat ≤ 0x7E := (h.visible c hc).2
  simp [Lib.isWhitespace]
  omega

/-! ## Each backend on an operation token -/

/-- The verifiers of the backends accept the token. -/
theorem IsOperation.verify (h : IsOperation decode now token jid) (hbears : Bears req token)
    (skew : Nat) : JwtVerifier.verify decode now skew token = some ⟨some "op", some jid⟩ := by
  obtain ⟨c, hdecode, htyp, -, hjid, hexp⟩ := h.claims
  rw [JwtVerifier.verify, if_neg (by simp [hbears.not_blank]), hdecode]
  dsimp only
  rw [if_neg (by omega), htyp, hjid]

theorem IsOperation.verify_any (h : IsOperation decode now token jid) (skew : Nat) :
    ∃ c, Platform.verify_any decode now skew token = some c := by
  obtain ⟨c, hdecode, -, -, -, hexp⟩ := h.claims
  refine ⟨c, ?_⟩
  rw [Platform.verify_any, hdecode]
  dsimp only
  rw [if_neg (by omega)]

theorem java_lets_through_iff (h : IsOperation decode now token jid) (hbears : Bears req token)
    {svc : JavaService} {contextPath : Option (List Char)}
    (hpath : (Backend.java svc contextPath).Protects cfg req) :
    (Backend.java svc contextPath).LetsThrough decode now cfg req ↔
      req.headers.get "x-job-id" = some jid := by
  obtain ⟨hpublic, hsecret⟩ := hpath
  have hbranch : bearerBranch (JwtVerifier.verify decode now cfg.clockSkew)
      (servletRequest contextPath req) =
      if req.headers.get "x-job-id" = some jid then .passed .bearer
      else .rejected 403 "Operation token job-id mismatch" := by
    have hprefix : "Bearer ".toList.isPrefixOf ("Bearer " ++ token).toList = true :=
      List.isPrefixOf_iff_prefix.mpr hbears.isPrefix
    simp only [bearerBranch, servletRequest, hbears.header, hprefix, hbears.drop,
      String.ofList_toList, hbears.lib_trim, h.verify hbears]
    cases req.headers.get "x-job-id" with
    | none => simp
    | some job =>
      by_cases hjob : job = jid
      · simp [hjob]
      · simp [hjob]
  simp only [Backend.LetsThrough]
  rw [doFilter_of_other hpublic hsecret, hbranch]
  split
  · rename_i hjob
    exact iff_of_true ⟨_, rfl⟩ hjob
  · rename_i hjob
    refine iff_of_false ?_ hjob
    rintro ⟨ground, hground⟩
    cases hground

/-- The middleware lets every valid token through. -/
theorem authMiddleware_lets_through {isPublic isSecret : List Char → Bool} {wrongSecret : Verdict}
    (h : IsOperation decode now token jid) (hbears : Bears req token)
    (hpublic : isPublic req.path = false) (hsecret : isSecret req.path = false) :
    authMiddleware isPublic isSecret wrongSecret (Platform.verify_any decode now cfg.clockSkew)
      cfg.serviceSecret req = .passed .bearer := by
  obtain ⟨c, hverify⟩ := h.verify_any cfg.clockSkew
  have hstrip : ((req.headers.get "authorization").bind Spe.to_str).bind
      (fun a => strip_prefix "Bearer ".toList a.toList) = some token.toList := by
    rw [hbears.header, Option.bind_some, hbears.to_str, Option.bind_some, strip_prefix,
      if_pos hbears.isPrefix]
    exact congrArg some hbears.drop
  rw [authMiddleware, if_neg (by simp [hpublic]), if_neg (by simp [hsecret]), hstrip]
  dsimp only
  rw [hbears.trim, if_neg hbears.toList_ne_nil, String.ofList_toList, hverify]

theorem dst_lets_through_iff (h : IsOperation decode now token jid) (hbears : Bears req token) :
    Backend.dst.LetsThrough decode now cfg req ↔ req.headers.get "x-job-id" = some jid := by
  obtain ⟨c, hdecode, htyp, hsub, hjid, hexp⟩ := h.claims
  have hverify : codecVerify decode now cfg.clockSkew token = some c := by
    rw [codecVerify, hdecode]
    dsimp only
    rw [if_neg (by omega)]
  simp only [Backend.LetsThrough, authenticate, hbears.header, hbears.bearerToken,
    if_neg hbears.nonempty, hverify, if_neg hsub, htyp, hjid]
  cases req.headers.get "x-job-id" with
  | none => simp [h.nonempty, Ne.symm h.nonempty]
  | some job =>
    by_cases hjob : job = jid
    · simp [hjob, h.nonempty]
    · simp [hjob]

/-- **Operation tokens are bound to their job** at a backend exactly when it compares `X-Job-Id`
with the token, or the header has the id anyway; and two backends agree on a request exactly when
both compare it or neither does, or the header has the id. -/
theorem operation_token_bound_iff (h : IsOperation decode now token jid) (hbears : Bears req token)
    (b b' : Backend) (hb : b.Protects cfg req) (hb' : b'.Protects cfg req) :
    ((b.LetsThrough decode now cfg req ↔ req.headers.get "x-job-id" = some jid) ↔
      b.ComparesJob ∨ req.headers.get "x-job-id" = some jid) ∧
    ((b.LetsThrough decode now cfg req ↔ b'.LetsThrough decode now cfg req) ↔
      (b.ComparesJob ↔ b'.ComparesJob) ∨ req.headers.get "x-job-id" = some jid) := by
  have hlets : ∀ b : Backend, b.Protects cfg req → (b.LetsThrough decode now cfg req ↔
      (b.ComparesJob → req.headers.get "x-job-id" = some jid)) := by
    intro b hb
    cases b with
    | java svc contextPath =>
      rw [java_lets_through_iff h hbears hb]
      exact ⟨fun hjob _ => hjob, fun hjob => hjob trivial⟩
    | dst =>
      rw [dst_lets_through_iff h hbears]
      exact ⟨fun hjob _ => hjob, fun hjob => hjob trivial⟩
    | pno =>
      refine iff_of_true ⟨.bearer, ?_⟩ (fun hcompares => hcompares.elim)
      exact authMiddleware_lets_through h hbears hb.1 hb.2
    | platform =>
      refine iff_of_true ⟨.bearer, ?_⟩ (fun hcompares => hcompares.elim)
      exact authMiddleware_lets_through h hbears hb.1 (decide_eq_false hb.2)
  rw [hlets b hb, hlets b' hb']
  by_cases hjob : req.headers.get "x-job-id" = some jid
  · simp [hjob]
  · simp only [hjob, or_false, imp_false, iff_false, not_not, not_iff_not, and_self]

end Backends

section Runs

/-- The token of a job of cad-api. -/
def jobToken : Claims := ⟨"alice", "op", none, none, some "ps-1", some "job-1", none, none, 100⟩

def decodeJob (token : String) : Option Claims := if token = "t" then some jobToken else none

def jobConfig : AuthConfig := ⟨antMatch, "s", 5⟩

def usersRequest (headers : Headers) : Request :=
  ⟨"GET", "/users".toList, none, ("authorization", "Bearer t") :: headers, by decide⟩

theorem jobToken_isOperation : IsOperation decodeJob 0 "t" "job-1" :=
  ⟨⟨jobToken, rfl, rfl, by decide, rfl, by decide⟩, by decide⟩

theorem usersRequest_bears (headers : Headers) : Bears (usersRequest headers) "t" := by
  refine ⟨rfl, by decide, ?_⟩
  have hchars : "t".toList = ['t'] := rfl
  rw [hchars, List.forall_mem_singleton]
  decide

/-- Both versions of pno protect the path. -/
theorem usersRequest_protected (headers : Headers) :
    Backend.pno.Protects jobConfig (usersRequest headers) ∧
      (Backend.java pnoApi none).Protects jobConfig (usersRequest headers) := by
  refine ⟨⟨?_, ?_⟩, ?_, ?_⟩
  · simp only [usersRequest]
    decide
  · simp only [usersRequest]
    decide +kernel
  · simp only [usersRequest, servletRequest, HttpServletRequest.pathInCtx, jobConfig]
    decide +kernel
  · simp only [usersRequest, servletRequest, HttpServletRequest.pathInCtx, jobConfig]
    decide +kernel

theorem operation_token_bound_with_job :
    ((Backend.pno.LetsThrough decodeJob 0 jobConfig (usersRequest [("x-job-id", "job-1")]) ↔
      (usersRequest [("x-job-id", "job-1")]).headers.get "x-job-id" = some "job-1")) :=
  (operation_token_bound_iff jobToken_isOperation (usersRequest_bears _) .pno (.java pnoApi none)
    (usersRequest_protected _).1 (usersRequest_protected _).2).1.mpr (.inr rfl)

/-- Without `X-Job-Id`, pno-api-rs accepts the token that the filter of pno-api refuses. -/
theorem operation_token_open_at_pno :
    Backend.pno.Protects jobConfig (usersRequest []) ∧
      (Backend.java pnoApi none).Protects jobConfig (usersRequest []) ∧
      Backend.pno.LetsThrough decodeJob 0 jobConfig (usersRequest []) ∧
      (usersRequest []).headers.get "x-job-id" ≠ some "job-1" ∧
      ¬ (Backend.java pnoApi none).LetsThrough decodeJob 0 jobConfig (usersRequest []) := by
  obtain ⟨hpno, hjava⟩ := usersRequest_protected []
  have hjob : (usersRequest []).headers.get "x-job-id" ≠ some "job-1" := by decide
  refine ⟨hpno, hjava, ⟨.bearer, ?_⟩, hjob, ?_⟩
  · exact authMiddleware_lets_through jobToken_isOperation (usersRequest_bears []) hpno.1 hpno.2
  · rw [java_lets_through_iff jobToken_isOperation (usersRequest_bears []) hjava]
    exact hjob

end Runs

end PlmCore.Platform
