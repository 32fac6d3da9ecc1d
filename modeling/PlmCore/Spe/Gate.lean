/-
What passes the gateway: which requests reach a backend, under which path and with which
headers.

`auth_mw_sent` says what the middleware let through and why, `proxy_sent_iff` what the proxy
makes of it. A request without a token gets through by its path alone. That path is compared
as it is written, and the backend sees it after the dot segments are gone, with every header
the client set: `gate_holds_iff` says when both are still what the exemption is for.
-/
import PlmCore.Spe.Gateway

set_option autoImplicit false

namespace PlmCore.Spe

open PlmCore.Lib

/-! ## Headers -/

section Headers

variable {hs : Headers} {name other : String}

theorem Headers.get_remove_of_ne (h : other ≠ name) : (hs.remove other).get name = hs.get name := by
  unfold Headers.get Headers.remove
  rw [List.find?_filter]
  congr 2
  funext x
  by_cases hx : x.1 = name
  · subst hx
    simp [h.symm]
  · simp [hx]

theorem Headers.get_insert_of_ne (value : String) (h : other ≠ name) :
    (hs.insert other value).get name = hs.get name := by
  have hremove := @Headers.get_remove_of_ne hs name other h
  unfold Headers.insert
  unfold Headers.get at hremove ⊢
  rw [List.find?_append, List.find?_singleton, if_neg (by simpa using h), Option.or_none, hremove]

theorem Headers.get_removeAll (names : List String) (h : name ∉ names) :
    (names.foldl Headers.remove hs).get name = hs.get name := by
  induction names generalizing hs with
  | nil => rfl
  | cons other names ih =>
    rw [List.mem_cons, not_or] at h
    rw [List.foldl_cons, ih h.2, Headers.get_remove_of_ne (Ne.symm h.1)]

/-- Copying some headers over. -/
theorem Headers.get_filterMap (names : List String) :
    Headers.get (names.filterMap fun n => (hs.get n).map fun v => (n, v)) name
      = if name ∈ names then hs.get name else none := by
  induction names with
  | nil => rfl
  | cons n names ih =>
    rw [List.filterMap_cons]
    cases hn : hs.get n with
    | none =>
      rw [Option.map_none, ih]
      by_cases hname : name = n
      · subst hname
        simp [hn]
      · simp [hname]
    | some v =>
      simp only [Option.map_some]
      unfold Headers.get at ih ⊢
      rw [List.find?_cons]
      by_cases hname : n = name
      · subst hname
        unfold Headers.get at hn
        simp [hn]
      · rw [decide_eq_false hname]
        simp only
        rw [ih]
        simp [Ne.symm hname]

end Headers

/-! ## The proxy -/

/-- The instance a request is sent to. -/
def Gateway.instance_for (g : Gateway) (req : Request) (ext : Option AuthedContext)
    (service_code : String) : Option ServiceInstanceInfo :=
  let tag_config := g.get_tag_config
    ((ext.bind (·.project_space)).or (header_str req.headers "x-plm-projectspace"))
  pick_instance_by_tags g service_code (tag_config.tags_for_service service_code)
    tag_config.isolated

/-- The proxy has a backend for the request and can write the request. -/
def Gateway.reaches (g : Gateway) (req : Request) (ext : Option AuthedContext)
    (service_code : String) (i : ServiceInstanceInfo) : Prop :=
  Proxy.extract_service_code req.path = some service_code
    ∧ g.instance_for req ext service_code = some i
    ∧ if is_websocket_upgrade req.headers then i.authority ≠ "" else (to_str service_code).isSome

/-- The request the backend `i` of the service receives. -/
def Gateway.upstream (g : Gateway) (req : Request) (service_code : String)
    (i : ServiceInstanceInfo) : Upstream where
  service_code := service_code
  authority := i.authority
  method := req.method
  path :=
    if is_websocket_upgrade req.headers then strip_service_prefix req.path service_code
    else UrlPath.normalize ( strip_service_prefix req.path service_code)
  query := req.query
  headers :=
    if is_websocket_upgrade req.headers then
      Headers.insert (("host", i.authority) :: FORWARD_HEADERS.filterMap fun name =>
        (req.headers.get name).map fun v => (name, v)) "traceparent" g.traceparent
    else upstream_headers g req.headers service_code

theorem proxy_sent_iff {g : Gateway} {req : Request} {ext : Option AuthedContext} {u : Upstream} :
    proxy g req ext = .sent u
      ↔ ∃ code i, g.reaches req ext code i ∧ u = g.upstream req code i := by
  unfold proxy Gateway.reaches Gateway.upstream upgrade
  cases hcode : Proxy.extract_service_code req.path with
  | none => simp
  | some code =>
    -- the instance is picked by the tags of the caller's space
    have hpick : pick_instance_by_tags g code ((g.get_tag_config
        ((ext.bind (·.project_space)).or (header_str req.headers "x-plm-projectspace"))).tags_for_service code)
        (g.get_tag_config
          ((ext.bind (·.project_space)).or (header_str req.headers "x-plm-projectspace"))).isolated
          = g.instance_for req ext code := rfl
    dsimp only
    rw [hpick]
    cases hi : g.instance_for req ext code with
    | none =>
      simp only [Option.some.injEq, reduceCtorEq, false_iff]
      rintro ⟨_, i, ⟨rfl, hi', -⟩, -⟩
      rw [hi] at hi'
      cases hi'
    | some i =>
      -- path and instance are determined, so what is left is what can still fail
      have hone : (∃ code' i', (some code = some code' ∧ g.instance_for req ext code' = some i'
            ∧ if is_websocket_upgrade req.headers then i'.authority ≠ "" else (to_str code').isSome)
          ∧ u = g.upstream req code' i')
          ↔ (if is_websocket_upgrade req.headers then i.authority ≠ "" else (to_str code).isSome)
            ∧ u = g.upstream req code i := by
        constructor
        · rintro ⟨_, i', ⟨⟨rfl⟩, hi', hok⟩, hu⟩
          obtain rfl := Option.some.inj (hi.symm.trans hi')
          exact ⟨hok, hu⟩
        · rintro ⟨hok, hu⟩
          exact ⟨code, i, ⟨rfl, hi, hok⟩, hu⟩
      refine Iff.trans ?_ hone.symm
      unfold Gateway.upstream
      -- an upgrade needs an address, a request a service code that is a header value
      by_cases hws : is_websocket_upgrade req.headers = true
      · simp only [hws, if_true]
        by_cases ha : i.authority = ""
        · simp [ha]
        · simp [ha, eq_comm]
      · simp only [hws, Bool.false_eq_true, if_false]
        cases hto : to_str code with
        | none => simp
        | some v => simp [eq_comm]

/-! ## The service code -/

theorem extract_service_code_eq : Auth.extract_service_code = Proxy.extract_service_code := rfl

theorem strip_prefix_eq_some {text path rest : List Char} :
    strip_prefix text path = some rest ↔ path = text ++ rest := by
  unfold strip_prefix
  constructor
  · intro h
    split at h
    · rename_i hpre
      obtain ⟨r, rfl⟩ := hpre
      simpa using h
    · cases h
  · rintro rfl
    simp

theorem starts_with_iff {path : List Char} {text : String} :
    starts_with path text = true ↔ ∃ rest, path = text.toList ++ rest := by
  unfold starts_with
  rw [decide_eq_true_eq]
  constructor
  · rintro ⟨r, rfl⟩
    exact ⟨r, rfl⟩
  · rintro ⟨r, rfl⟩
    exact ⟨r, rfl⟩

/-- A path with a service code is its prefix, the code and the rest. -/
theorem eq_of_extract_service_code {path : List Char} {code : String}
    (h : Proxy.extract_service_code path = some code) :
    ∃ rest, path = "/api/".toList ++ code.toList ++ rest ∧ '/' ∉ code.toList
      ∧ (rest = [] ∨ ∃ r, rest = '/' :: r) := by
  unfold Proxy.extract_service_code at h
  cases hstrip : strip_prefix "/api/".toList path with
  | none =>
    rw [hstrip] at h
    cases h
  | some tail =>
    rw [hstrip] at h
    simp only at h
    split at h
    · cases h
    · obtain rfl := Option.some.inj h
      have hcode : (String.ofList (tail.takeWhile (· ≠ '/'))).toList = tail.takeWhile (· ≠ '/') :=
        String.toList_ofList
      refine ⟨tail.dropWhile (· ≠ '/'), ?_, ?_, ?_⟩
      · rw [hcode, List.append_assoc, List.takeWhile_append_dropWhile]
        exact strip_prefix_eq_some.mp hstrip
      · rw [hcode]
        intro hmem
        have := List.mem_takeWhile_imp hmem
        simp at this
      · cases hdrop : tail.dropWhile (· ≠ '/') with
        | nil => exact Or.inl rfl
        | cons c r =>
          have hc := List.head?_dropWhile_not (fun c : Char => decide (c ≠ '/')) tail
          rw [hdrop] at hc
          have hc : c = '/' := by simpa using hc
          exact Or.inr ⟨r, by rw [hc]⟩

/-- The code is the first segment behind `/api/`. -/
theorem extract_service_code_segment {seg rest : List Char} (hseg : '/' ∉ seg)
    (hrest : rest = [] ∨ ∃ r, rest = '/' :: r) :
    Proxy.extract_service_code ("/api/".toList ++ (seg ++ rest))
      = if seg = [] ∨ seg = "spe".toList then none else some (String.ofList seg) := by
  have htake : (seg ++ rest).takeWhile (· ≠ '/') = seg := by
    rw [List.takeWhile_append_of_pos fun c hc => by
      have : c ≠ '/' := fun h => hseg (h ▸ hc)
      simpa using this]
    rcases hrest with rfl | ⟨r, rfl⟩ <;> simp
  unfold Proxy.extract_service_code
  rw [strip_prefix_eq_some.mpr rfl]
  simp only [htake]

theorem strip_service_prefix_append (code : String) (rest : List Char) :
    strip_service_prefix ("/api/".toList ++ code.toList ++ rest) code
      = if rest = [] then "/".toList else rest := by
  unfold strip_service_prefix
  rw [strip_prefix_eq_some.mpr rfl]

/-- A path the proxy may send a request to without a token: a UI bundle, or the status of
the platform. -/
def isPublic (service_code : String) (path : List Char) : Prop :=
  "/ui/".toList <+: path
    ∨ service_code = "platform" ∧ (path = "/status".toList ∨ "/status/".toList <+: path)

/-- **What the exemption is for**, of the path as it is written. -/
theorem isPublic_of_is_exempt {path : List Char} {code : String} (h : is_exempt path = true)
    (hcode : Proxy.extract_service_code path = some code) :
    isPublic code ( strip_service_prefix path code) := by
  obtain ⟨rest, hpath, hslash, hrest⟩ := eq_of_extract_service_code hcode
  -- a path behind `/api/` whose first segment is known has that segment as its code
  have hsegment : ∀ seg r : List Char, '/' ∉ seg → (r = [] ∨ ∃ r', r = '/' :: r') →
      path = "/api/".toList ++ (seg ++ r) →
      (seg ≠ [] ∧ seg ≠ "spe".toList) ∧ code = String.ofList seg := by
    intro seg r hseg hr hp
    rw [hp, extract_service_code_segment hseg hr] at hcode
    split at hcode
    · cases hcode
    · rename_i hne
      exact ⟨not_or.mp hne, (Option.some.inj hcode).symm⟩
  simp only [is_exempt, Bool.or_eq_true, decide_eq_true_eq] at h
  rcases h with (((((h | h) | h) | h) | h) | h) | h
  · obtain ⟨r, hr⟩ := starts_with_iff.mp h
    rw [hpath] at hr
    simp at hr
  · obtain ⟨r, hr⟩ := starts_with_iff.mp h
    have hspe := hsegment "spe".toList ("/actuator".toList ++ r) (by decide)
      (Or.inr ⟨"actuator".toList ++ r, rfl⟩) (by rw [hr]; rfl)
    exact absurd rfl hspe.1.2
  · have hspe : Proxy.extract_service_code "/api/spe/auth/login".toList = none := by decide
    rw [h, hspe] at hcode
    cases hcode
  · have hspe : Proxy.extract_service_code "/api/spe/auth/logout".toList = none := by decide
    rw [h, hspe] at hcode
    cases hcode
  · obtain ⟨-, rfl⟩ := hsegment "platform".toList "/status".toList (by decide)
      (Or.inr ⟨"status".toList, rfl⟩) (by rw [h]; rfl)
    refine Or.inr ⟨rfl, Or.inl ?_⟩
    rw [h]
    decide
  · obtain ⟨r, hr⟩ := starts_with_iff.mp h
    obtain ⟨-, rfl⟩ := hsegment "platform".toList ("/status/".toList ++ r) (by decide)
      (Or.inr ⟨"status/".toList ++ r, rfl⟩) (by rw [hr]; rfl)
    refine Or.inr ⟨rfl, Or.inr ?_⟩
    have hstrip := strip_service_prefix_append (String.ofList "platform".toList)
      ("/status/".toList ++ r)
    rw [if_neg (by simp)] at hstrip
    rw [hr]
    exact ⟨r, hstrip.symm⟩
  · unfold is_ui_bundle_path at h
    have htail : strip_prefix "/api/".toList path = some (code.toList ++ rest) :=
      strip_prefix_eq_some.mpr (by rw [hpath, List.append_assoc])
    rw [htail] at h
    have hdrop : (code.toList ++ rest).dropWhile (· ≠ '/') = rest := by
      rw [List.dropWhile_append_of_pos fun c hc => by
        have : c ≠ '/' := fun h => hslash (h ▸ hc)
        simpa using this]
      rcases hrest with rfl | ⟨r, rfl⟩ <;> simp
    simp only [hdrop] at h
    obtain ⟨r, rfl⟩ := starts_with_iff.mp h
    rw [hpath, strip_service_prefix_append, if_neg (by simp)]
    exact Or.inl ⟨r, rfl⟩

/-! ## The middleware -/

/-- The tokens a request carries. -/
def Request.tokens (req : Request) : List String :=
  (bearer req.authorization).toList ++ (query_param req "token").toList

/-- A user the gateway knows the request to come from. -/
inductive Authenticated (g : Gateway) (req : Request) (ctx : UserContext) : Prop where
  | session (t : String) (ht : t ∈ req.tokens) (h : g.verify_session t = some ctx)
      (hpv : pv_current ctx g = true)
  | access (c : BasicCredentials) (ps : Option String)
      (hc : req.authorization.bind (decode_basic g) = some c)
      (h : g.verify_token c.user_id c.password = true)
      (hctx : g.get_user_context c.user_id ps = some ctx)

/-- The request carries a session token, a forward token or an access token that is valid. -/
def Gateway.Accepts (g : Gateway) (req : Request) : Prop :=
  (∃ ctx, Authenticated g req ctx)
    ∨ ∃ t ∈ req.tokens, ∃ ctx, g.verify_forward t = some ctx ∧ pv_current ctx g = true

theorem gated_sent {g : Gateway} {ctx : UserContext} {service_code : Option String}
    {go : String → Outcome} {u : Upstream} (h : gated g ctx service_code go = .sent u) :
    (∀ code, service_code = some code → ctx.may_call code = true) ∧ ∃ fwd, go fwd = .sent u := by
  unfold gated at h
  split at h
  · cases h
  · rename_i hfilter
    split at h
    · cases h
    · rename_i fwd hfwd
      refine ⟨?_, fwd, h⟩
      rintro code rfl
      simpa [Option.filter_eq_none_iff] using hfilter

/-- **What the middleware lets through.** An exempt request as it is; any other only for a
user who may call the service, or to an endpoint of the gateway itself. -/
theorem auth_mw_sent {g : Gateway} {req : Request} {next : Request → Option AuthedContext → Outcome}
    {u : Upstream} (hexempt : is_exempt req.path = false) (h : auth_mw g req next = .sent u) :
    (∃ ctx, Authenticated g req ctx
        ∧ (∀ code, Auth.extract_service_code req.path = some code → ctx.may_call code = true)
        ∧ ∃ req' ext, req'.path = req.path ∧ next req' ext = .sent u)
      ∨ ∃ ctx, req.path = "/api/spe/auth/operation-token".toList ∧ next req (some ⟨ctx, none⟩) = .sent u := by
  unfold auth_mw at h
  rw [if_neg (by simp [hexempt])] at h
  split at h
  · -- WebDAV: the password is an access token
    split at h
    · cases h
    · rename_i creds hcreds
      simp only at h
      split at h
      · rename_i hverify
        obtain ⟨hcreds, -⟩ := Option.filter_eq_some_iff.mp hcreds
        unfold resolve_and_forward at h
        split at h
        · cases h
        · rename_i ctx hctx
          obtain ⟨hcall, fwd, hgo⟩ := gated_sent h
          exact Or.inl ⟨ctx, .access creds _ hcreds hverify hctx, hcall, _, _, by rfl, hgo⟩
      · cases h
  · simp only at h
    split at h
    · cases h
    · rename_i t ht
      obtain ⟨ht, -⟩ := Option.filter_eq_some_iff.mp ht
      have htoken : t ∈ req.tokens := by
        unfold Request.tokens
        rw [List.mem_append, Option.mem_toList, Option.mem_toList]
        cases hb : bearer req.authorization with
        | some b =>
          rw [hb] at ht
          exact Or.inl ht
        | none =>
          rw [hb] at ht
          simp only at ht
          split at ht
          · exact Or.inr ht
          · cases ht
      split at h
      · rename_i hop
        split at h
        · cases h
        · rename_i ctx hctx
          split at h
          · exact Or.inr ⟨ctx, hop, h⟩
          · cases h
      · split at h
        · cases h
        · rename_i ctx hctx
          split at h
          · rename_i hpv
            obtain ⟨hcall, fwd, hgo⟩ := gated_sent h
            exact Or.inl ⟨ctx, .session t htoken hctx hpv, hcall, _, _, by rfl, hgo⟩
          · cases h

/-! ## The gate -/

theorem extract_service_code_of_mem_localRoutes :
    ∀ path ∈ localRoutes, Proxy.extract_service_code path = none := by
  decide

/-- What the router sends, the proxy sends. -/
theorem route_sent_iff {g : Gateway} {req : Request} {ext : Option AuthedContext} {u : Upstream} :
    route g req ext = .sent u
      ↔ ∃ code i, g.reaches req ext code i ∧ u = g.upstream req code i := by
  unfold route
  split
  · rename_i hlocal
    have hnone := extract_service_code_of_mem_localRoutes _ (List.contains_iff_mem.mp hlocal)
    simp [Gateway.reaches, hnone]
  · exact proxy_sent_iff

/-- The headers the gateway strips from authenticated requests. -/
def identityHeaders : List String := ["x-plm-user", "x-job-id", "x-plm-projectspace"]

/-- The property of the gate, for one request. -/
structure GateHolds (g : Gateway) (req : Request) : Prop where
  /-- Without a valid token, only public paths are reached, and with no identity. -/
  closed : ¬ g.Accepts req → ∀ u, g.handle req = .sent u →
    isPublic u.service_code u.path ∧ ∀ name ∈ identityHeaders, u.headers.get name = none
  /-- With one, the service code that was checked is the one the request is routed by. -/
  checked : is_exempt req.path = false → ∀ u, g.handle req = .sent u → ∃ ctx,
    Authenticated g req ctx ∧ Auth.extract_service_code req.path = some u.service_code
      ∧ ctx.may_call u.service_code = true

/-- What the client of an exempt path has to refrain from. A WebSocket upgrade keeps the path
as it is, and only some headers. Otherwise no identity header may be set, and the segment that
stands first once every `..` is matched by a name must still be `ui` (with something behind
it), or on the platform `status`. -/
def Harmless (req : Request) (service_code : String) : Prop :=
  let segs := UrlPath.segments ( strip_service_prefix req.path service_code)
  if is_websocket_upgrade req.headers then req.headers.get "x-plm-projectspace" = none
  else (∀ name ∈ identityHeaders, req.headers.get name = none)
    ∧ ((∃ post, post ≠ [] ∧ UrlPath.StandsFirst "ui".toList segs post)
      ∨ service_code = "platform" ∧ ∃ post, UrlPath.StandsFirst "status".toList segs post)

theorem isPublic_normalize_iff {path : List Char} {code : String} :
    isPublic code (UrlPath.normalize path)
      ↔ (∃ post, post ≠ [] ∧ UrlPath.StandsFirst "ui".toList (UrlPath.segments path) post)
        ∨ code = "platform" ∧ ∃ post, UrlPath.StandsFirst "status".toList (UrlPath.segments path) post := by
  unfold isPublic
  have hui : "/ui/".toList = '/' :: ("ui".toList ++ ['/']) := by decide
  have hstatus : "/status/".toList = '/' :: ("status".toList ++ ['/']) := by decide
  have hfile : "/status".toList = '/' :: "status".toList := by decide
  rw [hui, hstatus, hfile, UrlPath.prefix_normalize_iff (by decide) (by decide),
    UrlPath.normalize_eq_or_prefix_iff (by decide) (by decide)]

theorem get_upstream_headers (g : Gateway) (hs : Headers) (code : String) {name : String}
    (h : name ∈ identityHeaders) : (upstream_headers g hs code).get name = hs.get name := by
  have hne : ∀ n ∈ identityHeaders, "traceparent" ≠ n ∧ "x-plm-service-code" ≠ n
      ∧ n ∉ HOP_BY_HOP := by decide
  obtain ⟨h₁, h₂, h₃⟩ := hne name h
  unfold upstream_headers
  rw [Headers.get_insert_of_ne _ h₁, Headers.get_insert_of_ne _ h₂, Headers.get_removeAll _ h₃]

/-- The identity headers a backend sees of an exempt request. -/
theorem upstream_anonymous_iff {g : Gateway} {req : Request} {code : String}
    {i : ServiceInstanceInfo} :
    (∀ name ∈ identityHeaders, (g.upstream req code i).headers.get name = none)
      ↔ if is_websocket_upgrade req.headers then req.headers.get "x-plm-projectspace" = none
        else ∀ name ∈ identityHeaders, req.headers.get name = none := by
  unfold Gateway.upstream
  by_cases hws : is_websocket_upgrade req.headers = true
  · simp only [hws, if_true]
    -- an upgrade forwards the headers of its list only
    have hget : ∀ name ∈ identityHeaders,
        Headers.get (Headers.insert (("host", i.authority) :: FORWARD_HEADERS.filterMap fun n =>
          (req.headers.get n).map fun v => (n, v)) "traceparent" g.traceparent) name
          = if name ∈ FORWARD_HEADERS then req.headers.get name else none := by
      intro name hname
      have hne : ∀ n ∈ identityHeaders, "traceparent" ≠ n ∧ "host" ≠ n := by decide
      obtain ⟨h₁, h₂⟩ := hne name hname
      rw [Headers.get_insert_of_ne _ h₁, ← Headers.get_filterMap]
      unfold Headers.get
      rw [List.find?_cons, decide_eq_false h₂]
    constructor
    · intro h
      have h := h "x-plm-projectspace" (by decide)
      rw [hget _ (by decide), if_pos (by decide)] at h
      exact h
    · intro h name hname
      rw [hget name hname]
      -- of the identity headers only that of the project space is in the list
      have honly : ∀ n ∈ identityHeaders, n ∈ FORWARD_HEADERS → n = "x-plm-projectspace" := by decide
      split
      · rename_i hmem
        rw [honly name hname hmem, h]
      · rfl
  · simp only [hws, Bool.false_eq_true, if_false]
    constructor
    · intro h name hname
      -- a plain request forwards them all
      rw [← get_upstream_headers g _ code hname]
      exact h name hname
    · intro h name hname
      rw [get_upstream_headers g _ code hname]
      exact h name hname

/-- **What an exempt request brings to a backend.** -/
theorem harmless_iff {g : Gateway} {req : Request} {code : String} {i : ServiceInstanceInfo}
    (hexempt : is_exempt req.path = true) (hcode : Proxy.extract_service_code req.path = some code) :
    (isPublic code (g.upstream req code i).path
        ∧ ∀ name ∈ identityHeaders, (g.upstream req code i).headers.get name = none)
      ↔ Harmless req code := by
  rw [upstream_anonymous_iff]
  unfold Harmless Gateway.upstream
  by_cases hws : is_websocket_upgrade req.headers = true
  · simp only [hws, if_true]
    exact and_iff_right (isPublic_of_is_exempt hexempt hcode)
  · simp only [hws, Bool.false_eq_true, if_false]
    rw [isPublic_normalize_iff, and_comm]

/-- **The gate holds exactly** where a request that is let through by its path alone is
harmless. -/
theorem gate_holds_iff (g : Gateway) (req : Request) :
    GateHolds g req ↔ (¬ g.Accepts req → is_exempt req.path = true →
      ∀ code i, g.reaches req none code i → Harmless req code) := by
  constructor
  · rintro ⟨hclosed, -⟩ hno hexempt code i hreach
    have hsent : g.handle req = .sent (g.upstream req code i) := by
      unfold Gateway.handle auth_mw
      rw [if_pos hexempt]
      exact route_sent_iff.mpr ⟨code, i, hreach, rfl⟩
    exact (harmless_iff hexempt hreach.1).mp (hclosed hno _ hsent)
  · intro h
    constructor
    · intro hno u hu
      cases hexempt : is_exempt req.path with
      | true =>
        unfold Gateway.handle auth_mw at hu
        rw [if_pos hexempt] at hu
        obtain ⟨code, i, hreach, rfl⟩ := route_sent_iff.mp hu
        exact (harmless_iff hexempt hreach.1).mpr (h hno hexempt code i hreach)
      | false =>
        -- without a token the middleware answers itself
        rcases auth_mw_sent hexempt hu with ⟨ctx, hauth, -⟩ | ⟨ctx, hop, hnext⟩
        · exact absurd (Or.inl ⟨ctx, hauth⟩) hno
        · obtain ⟨code, i, hreach, -⟩ := route_sent_iff.mp hnext
          have hnone : Proxy.extract_service_code req.path = none := by rw [hop]; decide
          rw [hreach.1] at hnone
          cases hnone
    · intro hexempt u hu
      rcases auth_mw_sent hexempt hu with ⟨ctx, hauth, hcall, req', ext, hpath, hnext⟩ | ⟨ctx, hop, hnext⟩
      · obtain ⟨code, i, hreach, rfl⟩ := route_sent_iff.mp hnext
        have hcode : Auth.extract_service_code req.path = some code := by
          rw [extract_service_code_eq, ← hpath]
          exact hreach.1
        exact ⟨ctx, hauth, hcode, hcall code hcode⟩
      · obtain ⟨code, i, hreach, -⟩ := route_sent_iff.mp hnext
        have hnone : Proxy.extract_service_code req.path = none := by rw [hop]; decide
        rw [hreach.1] at hnone
        cases hnone

/-- A gateway with one backend. -/
def aGateway : Gateway where
  verify_session := fun _ => none
  verify_forward := fun _ => none
  mint_forward := fun _ => none
  pno_version := 0
  verify_token := fun _ _ => false
  get_user_context := fun _ _ => none
  get_tag_config := fun _ => ⟨false, fun _ => []⟩
  instances := fun code => if code = "psm" then [⟨"psm-1", "psm-api-1:8080", none, true⟩] else []
  next_rr := fun _ => 0
  base64 := fun _ => none
  traceparent := ""

/-- A request for a file beside the UI bundle. -/
def besideBundle : Request where
  method := "GET"
  path := "/api/psm/ui/../internal/config".toList
  query := none
  headers := []
  path_legal := by decide

/-- It reaches the backend as `/internal/config`. -/
theorem gate_open_beside_bundle : ¬ GateHolds aGateway besideBundle := by
  intro h
  have hno : ¬ aGateway.Accepts besideBundle := by
    rintro (⟨ctx, ⟨t, ht, -, -⟩ | ⟨c, ps, hc, -, -⟩⟩ | ⟨t, ht, -⟩)
    · cases ht
    · cases hc
    · cases ht
  have hsent : aGateway.handle besideBundle = .sent (aGateway.upstream besideBundle "psm"
      ⟨"psm-1", "psm-api-1:8080", none, true⟩) := by
    rfl
  have hpublic := (h.closed hno _ hsent).1
  have hpath : (aGateway.upstream besideBundle "psm"
      ⟨"psm-1", "psm-api-1:8080", none, true⟩).path = "/internal/config".toList := by decide
  rw [isPublic, hpath] at hpublic
  revert hpublic
  decide

end PlmCore.Spe
