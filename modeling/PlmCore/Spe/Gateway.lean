/-
The spe-api gateway: the authentication middleware `auth.rs`, the reverse proxy `proxy.rs`
and the WebSocket bridge `ws.rs`, from a request to what is sent to a backend.

The token codec, the answers of pno and the registry are what the gateway asks: they are
fields of `Gateway`, arbitrary functions here. A backend serves at the root of its authority.
Header names are in lower case, as the header map keeps them.
-/
import PlmCore.Lib.UrlPath

set_option autoImplicit false

namespace PlmCore.Spe

open PlmCore.Lib

/-! ## Requests -/

abbrev Headers := List (String × String)

/-- `HeaderMap::get`. -/
def Headers.get (hs : Headers) (name : String) : Option String :=
  (hs.find? fun h => h.1 = name).map (·.2)

/-- `HeaderMap::remove`. -/
def Headers.remove (hs : Headers) (name : String) : Headers := hs.filter fun h => h.1 ≠ name

/-- `HeaderMap::insert`. -/
def Headers.insert (hs : Headers) (name value : String) : Headers :=
  hs.remove name ++ [(name, value)]

def isVisibleAscii (c : Char) : Bool := ' ' ≤ c ∧ c ≤ '~' ∨ c = '\t'

/-- `HeaderValue::to_str`. -/
def to_str (value : String) : Option String :=
  if value.toList.all isVisibleAscii then some value else none

/-- What an HTTP path is made of: no query, no fragment, no blank. -/
def isPathChar (c : Char) : Bool := '!' ≤ c ∧ c ≠ '?' ∧ c ≠ '#'

structure Request where
  method : String
  path : List Char
  query : Option (List Char)
  headers : Headers
  path_legal : path.all isPathChar = true

/-- `UserContext`, the fields the gateway reads. -/
structure UserContext where
  user_id : String
  role_ids : List String
  is_admin : Bool
  project_space_id : Option String
  allowed_service_codes : List String
  perms : List String
  pv : Option Int
  deriving DecidableEq

/-- `AuthedContext`. -/
structure AuthedContext where
  user : UserContext
  project_space : Option String

/-- `ServiceInstanceInfo`; the base URL is `http://` and the authority. -/
structure ServiceInstanceInfo where
  instance_id : String
  authority : String
  space_tag : Option String
  healthy : Bool

/-- `TagConfig`. -/
structure TagConfig where
  isolated : Bool
  tags_for_service : String → List String

/-- What the gateway asks others. -/
structure Gateway where
  verify_session : String → Option UserContext
  verify_forward : String → Option UserContext
  mint_forward : UserContext → Option String
  pno_version : Int
  verify_token : String → String → Bool
  get_user_context : String → Option String → Option UserContext
  get_tag_config : Option String → TagConfig
  instances : String → List ServiceInstanceInfo
  next_rr : String → Nat
  /-- The standard base64 decoder, to text. -/
  base64 : String → Option String
  /-- The trace context, written as `traceparent` and `tracestate`. -/
  traceparent : String

/-- What reaches a backend. -/
structure Upstream where
  service_code : String
  authority : String
  method : String
  path : List Char
  query : Option (List Char)
  headers : Headers

/-- What becomes of a request. -/
inductive Outcome where
  | error (status : Nat) (message : String)
  /-- A handler of the gateway itself answers. -/
  | handled (ctx : Option AuthedContext)
  /-- A header value that cannot be written. -/
  | panicked
  | sent (upstream : Upstream)

/-! ## Text -/

/-- The characters `str::trim` removes. -/
def isWhiteSpace (c : Char) : Bool :=
  c.val ∈ [0x20, 0x85, 0xA0, 0x1680, 0x2028, 0x2029, 0x202F, 0x205F, 0x3000]
    ∨ 0x09 ≤ c.val ∧ c.val ≤ 0x0D ∨ 0x2000 ≤ c.val ∧ c.val ≤ 0x200A

/-- `str::trim`. -/
def trim (text : List Char) : List Char :=
  ((text.dropWhile isWhiteSpace).reverse.dropWhile isWhiteSpace).reverse

/-- `str::strip_prefix`. -/
def strip_prefix (text path : List Char) : Option (List Char) :=
  if text <+: path then some (path.drop text.length) else none

def starts_with (path : List Char) (text : String) : Bool := text.toList <+: path

def eq_ignore_ascii_case (a : List Char) (b : String) : Bool :=
  a.map Char.toLower = b.toList.map Char.toLower

/-! ## `auth.rs` -/

/-- `/api/<serviceCode>/ui/**`. -/
def is_ui_bundle_path (path : List Char) : Bool :=
  match strip_prefix "/api/".toList path with
  | none => false
  | some rest => starts_with (rest.dropWhile (· ≠ '/')) "/ui/"

def is_exempt (path : List Char) : Bool :=
  starts_with path "/actuator"
    || starts_with path "/api/spe/actuator"
    || path = "/api/spe/auth/login".toList
    || path = "/api/spe/auth/logout".toList
    || path = "/api/platform/status".toList
    || starts_with path "/api/platform/status/"
    || is_ui_bundle_path path

/-- The serviceCode segment of `/api/<code>/...`; none for `/api/spe/...`. -/
def Auth.extract_service_code (path : List Char) : Option String :=
  match strip_prefix "/api/".toList path with
  | none => none
  | some rest =>
    let code := rest.takeWhile (· ≠ '/')
    if code = [] ∨ code = "spe".toList then none else some (String.ofList code)

structure BasicCredentials where
  user_id : String
  password : String

def decode_basic (g : Gateway) (authz : String) : Option BasicCredentials :=
  match strip_prefix "Basic ".toList authz.toList with
  | none => none
  | some b64 =>
    match g.base64 (String.ofList (trim b64)) with
    | none => none
    | some decoded =>
      let user := decoded.toList.takeWhile (· ≠ ':')
      if user = [] ∨ ':' ∉ decoded.toList then none
      else some ⟨String.ofList user, String.ofList (decoded.toList.drop (user.length + 1))⟩

/-- The first pair of the query with the key. -/
def query_param (req : Request) (key : String) : Option String :=
  match req.query with
  | none => none
  | some q => (q.splitOn '&').findSome? fun pair =>
      if '=' ∈ pair ∧ pair.takeWhile (· ≠ '=') = key.toList
      then some (String.ofList (pair.drop (key.length + 1))) else none

/-- The `Authorization` header as text. -/
def Request.authorization (req : Request) : Option String :=
  (req.headers.get "authorization").bind to_str

/-- The token of an `Authorization: Bearer` header. -/
def bearer (authz : Option String) : Option String :=
  match authz.bind fun a => strip_prefix "Bearer ".toList a.toList with
  | none => none
  | some token => some (String.ofList (trim token))

/-- The token's revocation watermark is still current, or absent. -/
def pv_current (ctx : UserContext) (g : Gateway) : Bool :=
  match ctx.pv with
  | some pv => g.pno_version ≤ pv
  | none => true

/-- The user may call the service. -/
def UserContext.may_call (ctx : UserContext) (code : String) : Bool :=
  ctx.is_admin || ctx.allowed_service_codes.contains code

/-- Gate on the service code and mint the forward token. -/
def gated (g : Gateway) (ctx : UserContext) (service_code : Option String)
    (go : String → Outcome) : Outcome :=
  match service_code.filter fun code => !ctx.may_call code with
  | some code => .error 403 ("Access to service '" ++ code ++ "' not granted")
  | none =>
    match g.mint_forward ctx with
    | none => .error 500 "mint failed"
    | some fwd => go fwd

def forward_from_context (g : Gateway) (req : Request)
    (next : Request → Option AuthedContext → Outcome) (ctx : UserContext)
    (service_code : Option String) : Outcome :=
  gated g ctx service_code fun fwd =>
    let headers := (((req.headers.remove "x-plm-user").remove "x-job-id").remove
      "x-plm-projectspace").insert "authorization" ("Bearer " ++ fwd)
    next { req with headers := headers } (some ⟨ctx, ctx.project_space_id⟩)

def resolve_and_forward (g : Gateway) (req : Request)
    (next : Request → Option AuthedContext → Outcome) (user_id : String) (ps : Option String)
    (service_code : Option String) : Outcome :=
  match g.get_user_context user_id ps with
  | none => .error 401 "User no longer resolvable"
  | some ctx =>
    gated g ctx service_code fun fwd =>
      let headers := ((req.headers.remove "x-plm-user").remove "x-job-id").insert
        "authorization" ("Bearer " ++ fwd)
      next { req with headers := headers } (some ⟨ctx, ps⟩)

/-- `auth_mw`. -/
def auth_mw (g : Gateway) (req : Request) (next : Request → Option AuthedContext → Outcome) :
    Outcome :=
  if is_exempt req.path then next req none
  else if starts_with req.path "/api/dav" then
    match (req.authorization.bind (decode_basic g)).filter (·.password ≠ "") with
    | none => .error 401 "Basic credentials required"
    | some creds =>
      let basic_ps := ((req.headers.get "x-plm-projectspace").bind to_str).filter (· ≠ "")
      if g.verify_token creds.user_id creds.password then
        resolve_and_forward g req next creds.user_id basic_ps (Auth.extract_service_code req.path)
      else .error 401 "Invalid access token"
  else
    let token := match bearer req.authorization with
      | some t => some t
      | none => if starts_with req.path "/api/ws" then query_param req "token" else none
    match token.filter (· ≠ "") with
    | none => .error 401 "Missing Bearer session token"
    | some t =>
      if req.path = "/api/spe/auth/operation-token".toList then
        match g.verify_forward t with
        | none => .error 401 "Valid forward JWT required for operation token"
        | some ctx =>
          if pv_current ctx g then next req (some ⟨ctx, none⟩)
          else .error 401 "Token superseded by an authorization change"
      else
        match g.verify_session t with
        | none => .error 401 "Invalid or expired session token"
        | some ctx =>
          if pv_current ctx g then
            forward_from_context g req next ctx (Auth.extract_service_code req.path)
          else .error 401 "Token superseded by an authorization change"

/-! ## `proxy.rs` and `ws.rs` -/

def HOP_BY_HOP : List String :=
  ["connection", "keep-alive", "proxy-authenticate", "proxy-authorization", "te", "trailers",
    "transfer-encoding", "upgrade", "host"]

def FORWARD_HEADERS : List String :=
  ["connection", "upgrade", "sec-websocket-key", "sec-websocket-version",
    "sec-websocket-protocol", "sec-websocket-extensions", "authorization", "x-plm-projectspace"]

def Proxy.extract_service_code (path : List Char) : Option String :=
  match strip_prefix "/api/".toList path with
  | none => none
  | some rest =>
    let code := rest.takeWhile (· ≠ '/')
    if code = [] ∨ code = "spe".toList then none else some (String.ofList code)

/-- `/api/psm/nodes` to `/nodes`, `/api/psm` to `/`. -/
def strip_service_prefix (path : List Char) (service_code : String) : List Char :=
  match strip_prefix ("/api/".toList ++ service_code.toList) path with
  | none => "/".toList
  | some rest => if rest = [] then "/".toList else rest

/-- `header_str`. -/
def header_str (hs : Headers) (name : String) : Option String :=
  ((hs.get name).bind to_str).filter (· ≠ "")

def is_untagged (tag : Option String) : Bool :=
  match tag with
  | none => true
  | some t => trim t.toList = []

/-- `filter_candidates`: health, then tag affinity. -/
def filter_candidates (all : List ServiceInstanceInfo) (required_tags : List String)
    (isolated : Bool) : List ServiceInstanceInfo :=
  let healthy := all.filter (·.healthy)
  let base := if healthy.isEmpty then all else healthy
  let untagged := base.filter fun i => is_untagged i.space_tag
  if required_tags = [] then
    if isolated then [] else if untagged.isEmpty then base else untagged
  else
    let tagged := base.filter fun i => i.space_tag.any fun t =>
      trim t.toList ≠ [] && required_tags.contains t
    if !tagged.isEmpty then tagged else if isolated then [] else untagged

/-- `pick_instance_by_tags`. -/
def pick_instance_by_tags (g : Gateway) (service_code : String) (required_tags : List String)
    (isolated : Bool) : Option ServiceInstanceInfo :=
  let candidates := filter_candidates (g.instances service_code) required_tags isolated
  candidates[g.next_rr service_code % candidates.length]?

/-- `Connection: Upgrade` and `Upgrade: websocket`. -/
def is_websocket_upgrade (hs : Headers) : Bool :=
  ((hs.get "connection").bind to_str).any (fun v => (v.toList.splitOn ',').any fun p =>
      eq_ignore_ascii_case (trim p) "upgrade")
    && ((hs.get "upgrade").bind to_str).any fun v => eq_ignore_ascii_case v.toList "websocket"

/-- `ws::upgrade`: the path as it is, and only the listed headers. -/
def upgrade (g : Gateway) (req : Request) (service_code authority : String) (path : List Char) :
    Outcome :=
  if authority = "" then .error 502 "bad upstream authority"
  else
    let forwarded := FORWARD_HEADERS.filterMap fun name => (req.headers.get name).map fun v => (name, v)
    .sent ⟨service_code, authority, req.method, path, req.query,
      (Headers.insert (("host", authority) :: forwarded) "traceparent" g.traceparent)⟩

/-- The headers of a proxied request. -/
def upstream_headers (g : Gateway) (hs : Headers) (service_code : String) : Headers :=
  ((HOP_BY_HOP.foldl Headers.remove hs).insert "x-plm-service-code" service_code).insert
    "traceparent" g.traceparent

/-- `proxy`. The URL library parses the target, which removes its dot segments. -/
def proxy (g : Gateway) (req : Request) (ext : Option AuthedContext) : Outcome :=
  match Proxy.extract_service_code req.path with
  | none => .error 404 "No route"
  | some service_code =>
    let ps := (ext.bind (·.project_space)).or (header_str req.headers "x-plm-projectspace")
    let tag_config := g.get_tag_config ps
    match pick_instance_by_tags g service_code (tag_config.tags_for_service service_code)
        tag_config.isolated with
    | none => .error 503 ("No instance available for service " ++ service_code)
    | some i =>
      let stripped := strip_service_prefix req.path service_code
      if is_websocket_upgrade req.headers then
        upgrade g req service_code i.authority stripped
      else if (to_str service_code).isNone then .panicked
      else .sent ⟨service_code, i.authority, req.method, UrlPath.normalize stripped, req.query,
        upstream_headers g req.headers service_code⟩

/-! ## The gateway -/

/-- The routes of the gateway itself. -/
def localRoutes : List (List Char) :=
  ["/actuator/health".toList, "/api/spe/actuator/health".toList, "/api/spe/auth/login".toList,
    "/api/spe/auth/switch-project".toList, "/api/spe/auth/operation-token".toList,
    "/api/spe/auth/logout".toList, "/api/spe/auth/me".toList]

/-- The router behind the middleware. -/
def route (g : Gateway) (req : Request) (ext : Option AuthedContext) : Outcome :=
  if localRoutes.contains req.path then .handled ext else proxy g req ext

/-- A request through the gateway. -/
def Gateway.handle (g : Gateway) (req : Request) : Outcome := auth_mw g req (route g)

end PlmCore.Spe
