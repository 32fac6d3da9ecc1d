/-
The tokens of the platform and their verifiers: `JwtCodec` of platform-lib-rs, which also mints them, and
`Codec` of platform-lib-zig and of platform-lib-go.

HMAC, base64url and the parsing of JSON are taken as given, and the three share them. So are `decode` of the
crate `jsonwebtoken` and `ParseWithClaims` of `golang-jwt`, with what the two document about the header and
the expiry. Times are seconds since the epoch.
-/
import Mathlib.Data.Rat.Floor
import Mathlib.Tactic.Common

set_option autoImplicit false

namespace PlmCore.Platform.Jwt

abbrev Bytes := List UInt8

/-- `i64`. -/
abbrev I64 := {i : Int // -2 ^ 63 ≤ i ∧ i < 2 ^ 63}

/-- A parsed JSON text. A number with a fraction or an exponent is a `float`. -/
inductive Json where
  | null
  | bool (b : Bool)
  | integer (i : Int)
  | float (q : Rat)
  | string (s : String)
  | array (items : List Json)
  | object (fields : List (String × Json))

abbrev Object := List (String × Json)

/-! ## What the verifiers share -/

def dot : UInt8 := 0x2E

/-- `calcSizeForSlice` of the decoder without padding. -/
def calcSizeForSlice (source : Bytes) : Option Nat :=
  if source.length % 4 = 1 then none
  else some (source.length / 4 * 3 + source.length % 4 * 3 / 4)

/-- HMAC SHA-256 of a key and a message, base64url and JSON. -/
structure Primitives where
  hmac : Bytes → Bytes → Bytes
  length_hmac : ∀ key message, (hmac key message).length = 32
  base64 : Bytes → Option Bytes
  length_base64 : ∀ {source out}, base64 source = some out → calcSizeForSlice source = some out.length
  json : Bytes → Option Json

/-- A secret that the codecs take. -/
abbrev Secret := {b : Bytes // 32 ≤ b.length}

/-- A claim that is a text. -/
def strClaim (claims : Object) (key : String) : Option String :=
  match claims.lookup key with
  | some (.string s) => some s
  | _ => none

section Signed

variable (P : Primitives) (secret : Secret)

/-- The header and the claims of a token of three parts whose signature is right. -/
def signedClaims (token : Bytes) : Option (Bytes × Object) :=
  match token.splitOn dot with
  | [header, payload, signature] =>
    if P.base64 signature = some (P.hmac secret.val (header ++ dot :: payload)) then
      match (P.base64 payload).bind P.json with
      | some (.object claims) => some (header, claims)
      | _ => none
    else none
  | _ => none

/-- The header names HS256. -/
def UsesHS256 (header : Bytes) : Prop :=
  match (P.base64 header).bind P.json with
  | some (.object fields) => strClaim fields "alg" = some "HS256"
  | _ => False

end Signed

/-! ## platform-lib-rs -/

structure UserContext where
  user_id : String
  username : Option String
  role_ids : List String
  is_admin : Bool
  project_space_id : Option String
  allowed_service_codes : List String
  perms : List String
  pv : Option I64
  deriving DecidableEq

structure Claims where
  iss : String
  sub : String
  typ : String
  username : Option String
  is_admin : Option Bool
  ps : Option String
  jid : Option String
  role_ids : Option (List String)
  svc_codes : Option (List String)
  perms : Option (List String)
  pv : Option I64
  jti : String
  iat : I64
  exp : I64

def Claims.into_user_context (c : Claims) : UserContext where
  user_id := c.sub
  username := c.username
  role_ids := c.role_ids.getD []
  is_admin := c.is_admin.getD false
  project_space_id := c.ps
  allowed_service_codes := c.svc_codes.getD []
  perms := c.perms.getD []
  pv := c.pv

/-- A field that is left out when there is no value. -/
def optField {α : Type} (key : String) (write : α → Json) (value : Option α) : Object :=
  value.toList.map fun a => (key, write a)

def strArrayJson (ss : List String) : Json := .array (ss.map .string)

/-- `Serialize` of `Claims`. -/
def Claims.serialize (c : Claims) : Object :=
  [("iss", .string c.iss), ("sub", .string c.sub), ("typ", .string c.typ)] ++
    optField "username" .string c.username ++ optField "isAdmin" .bool c.is_admin ++
    optField "ps" .string c.ps ++ optField "jid" .string c.jid ++
    optField "roleIds" strArrayJson c.role_ids ++ optField "svcCodes" strArrayJson c.svc_codes ++
    optField "perms" strArrayJson c.perms ++ optField "pv" (fun i => .integer i.val) c.pv ++
    [("jti", .string c.jti), ("iat", .integer c.iat.val), ("exp", .integer c.exp.val)]

def readString : Json → Option String
  | .string s => some s
  | _ => none

def readBool : Json → Option Bool
  | .bool b => some b
  | _ => none

def readI64 : Json → Option I64
  | .integer i => if h : -2 ^ 63 ≤ i ∧ i < 2 ^ 63 then some ⟨i, h⟩ else none
  | _ => none

def readStrings : Json → Option (List String)
  | .array items => items.mapM readString
  | _ => none

/-- A field that must be there. -/
def required {α : Type} (read : Json → Option α) (o : Object) (key : String) : Option α :=
  (o.lookup key).bind read

/-- A field that may be missing or `null`. -/
def optional {α : Type} (read : Json → Option α) (o : Object) (key : String) : Option (Option α) :=
  match o.lookup key with
  | none => some none
  | some .null => some none
  | some v => (read v).map some

/-- `Deserialize` of `Claims`. Other fields are ignored. -/
def Claims.deserialize (o : Object) : Option Claims := do
  let iss ← required readString o "iss"
  let sub ← required readString o "sub"
  let typ ← required readString o "typ"
  let username ← optional readString o "username"
  let is_admin ← optional readBool o "isAdmin"
  let ps ← optional readString o "ps"
  let jid ← optional readString o "jid"
  let role_ids ← optional readStrings o "roleIds"
  let svc_codes ← optional readStrings o "svcCodes"
  let perms ← optional readStrings o "perms"
  let pv ← optional readI64 o "pv"
  let jti ← required readString o "jti"
  let iat ← required readI64 o "iat"
  let exp ← required readI64 o "exp"
  return ⟨iss, sub, typ, username, is_admin, ps, jid, role_ids, svc_codes, perms, pv, jti, iat, exp⟩

def TYP_FORWARD : String := "fwd"

def TYP_SESSION : String := "session"

def TYP_OPERATION : String := "op"

def ISSUER : String := "spe-api"

/-- `JwtCodec`. -/
structure JwtCodec where
  secret : Secret
  forward_ttl : I64
  session_ttl : I64
  operation_max_ttl : I64
  clock_skew_seconds : Nat

namespace JwtCodec

variable (c : JwtCodec)

/-- `opt` of `claims_for`. -/
def opt (v : List String) : Option (List String) := if v = [] then none else some v

/-- `claims_for`, with the `jti` drawn and the time. -/
def claims_for (ctx : UserContext) (typ : String) (jid : Option String) (exp : I64) (jti : String)
    (now : I64) : Claims where
  iss := ISSUER
  sub := ctx.user_id
  typ := typ
  username := ctx.username
  is_admin := some ctx.is_admin
  ps := ctx.project_space_id
  jid := jid
  role_ids := opt ctx.role_ids
  svc_codes := opt ctx.allowed_service_codes
  perms := opt ctx.perms
  pv := ctx.pv
  jti := jti
  iat := now
  exp := exp

/-- A sum of two `i64`; nothing when it overflows. -/
def checkedAdd (i j : I64) : Option I64 := readI64 (.integer (i.val + j.val))

/-- `mint_forward`, up to `sign`. -/
def mint_forward (ctx : UserContext) (jti : String) (now : I64) : Option Claims :=
  (checkedAdd now c.forward_ttl).map fun exp => claims_for ctx TYP_FORWARD none exp jti now

/-- `mint_operation`, up to `sign`. -/
def mint_operation (ctx : UserContext) (job_id : String) (ttl_seconds : I64) (jti : String) (now : I64) :
    Option Claims :=
  let ttl := if ttl_seconds.val ≤ c.operation_max_ttl.val then ttl_seconds else c.operation_max_ttl
  (checkedAdd now ttl).map fun exp => claims_for ctx TYP_OPERATION (some job_id) exp jti now

/-- `mint_session`, up to `sign`. -/
def mint_session (ctx : UserContext) (jti : String) (now : I64) : Option Claims :=
  (checkedAdd now c.session_ttl).map fun exp => claims_for ctx TYP_SESSION none exp jti now

end JwtCodec

/-- What is minted. -/
inductive TokenType where
  | forward
  | session
  | operation (job_id : String) (ttl_seconds : I64)

def TokenType.typ : TokenType → String
  | .forward => TYP_FORWARD
  | .session => TYP_SESSION
  | .operation _ _ => TYP_OPERATION

/-- The claims that a codec signs. -/
def JwtCodec.mint (c : JwtCodec) (ctx : UserContext) (jti : String) (now : I64) : TokenType → Option Claims
  | .forward => c.mint_forward ctx jti now
  | .session => c.mint_session ctx jti now
  | .operation job_id ttl_seconds => c.mint_operation ctx job_id ttl_seconds jti now

/-- `sign`: the token is `encode` of the claims with the header of HS256. -/
def JwtCodec.Signs (c : JwtCodec) (P : Primitives) (claims : Claims) (token : Bytes) : Prop :=
  ∃ header, signedClaims P c.secret token = some (header, claims.serialize) ∧ UsesHS256 P header

/-- The expiry that `jsonwebtoken` wants to see: a number that is not negative, at most the leeway ago. -/
def crateExp (claims : Object) (leeway now : Nat) : Prop :=
  match claims.lookup "exp" with
  | some (.integer i) => 0 ≤ i ∧ now ≤ i + leeway
  | some (.float q) => 0 ≤ q ∧ (now : Rat) ≤ q + leeway
  | _ => False

/-- `decode` of `jsonwebtoken`, for HS256 and with `exp` required: a function of the key, the leeway, the
time and the token. -/
def CrateDecodes (P : Primitives) (decode : Secret → Nat → Nat → Bytes → Option Object) : Prop :=
  ∀ key leeway now token claims, decode key leeway now token = some claims ↔
    ∃ header, signedClaims P key token = some (header, claims) ∧ UsesHS256 P header ∧
      crateExp claims leeway now

namespace JwtCodec

variable (c : JwtCodec) (decode : Secret → Nat → Nat → Bytes → Option Object) (now : Nat)

/-- `parse`. -/
def parse (token : Bytes) : Option Claims :=
  (decode c.secret c.clock_skew_seconds now token).bind Claims.deserialize

/-- `parse_typed`. -/
def parse_typed (token : Bytes) (expected : String) : Option Claims :=
  (c.parse decode now token).bind fun claims => if claims.typ ≠ expected then none else some claims

end JwtCodec

/-! ## platform-lib-zig -/

namespace Zig

inductive Error where
  | Malformed
  | BadSignature
  | WrongTokenType
  | Expired
  /-- An error of `std.json`. -/
  | SyntaxError
  deriving DecidableEq

/-- What a call ends with. A failed safety check stops the program. -/
inductive Outcome (α : Type) where
  | ok (a : α)
  | error (e : Error)
  | trap

structure Codec where
  secret : Secret
  clock_skew_s : I64

/-- `Verified`. -/
structure Verified where
  claims : Object

namespace Verified

variable (v : Verified)

def str (key : String) : Option String := strClaim v.claims key

def boolean (key : String) : Bool :=
  match v.claims.lookup key with
  | some (.bool b) => b
  | _ => false

def strArray (key : String) : List String :=
  match v.claims.lookup key with
  | some (.array items) => items.filterMap readString
  | _ => []

def userId : String := (v.str "sub").getD ""

def projectSpace : String := (v.str "ps").getD ""

def username : String := (v.str "username").getD ""

def isAdmin : Bool := v.boolean "isAdmin"

end Verified

/-- `@intFromFloat` to an `i64`, towards zero. -/
def intFromFloat (q : Rat) : Option I64 :=
  readI64 (.integer (if 0 ≤ q then q.floor else q.ceil))

/-- `exp` of `verify`. An integer that is no `i64` is left as a text. -/
def readExp : Json → Option I64
  | .integer i => some ((readI64 (.integer i)).getD ⟨0, by decide⟩)
  | .float q => intFromFloat q
  | _ => some ⟨0, by decide⟩

namespace Codec

variable (c : Codec) (P : Primitives) (now_s : Nat)

/-- The end of `verify`: the check of `exp`. -/
def checkExp (claims : Object) : Outcome Verified :=
  match claims.lookup "exp" with
  | none => .ok ⟨claims⟩
  | some exp_v =>
    match readExp exp_v with
    | none => .trap
    | some exp =>
      if exp.val = 0 then .ok ⟨claims⟩
      else
        match JwtCodec.checkedAdd exp c.clock_skew_s with
        | none => .trap
        | some limit => if now_s > limit.val then .error .Expired else .ok ⟨claims⟩

/-- `verify`. -/
def verify (token : Bytes) : Outcome Verified :=
  match token.splitOn dot with
  | [header_b64, payload_b64, sig_b64] =>
    let signing_input := token.take (header_b64.length + 1 + payload_b64.length)
    match calcSizeForSlice sig_b64 with
    | none => .error .Malformed
    | some sig_len =>
      if sig_len ≠ 32 then .error .BadSignature
      else
        match P.base64 sig_b64 with
        | none => .error .Malformed
        | some got =>
          if P.hmac c.secret.val signing_input ≠ got then .error .BadSignature
          else
            match P.base64 payload_b64 with
            | none => .error .Malformed
            | some claims_buf =>
              match P.json claims_buf with
              | none => .error .SyntaxError
              | some (.object claims) => c.checkExp now_s claims
              | some _ => .error .Malformed
  | _ => .error .Malformed

/-- `verifyTyped`. -/
def verifyTyped (token : Bytes) (expected_typ : String) : Outcome Verified :=
  match c.verify P now_s token with
  | .ok v => if (v.str "typ").getD "" ≠ expected_typ then .error .WrongTokenType else .ok v
  | .error e => .error e
  | .trap => .trap

end Codec

end Zig

/-! ## platform-lib-go -/

namespace Go

structure Codec where
  secret : Secret
  clockSkew : Nat

/-- The expiry that `golang-jwt` lets pass: none, zero, or a number of seconds after which the token is
refused. -/
def libraryExp (claims : Object) (leeway now : Nat) : Prop :=
  match claims.lookup "exp" with
  | none => True
  | some (.integer i) => i = 0 ∨ now < i + leeway
  | some (.float q) => q = 0 ∨ now < q.floor + leeway
  | some _ => False

/-- `ParseWithClaims` of `golang-jwt` with HS256 as the valid method: a function of the key function, which
is asked with the algorithm, the leeway, the time and the token. -/
def LibraryParses (P : Primitives)
    (parseWithClaims : (String → Option Secret) → Nat → Nat → Bytes → Option Object) : Prop :=
  ∀ keyfunc leeway now token claims, parseWithClaims keyfunc leeway now token = some claims ↔
    ∃ key header, keyfunc "HS256" = some key ∧ signedClaims P key token = some (header, claims) ∧
      UsesHS256 P header ∧ libraryExp claims leeway now

namespace Codec

variable (c : Codec) (parseWithClaims : (String → Option Secret) → Nat → Nat → Bytes → Option Object)
variable (now : Nat)

/-- The key function: the methods of `SigningMethodHMAC` get the secret. -/
def keyfunc (alg : String) : Option Secret :=
  if alg ∈ ["HS256", "HS384", "HS512"] then some c.secret else none

/-- `parse`. -/
def parse (token : Bytes) : Option Object := parseWithClaims c.keyfunc c.clockSkew now token

/-- `parseTyped`. -/
def parseTyped (token : Bytes) (expected : String) : Option Object :=
  (c.parse parseWithClaims now token).bind fun claims =>
    if (strClaim claims "typ").getD "" ≠ expected then none else some claims

end Codec

end Go

end PlmCore.Platform.Jwt
