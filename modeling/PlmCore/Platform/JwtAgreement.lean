/-
The three verifiers agree, and when.

A token that the Rust codec mints is read alike by the Rust and the Zig verifier. On other tokens with a right
signature the three part ways: the Zig verifier looks neither at the header nor at any claim but `exp` and
`typ`, and lets a token without an expiry pass, as the Go one does; the Rust one wants every claim in its type.
-/
import PlmCore.Lib.Utf8
import PlmCore.Platform.JwtClaims

set_option autoImplicit false

namespace PlmCore.Platform.Jwt

/-! ## The signature -/

section Signed

variable {P : Primitives} {secret : Secret} {token header : Bytes} {claims : Object}

theorem signedClaims_eq_some_iff :
    signedClaims P secret token = some (header, claims) ↔
      ∃ payload signature, token.splitOn dot = [header, payload, signature] ∧
        P.base64 signature = some (P.hmac secret.val (header ++ dot :: payload)) ∧
        ∃ buf, P.base64 payload = some buf ∧ P.json buf = some (.object claims) := by
  unfold signedClaims
  split
  case h_1 header' payload signature hsplit =>
    rw [hsplit]
    constructor
    · intro h
      split at h
      case isTrue hmac =>
        split at h
        case h_1 found hfound =>
          cases h
          exact ⟨payload, signature, rfl, hmac, Option.bind_eq_some_iff.mp hfound⟩
        case h_2 => cases h
      case isFalse => cases h
    · rintro ⟨payload', signature', heq, hmac, buf, hbuf, hjson⟩
      cases heq
      rw [if_pos hmac, hbuf, Option.bind_some, hjson]
  case h_2 hsplit =>
    refine iff_of_false (fun h => by cases h) ?_
    rintro ⟨payload, signature, heq, -⟩
    exact hsplit header payload signature heq

/-- The signing input is the token up to the second dot. -/
theorem take_signing_input {payload signature : Bytes} (h : token.splitOn dot = [header, payload, signature]) :
    token.take (header.length + 1 + payload.length) = header ++ dot :: payload := by
  have htoken : [dot].intercalate (token.splitOn dot) = token := List.intercalate_splitOn dot
  rw [h] at htoken
  have hparts : header ++ dot :: payload ++ dot :: signature = token := by simpa using htoken
  rw [← hparts, List.take_left' (by simp; omega)]

/-- The Zig codec verifies a token whose signature is right up to its expiry. -/
theorem Zig.Codec.verify_of_signed (c : Zig.Codec) (now : Nat)
    (h : signedClaims P c.secret token = some (header, claims)) :
    c.verify P now token = c.checkExp now claims := by
  obtain ⟨payload, signature, hsplit, hmac, buf, hbuf, hjson⟩ := signedClaims_eq_some_iff.mp h
  have hsize : calcSizeForSlice signature = some 32 := by
    rw [P.length_base64 hmac, P.length_hmac]
  have hinput := take_signing_input hsplit
  simp [Zig.Codec.verify, hsplit, hsize, hmac, hinput, hbuf, hjson]

/-- The Zig codec refuses all other tokens. -/
theorem Zig.Codec.verify_of_not_signed (c : Zig.Codec) (now : Nat)
    (h : signedClaims P c.secret token = none) : ∃ e, c.verify P now token = .error e := by
  unfold Zig.Codec.verify
  split
  case h_1 header payload signature hsplit =>
    rw [take_signing_input hsplit]
    dsimp only
    split
    case h_1 => exact ⟨_, rfl⟩
    case h_2 size hsize =>
      split
      case isTrue => exact ⟨_, rfl⟩
      case isFalse =>
        cases hsig : P.base64 signature with
        | none => exact ⟨_, rfl⟩
        | some got =>
          dsimp only
          split
          case isTrue => exact ⟨_, rfl⟩
          case isFalse hmac =>
            rw [not_not] at hmac
            split
            case h_1 => exact ⟨_, rfl⟩
            case h_2 buf hbuf =>
              split
              case h_1 => exact ⟨_, rfl⟩
              case h_2 claims hjson =>
                have hsigned := signedClaims_eq_some_iff.mpr
                  ⟨payload, signature, hsplit, hmac ▸ hsig, buf, hbuf, hjson⟩
                rw [h] at hsigned
                cases hsigned
              case h_3 => exact ⟨_, rfl⟩
  case h_2 => exact ⟨_, rfl⟩

end Signed

/-! ## The expiry -/

/-- No check of the Zig codec fails while it reads the expiry. -/
def ExpirySafe (claims : Object) (leeway : Int) : Prop :=
  ∀ v, claims.lookup "exp" = some v →
    ∃ exp, Zig.readExp v = some exp ∧ (exp.val ≠ 0 → -2 ^ 63 ≤ exp.val + leeway ∧ exp.val + leeway < 2 ^ 63)

/-- The expiry that the Zig codec reads is not zero, and past by more than the leeway. -/
def LongExpired (claims : Object) (leeway : Int) (now : Nat) : Prop :=
  ∃ v exp, claims.lookup "exp" = some v ∧ Zig.readExp v = some exp ∧ exp.val ≠ 0 ∧ exp.val + leeway < now

/-- The expiry is an integer that is not negative, and not reached; zero counts as the second 0. -/
def InTime (claims : Object) (leeway now : Nat) : Prop :=
  ∃ exp : I64, claims.lookup "exp" = some (.integer exp.val) ∧ 0 ≤ exp.val ∧
    if exp.val = 0 then now ≤ leeway else now < exp.val + leeway

theorem checkedAdd_eq_some_iff {i j k : I64} : JwtCodec.checkedAdd i j = some k ↔ k.val = i.val + j.val := by
  rw [JwtCodec.checkedAdd, readI64_eq_some_iff, Json.integer.injEq, eq_comm]

section Expiry

variable {claims : Object} {now : Nat} (c : Zig.Codec)

theorem checkExp_trap (h : ¬ ExpirySafe claims c.clock_skew_s.val) : c.checkExp now claims = .trap := by
  unfold ExpirySafe at h
  push Not at h
  obtain ⟨v, hv, hread⟩ := h
  unfold Zig.Codec.checkExp
  rw [hv]
  dsimp only
  cases hexp : Zig.readExp v with
  | none => rfl
  | some exp =>
    obtain ⟨hne, hover⟩ := hread exp hexp
    have hsum : JwtCodec.checkedAdd exp c.clock_skew_s = none := by
      rw [Option.eq_none_iff_forall_ne_some]
      intro limit hlimit
      have heq := checkedAdd_eq_some_iff.mp hlimit
      have hbounds := limit.property
      have hlower : -2 ^ 63 ≤ exp.val + c.clock_skew_s.val := heq ▸ hbounds.1
      have hupper := hover hlower
      omega
    dsimp only
    rw [if_neg hne, hsum]

/-- An expiry that is safe is compared with the time. -/
theorem checkExp_of_safe (hsafe : ExpirySafe claims c.clock_skew_s.val) :
    (LongExpired claims c.clock_skew_s.val now → c.checkExp now claims = .error .Expired) ∧
      (¬ LongExpired claims c.clock_skew_s.val now → c.checkExp now claims = .ok ⟨claims⟩) := by
  unfold Zig.Codec.checkExp LongExpired
  cases hv : claims.lookup "exp" with
  | none => simp
  | some v =>
    obtain ⟨exp, hread, hsum⟩ := hsafe v hv
    dsimp only
    rw [hread]
    dsimp only
    by_cases hzero : exp.val = 0
    · rw [if_pos hzero]
      refine ⟨?_, fun _ => rfl⟩
      rintro ⟨v', exp', heq, hread', hne, -⟩
      cases heq
      rw [hread, Option.some.injEq] at hread'
      exact absurd (hread' ▸ hzero) hne
    · obtain ⟨limit, hlimit⟩ : ∃ limit, JwtCodec.checkedAdd exp c.clock_skew_s = some limit :=
        ⟨⟨_, hsum hzero⟩, checkedAdd_eq_some_iff.mpr rfl⟩
      have heq := checkedAdd_eq_some_iff.mp hlimit
      rw [if_neg hzero, hlimit]
      dsimp only
      rw [heq]
      constructor
      · rintro ⟨v', exp', hv', hread', -, hlt⟩
        cases hv'
        rw [hread, Option.some.injEq] at hread'
        subst hread'
        exact if_pos hlt
      · intro hnot
        exact if_neg fun hlt => hnot ⟨v, exp, rfl, hread, hzero, hlt⟩

end Expiry

/-- The Zig codec reads an `i64` as it is. -/
theorem longExpired_integer_iff {claims : Object} {leeway : Int} {now : Nat} {exp : I64}
    (hexp : claims.lookup "exp" = some (.integer exp.val)) :
    LongExpired claims leeway now ↔ exp.val ≠ 0 ∧ exp.val + leeway < now := by
  have hread : Zig.readExp (.integer exp.val) = some exp := by
    rw [Zig.readExp, readI64_integer, Option.getD_some]
  constructor
  · rintro ⟨v, exp', hv, hread', hexpired⟩
    rw [hexp] at hv
    cases hv
    rw [hread, Option.some.injEq] at hread'
    exact hread' ▸ hexpired
  · exact fun hexpired => ⟨_, exp, hexp, hread, hexpired⟩

/-- What is expired for the Zig codec is expired for `golang-jwt`. -/
theorem LongExpired.not_libraryExp {claims : Object} {leeway now : Nat} (h : LongExpired claims leeway now) :
    ¬ Go.libraryExp claims leeway now := by
  obtain ⟨v, exp, hv, hread, hne, hlt⟩ := h
  unfold Go.libraryExp
  rw [hv]
  cases v with
  | integer i =>
    dsimp only
    rw [Zig.readExp, Option.some.injEq] at hread
    cases hi : readI64 (.integer i) with
    | none =>
      rw [hi, Option.getD_none] at hread
      exact absurd (congrArg Subtype.val hread).symm hne
    | some j =>
      rw [hi, Option.getD_some] at hread
      have hval := Json.integer.inj (readI64_eq_some_iff.mp hi)
      subst hread
      omega
  | float q =>
    dsimp only
    rw [Zig.readExp, Zig.intFromFloat, readI64_eq_some_iff, Json.integer.injEq] at hread
    have hfloor : q.floor ≤ exp.val := by
      rw [← hread]
      split
      · exact le_refl _
      · exact Rat.intCast_le_intCast.mp (le_trans (Rat.floor_le q) Rat.le_ceil)
    rintro (rfl | htime)
    · exact hne (by rw [← hread]; rfl)
    · omega
  | _ => exact absurd (congrArg Subtype.val (Option.some.inj hread)).symm hne

/-! ## The typed verifiers on a token with a right signature -/

section Typed

variable {P : Primitives} {token header : Bytes} {claims : Object} (now : Nat) (expected : String)

section Zig

variable {c : Zig.Codec} (hsigned : signedClaims P c.secret token = some (header, claims))
include hsigned

theorem zig_ok_iff :
    (∃ v, c.verifyTyped P now token expected = .ok v) ↔
      ExpirySafe claims c.clock_skew_s.val ∧ ¬ LongExpired claims c.clock_skew_s.val now ∧
        (strClaim claims "typ").getD "" = expected := by
  unfold Zig.Codec.verifyTyped
  rw [c.verify_of_signed now hsigned]
  by_cases hsafe : ExpirySafe claims c.clock_skew_s.val
  · by_cases hexpired : LongExpired claims c.clock_skew_s.val now
    · rw [(checkExp_of_safe c hsafe).1 hexpired]
      simp [hexpired]
    · rw [(checkExp_of_safe c hsafe).2 hexpired]
      by_cases htyp : (strClaim claims "typ").getD "" = expected
      · simp [Zig.Verified.str, htyp, hsafe, hexpired]
      · simp [Zig.Verified.str, htyp]
  · rw [checkExp_trap c hsafe]
    simp [hsafe]

theorem zig_error_iff :
    (∃ e, c.verifyTyped P now token expected = .error e) ↔
      ExpirySafe claims c.clock_skew_s.val ∧
        (LongExpired claims c.clock_skew_s.val now ∨ (strClaim claims "typ").getD "" ≠ expected) := by
  unfold Zig.Codec.verifyTyped
  rw [c.verify_of_signed now hsigned]
  by_cases hsafe : ExpirySafe claims c.clock_skew_s.val
  · by_cases hexpired : LongExpired claims c.clock_skew_s.val now
    · rw [(checkExp_of_safe c hsafe).1 hexpired]
      simp [hsafe, hexpired]
    · rw [(checkExp_of_safe c hsafe).2 hexpired]
      by_cases htyp : (strClaim claims "typ").getD "" = expected
      · simp [Zig.Verified.str, htyp, hexpired]
      · simp [Zig.Verified.str, htyp, hsafe]
  · rw [checkExp_trap c hsafe]
    simp [hsafe]

end Zig

/-- The Rust codec accepts. -/
theorem rust_isSome_iff {c : JwtCodec} {decode : Secret → Nat → Nat → Bytes → Option Object}
    (hdecode : CrateDecodes P decode) (hsigned : signedClaims P c.secret token = some (header, claims)) :
    (c.parse_typed decode now token expected).isSome ↔
      UsesHS256 P header ∧ CompleteClaims claims ∧ (strClaim claims "typ").getD "" = expected ∧
        ∃ exp : I64, claims.lookup "exp" = some (.integer exp.val) ∧ 0 ≤ exp.val ∧
          now ≤ exp.val + c.clock_skew_seconds := by
  rw [Option.isSome_iff_exists]
  unfold JwtCodec.parse_typed JwtCodec.parse
  constructor
  · rintro ⟨found, h⟩
    obtain ⟨read, hread, htyp⟩ := Option.bind_eq_some_iff.mp h
    obtain ⟨o, ho, hdes⟩ := Option.bind_eq_some_iff.mp hread
    obtain ⟨header', hsigned', halg, hcrate⟩ := (hdecode _ _ _ _ _).mp ho
    rw [hsigned] at hsigned'
    cases hsigned'
    obtain ⟨hcomplete, hexp, hstr⟩ := complete_of_deserialize hdes
    rw [crateExp, hexp] at hcrate
    have hread : read.typ = expected := by
      by_contra hne
      rw [if_pos hne] at htyp
      cases htyp
    exact ⟨halg, hcomplete, by rw [hstr]; exact hread, read.exp, hexp, hcrate⟩
  · rintro ⟨halg, hcomplete, htyp, exp, hexp, hnonneg, htime⟩
    obtain ⟨read, hdes⟩ := hcomplete.exists_deserialize hexp
    have hcrate : crateExp claims c.clock_skew_seconds now := by
      rw [crateExp, hexp]
      exact ⟨hnonneg, htime⟩
    have ho := (hdecode c.secret c.clock_skew_seconds now token claims).mpr ⟨header, hsigned, halg, hcrate⟩
    obtain ⟨-, -, hstr⟩ := complete_of_deserialize hdes
    rw [hstr] at htyp
    refine ⟨read, ?_⟩
    rw [ho, Option.bind_some, hdes, Option.bind_some]
    exact if_neg (not_not.mpr htyp)

/-- The Go codec accepts. -/
theorem go_isSome_iff {c : Go.Codec}
    {parseWithClaims : (String → Option Secret) → Nat → Nat → Bytes → Option Object}
    (hparse : Go.LibraryParses P parseWithClaims)
    (hsigned : signedClaims P c.secret token = some (header, claims)) :
    (c.parseTyped parseWithClaims now token expected).isSome ↔
      UsesHS256 P header ∧ Go.libraryExp claims c.clockSkew now ∧ (strClaim claims "typ").getD "" = expected := by
  rw [Option.isSome_iff_exists]
  unfold Go.Codec.parseTyped Go.Codec.parse
  constructor
  · rintro ⟨found, h⟩
    obtain ⟨o, ho, htyp⟩ := Option.bind_eq_some_iff.mp h
    obtain ⟨key, header', hkey, hsigned', halg, hexp⟩ := (hparse _ _ _ _ _).mp ho
    cases hkey
    rw [hsigned] at hsigned'
    cases hsigned'
    refine ⟨halg, hexp, ?_⟩
    by_contra hne
    rw [if_pos hne] at htyp
    cases htyp
  · rintro ⟨halg, hexp, htyp⟩
    have ho := (hparse c.keyfunc c.clockSkew now token claims).mpr
      ⟨c.secret, header, rfl, hsigned, halg, hexp⟩
    refine ⟨claims, ?_⟩
    rw [ho, Option.bind_some]
    exact if_neg (not_not.mpr htyp)

end Typed

/-! ## Agreement -/

section Agreement

variable {P : Primitives} {decode : Secret → Nat → Nat → Bytes → Option Object}
  {parseWithClaims : (String → Option Secret) → Nat → Nat → Bytes → Option Object}
variable (rust : JwtCodec) (zig : Zig.Codec) (go : Go.Codec)

/-- The three have one secret and one leeway. -/
structure SameSetting : Prop where
  zigSecret : zig.secret = rust.secret
  goSecret : go.secret = rust.secret
  zigLeeway : zig.clock_skew_s.val = rust.clock_skew_seconds
  goLeeway : go.clockSkew = rust.clock_skew_seconds

/-- All accept, or all refuse. -/
def Agree (P : Primitives) (decode : Secret → Nat → Nat → Bytes → Option Object)
    (parseWithClaims : (String → Option Secret) → Nat → Nat → Bytes → Option Object) (now : Nat)
    (token : Bytes) (expected : String) : Prop :=
  (rust.parse_typed decode now token expected).isSome ∧ (∃ v, zig.verifyTyped P now token expected = .ok v) ∧
      (go.parseTyped parseWithClaims now token expected).isSome ∨
    rust.parse_typed decode now token expected = none ∧
      (∃ e, zig.verifyTyped P now token expected = .error e) ∧
      go.parseTyped parseWithClaims now token expected = none

/-- Either the signature is not right; or the expiry can be read and is past, the type is another one, or the
token has the header, the claims and the expiry that all three want. -/
def AgreeWhen (P : Primitives) (secret : Secret) (leeway now : Nat) (token : Bytes) (expected : String) :
    Prop :=
  ∀ header claims, signedClaims P secret token = some (header, claims) →
    ExpirySafe claims leeway ∧
      ((strClaim claims "typ").getD "" = expected →
        LongExpired claims leeway now ∨
          UsesHS256 P header ∧ CompleteClaims claims ∧ InTime claims leeway now)

variable {rust zig go}

/-- A token without a right signature is refused by all. -/
theorem agree_of_not_signed (hdecode : CrateDecodes P decode) (hparse : Go.LibraryParses P parseWithClaims)
    (hset : SameSetting rust zig go) {now : Nat} {token : Bytes} {expected : String}
    (h : signedClaims P rust.secret token = none) :
    Agree rust zig go P decode parseWithClaims now token expected := by
  have hrust : decode rust.secret rust.clock_skew_seconds now token = none := by
    rw [Option.eq_none_iff_forall_ne_some]
    intro claims hclaims
    obtain ⟨header, hsigned, -⟩ := (hdecode _ _ _ _ _).mp hclaims
    rw [h] at hsigned
    cases hsigned
  have hgo : parseWithClaims go.keyfunc go.clockSkew now token = none := by
    rw [Option.eq_none_iff_forall_ne_some]
    intro claims hclaims
    obtain ⟨key, header, hkey, hsigned, -⟩ := (hparse _ _ _ _ _).mp hclaims
    cases hkey
    rw [hset.goSecret, h] at hsigned
    cases hsigned
  obtain ⟨e, he⟩ := zig.verify_of_not_signed now (hset.zigSecret ▸ h)
  refine .inr ⟨?_, ⟨e, ?_⟩, ?_⟩
  · rw [JwtCodec.parse_typed, JwtCodec.parse, hrust]
    rfl
  · rw [Zig.Codec.verifyTyped, he]
  · rw [Go.Codec.parseTyped, Go.Codec.parse, hgo]
    rfl

/-- **The three verifiers agree on a token exactly when** the condition holds. -/
theorem agree_iff (hdecode : CrateDecodes P decode) (hparse : Go.LibraryParses P parseWithClaims)
    (hset : SameSetting rust zig go) (now : Nat) (token : Bytes) (expected : String) :
    Agree rust zig go P decode parseWithClaims now token expected ↔
      AgreeWhen P rust.secret rust.clock_skew_seconds now token expected := by
  cases hsigned : signedClaims P rust.secret token with
  | none =>
    refine iff_of_true (agree_of_not_signed hdecode hparse hset hsigned) ?_
    intro header claims h
    rw [hsigned] at h
    cases h
  | some found =>
    obtain ⟨header, claims⟩ := found
    have hwhen : AgreeWhen P rust.secret rust.clock_skew_seconds now token expected ↔
        ExpirySafe claims rust.clock_skew_seconds ∧
          ((strClaim claims "typ").getD "" = expected →
            LongExpired claims rust.clock_skew_seconds now ∨
              UsesHS256 P header ∧ CompleteClaims claims ∧ InTime claims rust.clock_skew_seconds now) := by
      constructor
      · exact fun h => h header claims hsigned
      · intro h header' claims' hsigned'
        rw [hsigned] at hsigned'
        cases hsigned'
        exact h
    have hrust := rust_isSome_iff now expected hdecode hsigned
    have hgo := go_isSome_iff (c := go) now expected hparse (hset.goSecret ▸ hsigned)
    have hok := zig_ok_iff (c := zig) now expected (hset.zigSecret ▸ hsigned)
    have herror := zig_error_iff (c := zig) now expected (hset.zigSecret ▸ hsigned)
    rw [hset.zigLeeway] at hok herror
    rw [hset.goLeeway] at hgo
    unfold Agree
    rw [hwhen, ← Option.not_isSome_iff_eq_none, ← Option.not_isSome_iff_eq_none, hrust, hgo, hok, herror]
    constructor
    · rintro (⟨⟨halg, hcomplete, -, exp, hexp, hnonneg, htime⟩, ⟨hsafe, -, -⟩, -, hlib, -⟩ |
        ⟨-, ⟨hsafe, hzig⟩, -⟩)
      · refine ⟨hsafe, fun _ => .inr ⟨halg, hcomplete, exp, hexp, hnonneg, ?_⟩⟩
        rw [Go.libraryExp, hexp] at hlib
        split
        case isTrue hzero =>
          rw [hzero] at htime
          omega
        case isFalse hne => exact hlib.resolve_left hne
      · exact ⟨hsafe, fun htyp => .inl (hzig.resolve_right (not_not.mpr htyp))⟩
    · rintro ⟨hsafe, h⟩
      by_cases htyp : (strClaim claims "typ").getD "" = expected
      · obtain hexpired | ⟨halg, hcomplete, exp, hexp, hnonneg, hin⟩ := h htyp
        · refine .inr ⟨?_, ⟨hsafe, .inl hexpired⟩, fun hgo => hexpired.not_libraryExp hgo.2.1⟩
          rintro ⟨-, -, -, exp, hexp, -, htime⟩
          have hpast := ((longExpired_integer_iff hexp).mp hexpired).2
          omega
        · have hlib : Go.libraryExp claims rust.clock_skew_seconds now := by
            rw [Go.libraryExp, hexp]
            by_cases hzero : exp.val = 0
            · exact .inl hzero
            · exact .inr (by rwa [if_neg hzero] at hin)
          have htime : (now : Int) ≤ exp.val + rust.clock_skew_seconds := by
            split at hin <;> omega
          have hlive : ¬ LongExpired claims rust.clock_skew_seconds now := by
            rw [longExpired_integer_iff hexp]
            omega
          exact .inl ⟨⟨halg, hcomplete, htyp, exp, hexp, hnonneg, htime⟩, ⟨hsafe, hlive, htyp⟩, halg, hlib, htyp⟩
      · exact .inr ⟨fun hrust => htyp hrust.2.2.1, ⟨hsafe, .inr htyp⟩, fun hgo => htyp hgo.2.2⟩

end Agreement

/-! ## Tokens of the Rust codec -/

/-- What a service reads of a user. A missing project space is the empty text. -/
structure Identity where
  userId : String
  projectSpace : String
  isAdmin : Bool
  roleIds : List String
  perms : List String
  deriving DecidableEq

def UserContext.identity (ctx : UserContext) : Identity :=
  ⟨ctx.user_id, ctx.project_space_id.getD "", ctx.is_admin, ctx.role_ids, ctx.perms⟩

def Zig.Verified.identity (v : Zig.Verified) : Identity :=
  ⟨v.userId, v.projectSpace, v.isAdmin, v.strArray "roleIds", v.strArray "perms"⟩

def Zig.Outcome.map {α β : Type} (f : α → β) : Zig.Outcome α → Zig.Outcome β
  | .ok a => .ok (f a)
  | .error e => .error e
  | .trap => .trap

theorem filterMap_readString (ss : List String) : (ss.map Json.string).filterMap readString = ss := by
  induction ss with
  | nil => rfl
  | cons s ss ih => simp [ih]

/-- The Zig codec reads the identity of the claims. -/
theorem Claims.Fields.identity {c : Claims} {o : Object} (h : c.Fields o) :
    Zig.Verified.identity ⟨o⟩ = c.into_user_context.identity := by
  have hstr : ∀ {key} {value : Option String}, o.lookup key = value.map .string → strClaim o key = value := by
    intro key value hlookup
    rw [strClaim, hlookup]
    cases value <;> rfl
  have harray : ∀ {key} {value : Option (List String)}, o.lookup key = value.map strArrayJson →
      Zig.Verified.strArray ⟨o⟩ key = value.getD [] := by
    intro key value hlookup
    rw [Zig.Verified.strArray, hlookup]
    cases value with
    | none => rfl
    | some ss => exact filterMap_readString ss
  have hadmin : Zig.Verified.isAdmin ⟨o⟩ = c.is_admin.getD false := by
    rw [Zig.Verified.isAdmin, Zig.Verified.boolean, h.isAdmin]
    cases c.is_admin <;> rfl
  have hsub : strClaim o "sub" = some c.sub := hstr h.sub
  simp only [Zig.Verified.identity, Zig.Verified.userId, Zig.Verified.projectSpace, Zig.Verified.str, hsub,
    hstr h.ps, hadmin, harray h.roleIds, harray h.perms, UserContext.identity, Claims.into_user_context,
    Option.getD_some]

/-- The claims of a context give the context back. -/
theorem into_user_context_claims_for (ctx : UserContext) (typ : String) (jid : Option String) (exp : I64)
    (jti : String) (now : I64) :
    (JwtCodec.claims_for ctx typ jid exp jti now).into_user_context = ctx := by
  have hopt : ∀ v : List String, (JwtCodec.opt v).getD [] = v := by
    intro v
    unfold JwtCodec.opt
    split
    case isTrue hnil => exact hnil.symm
    case isFalse => rfl
  simp [JwtCodec.claims_for, Claims.into_user_context, hopt]

/-- Every kind of token carries the claims of its context and its type. -/
theorem mint_eq_some {c : JwtCodec} {ctx : UserContext} {jti : String} {now : I64} {ty : TokenType}
    {claims : Claims} (h : c.mint ctx jti now ty = some claims) :
    ∃ jid exp, claims = JwtCodec.claims_for ctx ty.typ jid exp jti now := by
  cases ty with
  | forward =>
    obtain ⟨exp, -, hclaims⟩ := Option.map_eq_some_iff.mp h
    exact ⟨none, exp, hclaims.symm⟩
  | session =>
    obtain ⟨exp, -, hclaims⟩ := Option.map_eq_some_iff.mp h
    exact ⟨none, exp, hclaims.symm⟩
  | operation job_id ttl_seconds =>
    obtain ⟨exp, -, hclaims⟩ := Option.map_eq_some_iff.mp h
    exact ⟨some job_id, exp, hclaims.symm⟩

/-- For the type, both verifiers give the context; for every other type both refuse. -/
def VerifiedAlike (rust : JwtCodec) (zig : Zig.Codec) (P : Primitives)
    (decode : Secret → Nat → Nat → Bytes → Option Object) (now : Nat) (token : Bytes) (ctx : UserContext)
    (typ : String) : Prop :=
  ∀ expected,
    (rust.parse_typed decode now token expected).map Claims.into_user_context =
        (if expected = typ then some ctx else none) ∧
      (zig.verifyTyped P now token expected).map Zig.Verified.identity =
        if expected = typ then .ok ctx.identity else .error .WrongTokenType

section Minted

variable {P : Primitives} {decode : Secret → Nat → Nat → Bytes → Option Object}
variable {issuer rust : JwtCodec} {zig : Zig.Codec} {ctx : UserContext} {jti : String} {mintedAt : I64}
  {ty : TokenType} {claims : Claims} {token : Bytes} {now : Nat}

/-- The Rust codec reads what it has signed. -/
theorem parse_signed (hdecode : CrateDecodes P decode) (hsecret : issuer.secret = rust.secret)
    (hsigns : issuer.Signs P claims token) (hlive : now < claims.exp.val) :
    rust.parse decode now token = some claims := by
  obtain ⟨header, hsigned, halg⟩ := hsigns
  have hfields := serialize_fields claims
  have hcrate : crateExp claims.serialize rust.clock_skew_seconds now := by
    rw [crateExp, hfields.exp]
    exact ⟨by omega, by omega⟩
  have ho := (hdecode rust.secret rust.clock_skew_seconds now token claims.serialize).mpr
    ⟨header, hsecret ▸ hsigned, halg, hcrate⟩
  rw [JwtCodec.parse, ho, Option.bind_some, hfields.deserialize]

/-- **A token that the Rust codec minted is verified alike** while the expiry with the leeway of the Zig codec
is an `i64` and not past. -/
theorem minted_verifiedAlike_iff (hdecode : CrateDecodes P decode) (hrust : issuer.secret = rust.secret)
    (hzig : zig.secret = rust.secret) (hmint : issuer.mint ctx jti mintedAt ty = some claims)
    (hsigns : issuer.Signs P claims token) (hlive : now < claims.exp.val) :
    VerifiedAlike rust zig P decode now token ctx ty.typ ↔
      now ≤ claims.exp.val + zig.clock_skew_s.val ∧ claims.exp.val + zig.clock_skew_s.val < 2 ^ 63 := by
  have hparse := parse_signed hdecode hrust hsigns hlive
  obtain ⟨header, hsigned, -⟩ := hsigns
  rw [hrust, ← hzig] at hsigned
  have hfields := serialize_fields claims
  obtain ⟨jid, exp, hclaims⟩ := mint_eq_some hmint
  have hctx : claims.into_user_context = ctx := by rw [hclaims, into_user_context_claims_for]
  have htyp : claims.typ = ty.typ := by rw [hclaims]; rfl
  have hstr : strClaim claims.serialize "typ" = some ty.typ := by rw [strClaim, hfields.typ, htyp]
  have hskew := zig.clock_skew_s.property
  constructor
  · intro h
    have hzigAccepts : ∃ v, zig.verifyTyped P now token ty.typ = .ok v := by
      have hmap := (h ty.typ).2
      rw [if_pos rfl] at hmap
      cases hverify : zig.verifyTyped P now token ty.typ with
      | ok v => exact ⟨v, rfl⟩
      | error e => rw [hverify] at hmap; cases hmap
      | trap => rw [hverify] at hmap; cases hmap
    obtain ⟨hsafe, hnotExpired, -⟩ := (zig_ok_iff now ty.typ hsigned).mp hzigAccepts
    obtain ⟨exp', hread, hsum⟩ := hsafe _ hfields.exp
    rw [Zig.readExp, readI64_integer, Option.getD_some, Option.some.injEq] at hread
    rw [longExpired_integer_iff hfields.exp] at hnotExpired
    subst hread
    have hpositive : claims.exp.val ≠ 0 := by omega
    exact ⟨by omega, (hsum hpositive).2⟩
  · rintro ⟨htime, hfits⟩ expected
    have hsafe : ExpirySafe claims.serialize zig.clock_skew_s.val := by
      intro v hv
      rw [hfields.exp] at hv
      cases hv
      exact ⟨claims.exp, by rw [Zig.readExp, readI64_integer, Option.getD_some], fun _ => ⟨by omega, hfits⟩⟩
    have hnotExpired : ¬ LongExpired claims.serialize zig.clock_skew_s.val now := by
      rw [longExpired_integer_iff hfields.exp]
      omega
    have hverify : zig.verify P now token = .ok ⟨claims.serialize⟩ := by
      rw [zig.verify_of_signed now hsigned, (checkExp_of_safe zig hsafe).2 hnotExpired]
    rw [JwtCodec.parse_typed, hparse, Zig.Codec.verifyTyped, hverify, Option.bind_some, htyp]
    dsimp only
    rw [Zig.Verified.str, hstr, Option.getD_some]
    by_cases heq : expected = ty.typ
    · subst heq
      rw [if_pos rfl, if_neg (not_not.mpr rfl), if_neg (not_not.mpr rfl), if_pos rfl, Option.map_some, hctx]
      exact ⟨rfl, congrArg Zig.Outcome.ok (by rw [hfields.identity, hctx])⟩
    · rw [if_neg heq, if_pos (Ne.symm heq), if_pos (Ne.symm heq), if_neg heq]
      exact ⟨rfl, rfl⟩

end Minted

/-- **Main result.** What the Rust codec mints is verified alike as long as the Zig codec can add its leeway,
and on every token the three verifiers agree exactly when `AgreeWhen` holds. -/
theorem verifiers_agree (P : Primitives) (decode : Secret → Nat → Nat → Bytes → Option Object)
    (parseWithClaims : (String → Option Secret) → Nat → Nat → Bytes → Option Object)
    (hdecode : CrateDecodes P decode) (hparse : Go.LibraryParses P parseWithClaims) (rust : JwtCodec)
    (zig : Zig.Codec) (go : Go.Codec) :
    (∀ (issuer : JwtCodec) (ctx : UserContext) (jti : String) (mintedAt : I64) (ty : TokenType)
        (claims : Claims) (token : Bytes) (now : Nat), issuer.secret = rust.secret → zig.secret = rust.secret →
        issuer.mint ctx jti mintedAt ty = some claims → issuer.Signs P claims token →
        now < claims.exp.val →
        (VerifiedAlike rust zig P decode now token ctx ty.typ ↔
          now ≤ claims.exp.val + zig.clock_skew_s.val ∧ claims.exp.val + zig.clock_skew_s.val < 2 ^ 63)) ∧
      (SameSetting rust zig go → ∀ (now : Nat) (token : Bytes) (expected : String),
        Agree rust zig go P decode parseWithClaims now token expected ↔
          AgreeWhen P rust.secret rust.clock_skew_seconds now token expected) :=
  ⟨fun _ _ _ _ _ _ _ _ => minted_verifiedAlike_iff hdecode,
    fun hset now token expected => agree_iff hdecode hparse hset now token expected⟩

/-! ## A token without an expiry -/

section Sample

open PlmCore.Lib

def sampleSecret : Secret := ⟨asciiBytes "0123456789abcdef0123456789abcdef", by decide⟩

def sampleContext : UserContext := ⟨"u1", none, [], false, none, [], [], none⟩

/-- The claims of a forward token that is minted in second 1000. -/
def sampleClaims : Claims :=
  JwtCodec.claims_for sampleContext TYP_FORWARD none ⟨1060, by decide⟩ "1" ⟨1000, by decide⟩

/-- The same without `exp` and `isAdmin`. -/
def endlessClaims : Object :=
  [("iss", .string "spe-api"), ("sub", .string "u1"), ("typ", .string "fwd"), ("jti", .string "1"),
    ("iat", .integer 1000)]

def headerJson : Bytes := asciiBytes "\x7b\"typ\":\"JWT\",\"alg\":\"HS256\"\x7d"

def claimsJson : Bytes := asciiBytes ("\x7b\"iss\":\"spe-api\",\"sub\":\"u1\",\"typ\":\"fwd\",\"isAdm" ++
  "in\":false,\"jti\":\"1\",\"iat\":1000,\"exp\":1060\x7d")

def endlessJson : Bytes := asciiBytes
  "\x7b\"iss\":\"spe-api\",\"sub\":\"u1\",\"typ\":\"fwd\",\"jti\":\"1\",\"iat\":1000\x7d"

def claimsMac : Bytes := [192, 174, 253, 8, 185, 92, 221, 23, 53, 55, 251, 5, 201, 60, 20, 24,
  82, 150, 118, 74, 142, 48, 20, 163, 184, 227, 248, 203, 4, 144, 145, 18]

def endlessMac : Bytes := [89, 147, 172, 141, 181, 157, 30, 140, 21, 121, 251, 84, 10, 138, 148, 68,
  172, 71, 24, 124, 80, 144, 127, 233, 86, 61, 182, 215, 198, 151, 15, 227]

def headerText : Bytes := asciiBytes "eyJ0eXAiOiJKV1QiLCJhbGciOiJIUzI1NiJ9"

def claimsText : Bytes := asciiBytes ("eyJpc3MiOiJzcGUtYXBpIiwic3ViIjoidTEiLCJ0eXAiOiJmd2QiLCJpc0Fk" ++
  "bWluIjpmYWxzZSwianRpIjoiMSIsImlhdCI6MTAwMCwiZXhwIjoxMDYwfQ")

def endlessText : Bytes := asciiBytes
  "eyJpc3MiOiJzcGUtYXBpIiwic3ViIjoidTEiLCJ0eXAiOiJmd2QiLCJqdGkiOiIxIiwiaWF0IjoxMDAwfQ"

def claimsSignature : Bytes := asciiBytes "wK79CLlc3Rc1N_sFyTwUGFKWdkqOMBSjuOP4ywSQkRI"

def endlessSignature : Bytes := asciiBytes "WZOsjbWdHowVeftUCoqURKxHGHxQkH_pVj2218aXD-M"

/-- The token of `sampleClaims`. -/
def sampleToken : Bytes := headerText ++ dot :: claimsText ++ dot :: claimsSignature

/-- The token of `endlessClaims`. -/
def endlessToken : Bytes := headerText ++ dot :: endlessText ++ dot :: endlessSignature

/-- Texts in base64url, and what they stand for. -/
def sampleTexts : List (Bytes × Bytes) :=
  [(headerText, headerJson), (claimsText, claimsJson), (endlessText, endlessJson),
    (claimsSignature, claimsMac), (endlessSignature, endlessMac)]

def sampleParse (text : Bytes) : Option Json :=
  if text = headerJson then some (.object [("typ", .string "JWT"), ("alg", .string "HS256")])
  else if text = claimsJson then some (.object sampleClaims.serialize)
  else if text = endlessJson then some (.object endlessClaims)
  else none

/-- The primitives on the two tokens. -/
def samplePrimitives : Primitives where
  hmac key message :=
    if key = sampleSecret.val ∧ message = headerText ++ dot :: claimsText then claimsMac
    else if key = sampleSecret.val ∧ message = headerText ++ dot :: endlessText then endlessMac
    else List.replicate 32 0
  length_hmac key message := by
    split
    · decide
    · split
      · decide
      · simp
  base64 source := sampleTexts.lookup source
  length_base64 {source out} h := by
    have hall : sampleTexts.all (fun e => calcSizeForSlice e.1 = some e.2.length) = true := by
      decide +kernel
    obtain ⟨before, after, htexts, -⟩ := List.lookup_eq_some_iff.mp h
    have hmem : (source, out) ∈ sampleTexts := htexts ▸ List.mem_append_right before List.mem_cons_self
    exact of_decide_eq_true (List.all_eq_true.mp hall _ hmem)
  json := sampleParse

theorem sampleHeader : UsesHS256 samplePrimitives headerText := by
  have htext : samplePrimitives.base64 headerText = some headerJson := by decide +kernel
  have hjson : samplePrimitives.json headerJson =
      some (.object [("typ", .string "JWT"), ("alg", .string "HS256")]) := by
    change sampleParse headerJson = _
    rw [sampleParse, if_pos rfl]
  rw [UsesHS256, htext, Option.bind_some, hjson]
  decide

theorem sampleToken_signed :
    signedClaims samplePrimitives sampleSecret sampleToken = some (headerText, sampleClaims.serialize) := by
  have hjson : samplePrimitives.json claimsJson = some (.object sampleClaims.serialize) := by
    change sampleParse claimsJson = _
    rw [sampleParse, if_neg (by decide +kernel), if_pos rfl]
  exact signedClaims_eq_some_iff.mpr ⟨claimsText, claimsSignature, by decide +kernel, by decide +kernel,
    claimsJson, by decide +kernel, hjson⟩

theorem endlessToken_signed :
    signedClaims samplePrimitives sampleSecret endlessToken = some (headerText, endlessClaims) := by
  have hjson : samplePrimitives.json endlessJson = some (.object endlessClaims) := by
    change sampleParse endlessJson = _
    rw [sampleParse, if_neg (by decide +kernel), if_neg (by decide +kernel), if_pos rfl]
  exact signedClaims_eq_some_iff.mpr ⟨endlessText, endlessSignature, by decide +kernel, by decide +kernel,
    endlessJson, by decide +kernel, hjson⟩

open Classical in
/-- `jsonwebtoken` as it is documented. -/
noncomputable def documentedDecode (P : Primitives) (key : Secret) (leeway now : Nat) (token : Bytes) :
    Option Object :=
  (signedClaims P key token).bind fun (header, claims) =>
    if UsesHS256 P header ∧ crateExp claims leeway now then some claims else none

theorem documentedDecode_spec (P : Primitives) : CrateDecodes P (documentedDecode P) := by
  intro key leeway now token claims
  rw [documentedDecode, Option.bind_eq_some_iff]
  constructor
  · rintro ⟨⟨header, found⟩, hsigned, h⟩
    dsimp only at h
    split at h
    case isTrue hall =>
      cases h
      exact ⟨header, hsigned, hall⟩
    case isFalse => cases h
  · rintro ⟨header, hsigned, hall⟩
    exact ⟨(header, claims), hsigned, if_pos hall⟩

open Classical in
/-- `golang-jwt` as it is documented. -/
noncomputable def documentedParse (P : Primitives) (keyfunc : String → Option Secret) (leeway now : Nat)
    (token : Bytes) : Option Object :=
  (keyfunc "HS256").bind fun key =>
    (signedClaims P key token).bind fun (header, claims) =>
      if UsesHS256 P header ∧ Go.libraryExp claims leeway now then some claims else none

theorem documentedParse_spec (P : Primitives) : Go.LibraryParses P (documentedParse P) := by
  intro keyfunc leeway now token claims
  rw [documentedParse, Option.bind_eq_some_iff]
  constructor
  · rintro ⟨key, hkey, h⟩
    obtain ⟨⟨header, found⟩, hsigned, h⟩ := Option.bind_eq_some_iff.mp h
    dsimp only at h
    split at h
    case isTrue hall =>
      cases h
      exact ⟨key, header, hkey, hsigned, hall⟩
    case isFalse => cases h
  · rintro ⟨key, header, hkey, hsigned, hall⟩
    refine ⟨key, hkey, ?_⟩
    rw [hsigned]
    exact if_pos hall

def sampleRust : JwtCodec :=
  ⟨sampleSecret, ⟨60, by decide⟩, ⟨3600, by decide⟩, ⟨3600, by decide⟩, 60⟩

def sampleZig : Zig.Codec := ⟨sampleSecret, ⟨60, by decide⟩⟩

def sampleGo : Go.Codec := ⟨sampleSecret, 60⟩

/-- The result at the minted token, and at the token without an expiry in a service of another type. -/
theorem verifiers_agree_sample :
    VerifiedAlike sampleRust sampleZig samplePrimitives (documentedDecode samplePrimitives) 1030 sampleToken
        sampleContext TYP_FORWARD ∧
      Agree sampleRust sampleZig sampleGo samplePrimitives (documentedDecode samplePrimitives)
        (documentedParse samplePrimitives) 1030 endlessToken TYP_SESSION := by
  have h := verifiers_agree samplePrimitives (documentedDecode samplePrimitives)
    (documentedParse samplePrimitives) (documentedDecode_spec _) (documentedParse_spec _) sampleRust sampleZig
    sampleGo
  constructor
  · exact (h.1 sampleRust sampleContext "1" ⟨1000, by decide⟩ .forward sampleClaims sampleToken 1030 rfl rfl rfl
      ⟨headerText, sampleToken_signed, sampleHeader⟩ (by decide)).mpr (by decide)
  · refine (h.2 ⟨rfl, rfl, rfl, rfl⟩ 1030 endlessToken TYP_SESSION).mpr ?_
    intro header claims hsigned
    rw [show sampleRust.secret = sampleSecret from rfl, endlessToken_signed] at hsigned
    cases hsigned
    refine ⟨fun v hv => ?_, fun htyp => absurd htyp (by decide)⟩
    have hnone : endlessClaims.lookup "exp" = none := rfl
    rw [hnone] at hv
    cases hv

/-- **A token without an expiry** is accepted by the Zig and the Go verifier for ever, and refused by the Rust
one. -/
theorem token_without_expiry_is_accepted :
    (∃ v, sampleZig.verifyTyped samplePrimitives 2000000000 endlessToken TYP_FORWARD = .ok v) ∧
      (sampleGo.parseTyped (documentedParse samplePrimitives) 2000000000 endlessToken TYP_FORWARD).isSome ∧
      sampleRust.parse_typed (documentedDecode samplePrimitives) 2000000000 endlessToken TYP_FORWARD = none ∧
      ¬ Agree sampleRust sampleZig sampleGo samplePrimitives (documentedDecode samplePrimitives)
        (documentedParse samplePrimitives) 2000000000 endlessToken TYP_FORWARD := by
  have hnone : endlessClaims.lookup "exp" = none := rfl
  have htyp : (strClaim endlessClaims "typ").getD "" = TYP_FORWARD := rfl
  have hzig : signedClaims samplePrimitives sampleZig.secret endlessToken = some (headerText, endlessClaims) :=
    endlessToken_signed
  have hgo : signedClaims samplePrimitives sampleGo.secret endlessToken = some (headerText, endlessClaims) :=
    endlessToken_signed
  have hrust : signedClaims samplePrimitives sampleRust.secret endlessToken =
      some (headerText, endlessClaims) := endlessToken_signed
  have haccepts : ∃ v, sampleZig.verifyTyped samplePrimitives 2000000000 endlessToken TYP_FORWARD = .ok v := by
    refine (zig_ok_iff 2000000000 TYP_FORWARD hzig).mpr ⟨fun v hv => ?_, ?_, htyp⟩
    · rw [hnone] at hv
      cases hv
    · rintro ⟨v, exp, hv, -⟩
      rw [hnone] at hv
      cases hv
  have hrefused :
      sampleRust.parse_typed (documentedDecode samplePrimitives) 2000000000 endlessToken TYP_FORWARD = none := by
    rw [← Option.not_isSome_iff_eq_none, rust_isSome_iff 2000000000 TYP_FORWARD (documentedDecode_spec _) hrust]
    rintro ⟨-, -, -, exp, hexp, -⟩
    rw [hnone] at hexp
    cases hexp
  refine ⟨haccepts, ?_, hrefused, ?_⟩
  · refine (go_isSome_iff 2000000000 TYP_FORWARD (documentedParse_spec _) hgo).mpr ⟨sampleHeader, ?_, htyp⟩
    rw [Go.libraryExp, hnone]
    trivial
  · rintro (⟨haccepted, -⟩ | ⟨-, ⟨e, he⟩, -⟩)
    · rw [hrefused] at haccepted
      cases haccepted
    · obtain ⟨v, hv⟩ := haccepts
      rw [hv] at he
      cases he

end Sample

end PlmCore.Platform.Jwt
