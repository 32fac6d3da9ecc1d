/-
The claims of a token as the Rust codec writes and reads them.

`Deserialize` takes an object whose claims are all there in their types, an optional one maybe missing or
`null`. What `Serialize` writes is read back as it was.
-/
import PlmCore.Platform.Jwt

set_option autoImplicit false

namespace PlmCore.Platform.Jwt

/-! ## Fields -/

theorem readString_eq_some_iff {v : Json} {s : String} : readString v = some s ↔ v = .string s := by
  cases v <;> simp [readString]

theorem readBool_eq_some_iff {v : Json} {b : Bool} : readBool v = some b ↔ v = .bool b := by
  cases v <;> simp [readBool]

theorem readI64_eq_some_iff {v : Json} {i : I64} : readI64 v = some i ↔ v = .integer i.val := by
  cases v with
  | integer j =>
    by_cases h : -2 ^ 63 ≤ j ∧ j < 2 ^ 63
    · rw [readI64, dif_pos h, Option.some.injEq, Json.integer.injEq]
      exact ⟨fun heq => congrArg Subtype.val heq, fun heq => Subtype.ext heq⟩
    · rw [readI64, dif_neg h]
      refine iff_of_false (fun hnone => by cases hnone) fun heq => h ?_
      rw [Json.integer.inj heq]
      exact i.property
  | _ => simp [readI64]

theorem readStrings_eq_some_iff {v : Json} {ss : List String} :
    readStrings v = some ss ↔ v = strArrayJson ss := by
  cases v with
  | array items =>
    have hitems : items.mapM readString = some ss ↔ items = ss.map .string := by
      induction items generalizing ss with
      | nil => cases ss <;> simp
      | cons item items ih =>
        simp only [List.mapM_cons, Option.bind_eq_bind, Option.bind_eq_some_iff, Option.pure_def,
          Option.some.injEq, readString_eq_some_iff, ih]
        cases ss with
        | nil => simp
        | cons s ss => simp
    unfold readStrings strArrayJson
    rw [hitems, Json.array.injEq]
  | _ => simp [readStrings, strArrayJson]

@[simp] theorem readString_string (s : String) : readString (.string s) = some s := rfl

@[simp] theorem readBool_bool (b : Bool) : readBool (.bool b) = some b := rfl

@[simp] theorem readI64_integer (i : I64) : readI64 (.integer i.val) = some i := readI64_eq_some_iff.mpr rfl

@[simp] theorem readStrings_strArrayJson (ss : List String) : readStrings (strArrayJson ss) = some ss :=
  readStrings_eq_some_iff.mpr rfl

section Fields

variable {α : Type} {read : Json → Option α} {write : α → Json} {o : Object} {key : String}

theorem required_eq_some_iff (hread : ∀ {v a}, read v = some a ↔ v = write a) {a : α} :
    required read o key = some a ↔ o.lookup key = some (write a) := by
  simp only [required, Option.bind_eq_some_iff, hread]
  exact ⟨fun ⟨v, hv, heq⟩ => heq ▸ hv, fun h => ⟨_, h, rfl⟩⟩

/-- An optional field is read when it is missing, `null` or of its type. -/
theorem exists_optional_iff (hread : ∀ {v a}, read v = some a ↔ v = write a) :
    (∃ a, optional read o key = some a) ↔
      ∀ v, o.lookup key = some v → v = .null ∨ ∃ a, v = write a := by
  unfold optional
  cases hlookup : o.lookup key with
  | none => simp
  | some v =>
    have hvalue : (∃ a, (read v).map some = some a) ↔ ∃ a, v = write a := by
      simp only [Option.map_eq_some_iff, hread]
      exact ⟨fun ⟨_, a, h, _⟩ => ⟨a, h⟩, fun ⟨a, h⟩ => ⟨_, a, h, rfl⟩⟩
    cases v <;> simp_all

theorem optional_of_lookup (hread : ∀ {v a}, read v = some a ↔ v = write a) (hnull : ∀ a, write a ≠ .null)
    {value : Option α} (h : o.lookup key = value.map write) : optional read o key = some value := by
  unfold optional
  rw [h]
  cases value with
  | none => rfl
  | some a =>
    have ha : read (write a) = some a := hread.mpr rfl
    have hne := hnull a
    rw [Option.map_some]
    cases hwrite : write a with
    | null => exact absurd hwrite hne
    | _ =>
      rw [hwrite] at ha
      exact congrArg (Option.map some) ha

theorem lookup_optField (k : String) (value : Option α) :
    (optField k write value).lookup key = if key = k then value.map write else none := by
  cases value with
  | none => simp [optField]
  | some a => simp [optField, List.lookup_cons]; split <;> simp_all

end Fields

/-! ## Reading claims -/

/-- Every claim but `exp` is there in its type. -/
structure CompleteClaims (o : Object) : Prop where
  text : ∀ key ∈ ["iss", "sub", "typ", "jti"], ∃ s, o.lookup key = some (.string s)
  optionalText : ∀ key ∈ ["username", "ps", "jid"], ∀ v, o.lookup key = some v → v = .null ∨ ∃ s, v = .string s
  lists : ∀ key ∈ ["roleIds", "svcCodes", "perms"], ∀ v, o.lookup key = some v →
    v = .null ∨ ∃ ss, v = strArrayJson ss
  isAdmin : ∀ v, o.lookup "isAdmin" = some v → v = .null ∨ ∃ b, v = .bool b
  pv : ∀ v, o.lookup "pv" = some v → v = .null ∨ ∃ i : I64, v = .integer i.val
  iat : ∃ i : I64, o.lookup "iat" = some (.integer i.val)

/-- What is deserialized was complete. -/
theorem complete_of_deserialize {o : Object} {c : Claims} (h : Claims.deserialize o = some c) :
    CompleteClaims o ∧ o.lookup "exp" = some (.integer c.exp.val) ∧ strClaim o "typ" = some c.typ := by
  obtain ⟨iss, hiss, h⟩ := Option.bind_eq_some_iff.mp h
  obtain ⟨sub, hsub, h⟩ := Option.bind_eq_some_iff.mp h
  obtain ⟨typ, htyp, h⟩ := Option.bind_eq_some_iff.mp h
  obtain ⟨username, husername, h⟩ := Option.bind_eq_some_iff.mp h
  obtain ⟨admin, hadmin, h⟩ := Option.bind_eq_some_iff.mp h
  obtain ⟨ps, hps, h⟩ := Option.bind_eq_some_iff.mp h
  obtain ⟨jid, hjid, h⟩ := Option.bind_eq_some_iff.mp h
  obtain ⟨roles, hroles, h⟩ := Option.bind_eq_some_iff.mp h
  obtain ⟨codes, hcodes, h⟩ := Option.bind_eq_some_iff.mp h
  obtain ⟨perms, hperms, h⟩ := Option.bind_eq_some_iff.mp h
  obtain ⟨pv, hpv, h⟩ := Option.bind_eq_some_iff.mp h
  obtain ⟨jti, hjti, h⟩ := Option.bind_eq_some_iff.mp h
  obtain ⟨iat, hiat, h⟩ := Option.bind_eq_some_iff.mp h
  obtain ⟨exp, hexp, h⟩ := Option.bind_eq_some_iff.mp h
  obtain rfl := Option.some.inj h
  rw [required_eq_some_iff readString_eq_some_iff] at hiss hsub htyp hjti
  rw [required_eq_some_iff readI64_eq_some_iff] at hiat hexp
  have husername := (exists_optional_iff readString_eq_some_iff).mp ⟨_, husername⟩
  have hps := (exists_optional_iff readString_eq_some_iff).mp ⟨_, hps⟩
  have hjid := (exists_optional_iff readString_eq_some_iff).mp ⟨_, hjid⟩
  have hroles := (exists_optional_iff readStrings_eq_some_iff).mp ⟨_, hroles⟩
  have hcodes := (exists_optional_iff readStrings_eq_some_iff).mp ⟨_, hcodes⟩
  have hperms := (exists_optional_iff readStrings_eq_some_iff).mp ⟨_, hperms⟩
  refine ⟨⟨?_, ?_, ?_, (exists_optional_iff readBool_eq_some_iff).mp ⟨_, hadmin⟩,
    (exists_optional_iff readI64_eq_some_iff).mp ⟨_, hpv⟩, ⟨_, hiat⟩⟩, hexp, ?_⟩
  · simp [hiss, hsub, htyp, hjti]
  · simpa using ⟨husername, hps, hjid⟩
  · simpa using ⟨hroles, hcodes, hperms⟩
  · simp [strClaim, htyp]

/-- Complete claims with an expiry are deserialized. -/
theorem CompleteClaims.exists_deserialize {o : Object} (h : CompleteClaims o) {exp : I64}
    (hexp : o.lookup "exp" = some (.integer exp.val)) : ∃ c, Claims.deserialize o = some c := by
  obtain ⟨iss, hiss⟩ := h.text "iss" (by simp)
  obtain ⟨sub, hsub⟩ := h.text "sub" (by simp)
  obtain ⟨typ, htyp⟩ := h.text "typ" (by simp)
  obtain ⟨jti, hjti⟩ := h.text "jti" (by simp)
  obtain ⟨iat, hiat⟩ := h.iat
  rw [← required_eq_some_iff readString_eq_some_iff] at hiss hsub htyp hjti
  rw [← required_eq_some_iff readI64_eq_some_iff] at hiat hexp
  obtain ⟨username, husername⟩ :=
    (exists_optional_iff readString_eq_some_iff).mpr (h.optionalText "username" (by simp))
  obtain ⟨ps, hps⟩ := (exists_optional_iff readString_eq_some_iff).mpr (h.optionalText "ps" (by simp))
  obtain ⟨jid, hjid⟩ := (exists_optional_iff readString_eq_some_iff).mpr (h.optionalText "jid" (by simp))
  obtain ⟨roles, hroles⟩ := (exists_optional_iff readStrings_eq_some_iff).mpr (h.lists "roleIds" (by simp))
  obtain ⟨codes, hcodes⟩ := (exists_optional_iff readStrings_eq_some_iff).mpr (h.lists "svcCodes" (by simp))
  obtain ⟨perms, hperms⟩ := (exists_optional_iff readStrings_eq_some_iff).mpr (h.lists "perms" (by simp))
  obtain ⟨admin, hadmin⟩ := (exists_optional_iff readBool_eq_some_iff).mpr h.isAdmin
  obtain ⟨pv, hpv⟩ := (exists_optional_iff readI64_eq_some_iff).mpr h.pv
  refine ⟨⟨iss, sub, typ, username, admin, ps, jid, roles, codes, perms, pv, jti, iat, exp⟩, ?_⟩
  simp only [Claims.deserialize, hiss, hsub, htyp, husername, hadmin, hps, hjid, hroles, hcodes, hperms,
    hpv, hjti, hiat, hexp, Option.bind_eq_bind, Option.bind_some, Option.pure_def]

/-! ## Writing claims -/

/-- The fields of an object are those of the claims. -/
structure Claims.Fields (c : Claims) (o : Object) : Prop where
  iss : o.lookup "iss" = some (.string c.iss)
  sub : o.lookup "sub" = some (.string c.sub)
  typ : o.lookup "typ" = some (.string c.typ)
  username : o.lookup "username" = c.username.map .string
  isAdmin : o.lookup "isAdmin" = c.is_admin.map .bool
  ps : o.lookup "ps" = c.ps.map .string
  jid : o.lookup "jid" = c.jid.map .string
  roleIds : o.lookup "roleIds" = c.role_ids.map strArrayJson
  svcCodes : o.lookup "svcCodes" = c.svc_codes.map strArrayJson
  perms : o.lookup "perms" = c.perms.map strArrayJson
  pv : o.lookup "pv" = c.pv.map fun i => .integer i.val
  jti : o.lookup "jti" = some (.string c.jti)
  iat : o.lookup "iat" = some (.integer c.iat.val)
  exp : o.lookup "exp" = some (.integer c.exp.val)

theorem serialize_fields (c : Claims) : c.Fields c.serialize := by
  constructor <;> simp [Claims.serialize, List.lookup_append, lookup_optField, List.lookup_cons]

/-- **What the codec serializes, it deserializes.** -/
theorem Claims.Fields.deserialize {c : Claims} {o : Object} (h : c.Fields o) :
    Claims.deserialize o = some c := by
  have hiss := (required_eq_some_iff readString_eq_some_iff).mpr h.iss
  have hsub := (required_eq_some_iff readString_eq_some_iff).mpr h.sub
  have htyp := (required_eq_some_iff readString_eq_some_iff).mpr h.typ
  have hjti := (required_eq_some_iff readString_eq_some_iff).mpr h.jti
  have hiat := (required_eq_some_iff readI64_eq_some_iff).mpr h.iat
  have hexp := (required_eq_some_iff readI64_eq_some_iff).mpr h.exp
  have hnull : ∀ ss, strArrayJson ss ≠ .null := fun ss heq => by cases heq
  have husername := optional_of_lookup readString_eq_some_iff (fun _ heq => by cases heq) h.username
  have hps := optional_of_lookup readString_eq_some_iff (fun _ heq => by cases heq) h.ps
  have hjid := optional_of_lookup readString_eq_some_iff (fun _ heq => by cases heq) h.jid
  have hadmin := optional_of_lookup readBool_eq_some_iff (fun _ heq => by cases heq) h.isAdmin
  have hroles := optional_of_lookup readStrings_eq_some_iff hnull h.roleIds
  have hcodes := optional_of_lookup readStrings_eq_some_iff hnull h.svcCodes
  have hperms := optional_of_lookup readStrings_eq_some_iff hnull h.perms
  have hpv := optional_of_lookup readI64_eq_some_iff (fun _ heq => by cases heq) h.pv
  simp only [Claims.deserialize, hiss, hsub, htyp, husername, hadmin, hps, hjid, hroles, hcodes, hperms,
    hpv, hjti, hiat, hexp, Option.bind_eq_bind, Option.bind_some, Option.pure_def]

end PlmCore.Platform.Jwt
