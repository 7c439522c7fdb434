import Synapse.Wire.Json

/-!
# The Auth_Guard

Verification of the signed, room-scoped Join_Token (`server/src/middleware/authGuard.ts`).

The `jsonwebtoken` package is a parameter. `JsonWebToken` is the package under the configured
secret: what `verify` and `decode` make of a token, which tokens are signed with the secret, and
until when a token is good. That `verify` accepts the signed and unexpired tokens and no others is
a field.
-/

namespace Synapse.Gateway

/-- What `jwt.verify` throws. -/
inductive VerifyError
  | tokenExpired
  | notBefore
  | jsonWebToken (message : String)
  | other

/-- The `jsonwebtoken` package under a secret. Times are epoch milliseconds. -/
structure JsonWebToken where
  verify : String → ℕ → Except VerifyError Json
  decode : String → Option Json
  /-- The token is signed with the secret. -/
  signed : String → Prop
  /-- The token is within its lifetime. -/
  unexpired : String → ℕ → Prop
  /-- `verify` accepts exactly the unexpired tokens signed with the secret. -/
  verify_isOk : ∀ token now,
    (∃ payload, verify token now = .ok payload) ↔ signed token ∧ unexpired token now

/-- The package where one token has been signed, which expires at `exp`. -/
def JsonWebToken.single (token : String) (payload : Json) (exp : ℕ) : JsonWebToken where
  verify t now :=
    if t = token then
      if now < exp then .ok payload else .error .tokenExpired
    else .error (.jsonWebToken "jwt malformed")
  decode t := if t = token then some payload else none
  signed t := t = token
  unexpired _ now := now < exp
  verify_isOk t now := by
    by_cases ht : t = token <;> by_cases hnow : now < exp <;> simp [ht, hnow]

/-- Reasons a Join_Token can fail verification. -/
inductive AuthFailureCode
  | missingToken
  | malformedToken
  | invalidSignature
  | tokenExpired
  | tokenNotActive
  | roomScopeMismatch
  deriving DecidableEq

/-- The stable `userId` of a verified token, or why it failed. -/
abbrev AuthResult := Except AuthFailureCode String

/-- The claims carried by a Join_Token. -/
structure JoinTokenClaims where
  /-- Room this token authorizes. -/
  roomId : String
  userId : String
  deriving DecidableEq

structure AuthGuardConfig where
  jwt : JsonWebToken
  /-- When true, verification is bypassed. -/
  openMode : Bool

/-- `z.string().min(1)`. -/
def nonemptyString : Option Json → Option String
  | some (.str s) => if s ≠ "" then some s else none
  | _ => none

/-- `ClaimsSchema`. -/
def parseClaims (payload : Option Json) : Option JoinTokenClaims := do
  let roomId ← nonemptyString (Json.prop payload "roomId")
  let userId ← nonemptyString (Json.prop payload "userId")
  return ⟨roomId, userId⟩

/-- Maps a `jwt.verify` error onto a failure code. -/
def mapVerifyError : VerifyError → AuthFailureCode
  | .tokenExpired => .tokenExpired
  | .notBefore => .tokenNotActive
  | .jsonWebToken message => if message = "invalid signature" then .invalidSignature
    else .malformedToken
  | .other => .malformedToken

/-- The claims of a token whose signature is not looked at. -/
def decodeClaims (jwt : JsonWebToken) : Option String → Option JoinTokenClaims
  | none => none
  | some token => if token = "" then none else parseClaims (jwt.decode token)

/-- Verifies a Join_Token against a referenced room. -/
def verifyJoinToken (token : Option String) (roomId : String) (config : AuthGuardConfig) (now : ℕ) :
    AuthResult :=
  if config.openMode then
    .ok (((decodeClaims config.jwt token).map JoinTokenClaims.userId).getD "anonymous")
  else
    match token with
    | none => .error .missingToken
    | some token =>
      if token = "" then .error .missingToken
      else
        match config.jwt.verify token now with
        | .error err => .error (mapVerifyError err)
        | .ok payload =>
          match parseClaims (some payload) with
          | none => .error .malformedToken
          | some claims =>
            if claims.roomId ≠ roomId then .error .roomScopeMismatch else .ok claims.userId

/-- The token is signed and unexpired, and it claims the room. -/
def JsonWebToken.Grants (jwt : JsonWebToken) (token : String) (now : ℕ) (roomId : String) : Prop :=
  jwt.signed token ∧ jwt.unexpired token now ∧
    ∃ payload, jwt.verify token now = .ok payload ∧
      Json.prop (some payload) "roomId" = some (.str roomId)

variable {v : Option Json} {s : String}

theorem nonemptyString_eq_some : nonemptyString v = some s ↔ v = some (.str s) ∧ s ≠ "" := by
  constructor
  · intro h
    unfold nonemptyString at h
    split at h
    · obtain ⟨hne, heq⟩ := Option.ite_none_right_eq_some.mp h
      cases heq
      exact ⟨rfl, hne⟩
    · cases h
  · rintro ⟨rfl, hne⟩
    exact if_pos hne

/-- Outside OPEN_MODE a verification succeeds for tokens that grant the room only. -/
theorem grants_of_verifyJoinToken {config : AuthGuardConfig} (hopen : config.openMode = false)
    {token : Option String} {roomId userId : String} {now : ℕ}
    (h : verifyJoinToken token roomId config now = .ok userId) :
    ∃ t, token = some t ∧ config.jwt.Grants t now roomId := by
  unfold verifyJoinToken at h
  rw [hopen, if_neg Bool.false_ne_true] at h
  split at h
  · cases h
  · next token =>
    split_ifs at h
    split at h
    · cases h
    · next payload hverify =>
      split at h
      · cases h
      · next claims hclaims =>
        split_ifs at h with hroom
        obtain ⟨r, hr, hclaims⟩ := Option.bind_eq_some_iff.mp hclaims
        obtain ⟨u, -, hclaims⟩ := Option.bind_eq_some_iff.mp hclaims
        cases hclaims
        obtain ⟨hsigned, hunexpired⟩ := (config.jwt.verify_isOk token now).mp ⟨payload, hverify⟩
        have hr' : r = roomId := not_not.mp hroom
        refine ⟨token, rfl, hsigned, hunexpired, payload, hverify, ?_⟩
        rw [(nonemptyString_eq_some.mp hr).1, hr']

end Synapse.Gateway
