import Synapse.Gateway.Guard
import Synapse.Gateway.Transport
import Synapse.Middleware.HttpRateLimiter
import Synapse.Table.Keyed
import Synapse.Transition.Machine

/-!
# The join endpoint

`POST /api/rooms/:id/join` (`server/src/app.ts`): a request passes the transport gate and the rate
limiter, waits for its body to be parsed, and is then handled in steps, between which other requests
are handled and the boards may change: the stored hash is looked up, the password is compared with
it, the board's row is ensured, and the token is signed.

Nothing in the server writes a password hash. Whoever runs it does, at any time.

The `jsonwebtoken` and `bcryptjs` packages are parameters, under the configured secret. The
documented behaviour of a signed token is a field: it is verified until it expires, and then fails
with that error. A request whose body is not parsed is answered by the framework and is left out.
-/

namespace Synapse.Http

open Gateway Keyed Transition

/-- The payload of a signed token, with the claims that signing adds. -/
def tokenPayload (claims : JoinTokenClaims) (expiresInSeconds issuedAt : ℕ) : Json :=
  .obj [("roomId", .str claims.roomId), ("userId", .str claims.userId),
    ("iat", .num (.finite (issuedAt / 1000 : ℕ))),
    ("exp", .num (.finite (issuedAt / 1000 + expiresInSeconds : ℕ)))]

/-- What the endpoint is wired with. Times are epoch milliseconds. -/
structure JoinTokenConfig where
  jwt : JsonWebToken
  /-- `signJoinToken` at a time. -/
  signToken : JoinTokenClaims → (expiresInSeconds issuedAt : ℕ) → String
  /-- `bcrypt.compare`. -/
  compare : (password hash : String) → Bool
  /-- The identity drawn for a request. -/
  generateUserId : ℕ → String
  tokenTtlSeconds : ℕ := 300
  bucket : BucketConfig := defaultJoinRateLimit
  requireSecureTransport : Bool
  signToken_ne_empty : ∀ claims ttl issuedAt, signToken claims ttl issuedAt ≠ ""
  generateUserId_ne_empty : ∀ id, generateUserId id ≠ ""
  verify_signToken : ∀ claims ttl issuedAt now,
    jwt.verify (signToken claims ttl issuedAt) now
      = if now / 1000 < issuedAt / 1000 + ttl then .ok (tokenPayload claims ttl issuedAt)
        else .error .tokenExpired

/-- A request to the endpoint. -/
structure JoinRequest where
  message : IncomingMessage
  client : Request
  /-- The `:id` of the path. -/
  roomId : String
  deriving DecidableEq

/-- What a request waits for. -/
inductive JoinPhase
  /-- Its body. -/
  | parseJson
  | getPasswordHash (password : Option String)
  | compare (password hash : String)
  | ensure (password : Option String)
  deriving DecidableEq

/-- A request that is being handled. -/
structure JoinCall where
  id : ℕ
  roomId : String
  phase : JoinPhase
  deriving DecidableEq

inductive JoinResponse
  | rejected (rejection : Rejection)
  | issued (token userId roomId : String) (expiresInSeconds : ℕ)
  deriving DecidableEq

def insecureTransport : Rejection := ⟨403, "INSECURE_TRANSPORT", "HTTPS is required"⟩

def invalidRoomId : Rejection :=
  ⟨400, "INVALID_ROOM_ID", "Room id must be 6–32 characters of [A-Za-z0-9_-]"⟩

def invalidBody (message : String) : Rejection := ⟨400, "INVALID_BODY", message⟩

def incorrectPassword : Rejection := ⟨403, "INCORRECT_PASSWORD", "Incorrect room password"⟩

def internalError : Rejection := ⟨500, "INTERNAL_ERROR", "Failed to issue join token"⟩

/-- The optional password of a request body. -/
def readPassword : Option Json → Except Rejection (Option String)
  | none | some .null => .ok none
  | some (.obj fields) =>
    match fields.lookup "password" with
    | none => .ok none
    | some (.str password) => .ok (some password)
    | some _ => .error (invalidBody "password must be a string")
  | some (.binary _) => .ok none
  | some _ => .error (invalidBody "Request body must be a JSON object")

/-- A token that was signed, and the request it was signed for. -/
structure Grant where
  requestId : ℕ
  claims : JoinTokenClaims
  password : Option String
  issuedAt : ℕ
  token : String
  deriving DecidableEq

structure JoinServer where
  /-- The `password_hash` of each board that has a row. -/
  boards : String → Option (Option String)
  buckets : Cells String TokenBucket
  calls : Table JoinCall.id
  replies : List (ℕ × JoinResponse)
  /-- History: the tokens that were signed. -/
  grants : List Grant

/-- What happens at the endpoint. A request is told apart by an identifier of its own. -/
inductive JoinEvent
  | arrive (id : ℕ) (req : JoinRequest) (now : ℕ)
  | handle (id : ℕ) (body : Option Json)
  | getPasswordHash (id : ℕ)
  | compare (id : ℕ)
  | ensure (id : ℕ) (now : ℕ)
  /-- The call that is awaited rejects; if it was to ensure the row, the row may be written. -/
  | rejects (id : ℕ) (written : Bool)
  /-- Whoever runs the server protects a board, or lifts its protection. -/
  | setPasswordHash (boardId : String) (passwordHash : Option String)

namespace JoinServer

/-- `getPasswordHash`. -/
def passwordHash (s : JoinServer) (boardId : String) : Option String := (s.boards boardId).join

/-- `ensure`. -/
def ensureBoard (s : JoinServer) (boardId : String) : JoinServer :=
  { s with boards := Function.update s.boards boardId (some (s.passwordHash boardId)) }

/-- The response to a request, which ends it. -/
def reply (s : JoinServer) (id : ℕ) (response : JoinResponse) : JoinServer :=
  { s with
    calls := s.calls.deleteWhere fun c ↦ decide (c.id = id)
    replies := s.replies ++ [(id, response)] }

/-- A request goes on to wait for something. -/
def await (s : JoinServer) (c : JoinCall) (phase : JoinPhase) : JoinServer :=
  { s with calls := s.calls.put { c with phase } }

variable (cfg : JoinTokenConfig) (s : JoinServer)

/-- The transport gate and the rate limiter. -/
def arrive (id : ℕ) (req : JoinRequest) (now : ℕ) : JoinServer :=
  if cfg.requireSecureTransport && !isSecureRequest req.message then
    s.reply id (.rejected insecureTransport)
  else
    let key := defaultKeyOf req.client
    let result := createHttpRateLimiter cfg.bucket key (s.buckets key) (req.client, now)
    let s := { s with buckets := Function.update s.buckets key result.2 }
    match result.1 with
    | .error rejection => s.reply id (.rejected rejection)
    | .ok () => s.await ⟨id, req.roomId, .parseJson⟩ .parseJson

/-- The handler up to its first `await`. -/
def handle (c : JoinCall) (body : Option Json) : JoinServer :=
  if !Schemas.isRoomId c.roomId then s.reply c.id (.rejected invalidRoomId)
  else
    match readPassword body with
    | .error rejection => s.reply c.id (.rejected rejection)
    | .ok password => s.await c (.getPasswordHash password)

/-- The stored hash has been read: an empty one protects as little as none. -/
def onPasswordHash (c : JoinCall) (password : Option String) : JoinServer :=
  match s.passwordHash c.roomId with
  | none => s.await c (.ensure password)
  | some hash =>
    if hash = "" then s.await c (.ensure password)
    else
      match password with
      | none => s.reply c.id (.rejected incorrectPassword)
      | some password => s.await c (.compare password hash)

/-- The password has been compared. -/
def onCompare (c : JoinCall) (password hash : String) : JoinServer :=
  if cfg.compare password hash then s.await c (.ensure (some password))
  else s.reply c.id (.rejected incorrectPassword)

/-- The row has been ensured: the token is signed and sent. -/
def onEnsure (c : JoinCall) (password : Option String) (now : ℕ) : JoinServer :=
  let claims : JoinTokenClaims := ⟨c.roomId, cfg.generateUserId c.id⟩
  let token := cfg.signToken claims cfg.tokenTtlSeconds now
  let s := (s.ensureBoard c.roomId).reply c.id
    (.issued token claims.userId claims.roomId cfg.tokenTtlSeconds)
  { s with grants := s.grants ++ [⟨c.id, claims, password, now, token⟩] }

/-- The awaited call of a handler rejects. -/
def onRejection (c : JoinCall) (written : Bool) : Option JoinServer :=
  match c.phase with
  | .parseJson => none
  | .ensure _ =>
    some ((if written then s.ensureBoard c.roomId else s).reply c.id (.rejected internalError))
  | _ => some (s.reply c.id (.rejected internalError))

def step (s : JoinServer) : JoinEvent → Option JoinServer
  | .arrive id req now =>
    if s.calls.get? id = none ∧ id ∉ s.replies.map Prod.fst then some (s.arrive cfg id req now)
    else none
  | .handle id body =>
    (s.calls.get? id).bind fun c ↦ match c.phase with
      | .parseJson => some (s.handle c body)
      | _ => none
  | .getPasswordHash id =>
    (s.calls.get? id).bind fun c ↦ match c.phase with
      | .getPasswordHash password => some (s.onPasswordHash c password)
      | _ => none
  | .compare id =>
    (s.calls.get? id).bind fun c ↦ match c.phase with
      | .compare password hash => some (s.onCompare cfg c password hash)
      | _ => none
  | .ensure id now =>
    (s.calls.get? id).bind fun c ↦ match c.phase with
      | .ensure password => some (s.onEnsure cfg c password now)
      | _ => none
  | .rejects id written => (s.calls.get? id).bind fun c ↦ s.onRejection c written
  | .setPasswordHash boardId passwordHash =>
    some { s with boards := Function.update s.boards boardId (some passwordHash) }

def init (s : JoinServer) : Prop :=
  s.buckets = (fun _ ↦ none) ∧ s.calls = .empty _ ∧ s.replies = [] ∧ s.grants = []

def machine : Machine JoinServer JoinEvent := ⟨init, step cfg⟩

/-! ## What a step does -/

variable {cfg s} {t : JoinServer}

/-- The steps, with what has let each of them happen. -/
inductive Step (cfg : JoinTokenConfig) (s : JoinServer) : JoinEvent → JoinServer → Prop
  | arrive (id : ℕ) (req : JoinRequest) (now : ℕ) (hcall : s.calls.get? id = none)
      (hreply : id ∉ s.replies.map Prod.fst) :
      Step cfg s (.arrive id req now) (s.arrive cfg id req now)
  | handle (c : JoinCall) (body : Option Json) (hc : c ∈ s.calls) (hphase : c.phase = .parseJson) :
      Step cfg s (.handle c.id body) (s.handle c body)
  | getPasswordHash (c : JoinCall) (password : Option String) (hc : c ∈ s.calls)
      (hphase : c.phase = .getPasswordHash password) :
      Step cfg s (.getPasswordHash c.id) (s.onPasswordHash c password)
  | compare (c : JoinCall) (password hash : String) (hc : c ∈ s.calls)
      (hphase : c.phase = .compare password hash) :
      Step cfg s (.compare c.id) (s.onCompare cfg c password hash)
  | ensure (c : JoinCall) (password : Option String) (now : ℕ) (hc : c ∈ s.calls)
      (hphase : c.phase = .ensure password) :
      Step cfg s (.ensure c.id now) (s.onEnsure cfg c password now)
  | rejects {u : JoinServer} (c : JoinCall) (written : Bool) (hc : c ∈ s.calls)
      (hu : u = s ∨ u = s.ensureBoard c.roomId) :
      Step cfg s (.rejects c.id written) (u.reply c.id (.rejected internalError))
  | setPasswordHash (boardId : String) (passwordHash : Option String) :
      Step cfg s (.setPasswordHash boardId passwordHash)
        { s with boards := Function.update s.boards boardId (some passwordHash) }

theorem Step.of_step {e : JoinEvent} (h : s.step cfg e = some t) : Step cfg s e t := by
  cases e with
  | arrive id req now =>
    obtain ⟨⟨hcall, hreply⟩, h⟩ := Option.ite_none_right_eq_some.mp h
    cases h
    exact .arrive id req now hcall hreply
  | handle id body =>
    obtain ⟨c, hget, hstep⟩ := Option.bind_eq_some_iff.mp h
    obtain ⟨hc, rfl⟩ := Table.get?_eq_some.mp hget
    split at hstep <;> cases hstep
    exact .handle c body hc ‹_›
  | getPasswordHash id =>
    obtain ⟨c, hget, hstep⟩ := Option.bind_eq_some_iff.mp h
    obtain ⟨hc, rfl⟩ := Table.get?_eq_some.mp hget
    split at hstep <;> cases hstep
    exact .getPasswordHash c _ hc ‹_›
  | compare id =>
    obtain ⟨c, hget, hstep⟩ := Option.bind_eq_some_iff.mp h
    obtain ⟨hc, rfl⟩ := Table.get?_eq_some.mp hget
    split at hstep <;> cases hstep
    exact .compare c _ _ hc ‹_›
  | ensure id now =>
    obtain ⟨c, hget, hstep⟩ := Option.bind_eq_some_iff.mp h
    obtain ⟨hc, rfl⟩ := Table.get?_eq_some.mp hget
    split at hstep <;> cases hstep
    exact .ensure c _ now hc ‹_›
  | rejects id written =>
    obtain ⟨c, hget, hstep⟩ := Option.bind_eq_some_iff.mp h
    obtain ⟨hc, rfl⟩ := Table.get?_eq_some.mp hget
    unfold onRejection at hstep
    split at hstep <;> cases hstep
    · cases written with
      | true => exact .rejects c true hc (Or.inr rfl)
      | false => exact .rejects c false hc (Or.inl rfl)
    · exact .rejects c written hc (Or.inl rfl)
  | setPasswordHash boardId passwordHash =>
    cases h
    exact .setPasswordHash boardId passwordHash

end JoinServer

end Synapse.Http
