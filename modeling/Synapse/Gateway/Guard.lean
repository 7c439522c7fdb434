import Synapse.Gateway.AuthGuard

/-!
# The guard on inbound packets

The per-connection context (`server/src/socket/context.ts`) and the middleware that looks at every
packet before its handler does (`server/src/socket/gateway.ts`).

The middleware verifies a token for the room id it reads from the packet. A packet from which it
reads none passes; the comment there leaves it to the schema validation of the handler. The handler
runs later, so that the context may have changed in between.
-/

namespace Synapse.Gateway

/-- The events that act in a room the socket has joined. -/
inductive ActionEvent
  | draw
  | cursorMove
  | clear
  | requestResync
  deriving DecidableEq

/-- The name of an inbound event. -/
inductive EventName
  | joinRoom
  | action (event : ActionEvent)
  | other (name : String)
  deriving DecidableEq

/-- An inbound packet. An acknowledgement callback among the arguments has none of the properties
that are read, and counts as undefined. -/
structure Packet where
  event : EventName
  args : List (Option Json)
  deriving DecidableEq

/-- The first argument, which is what the handlers are passed. -/
def Packet.data (p : Packet) : Option Json := p.args.head?.join

/-- Per-connection state. -/
structure ConnectionContext where
  /-- The socket's id. -/
  socketId : String
  /-- Join_Token presented in the handshake. -/
  token : Option String
  /-- Identity resolved by the latest authorized event. -/
  userId : Option String := none
  /-- What the latest `join-room` named, `null` before the first. -/
  currentRoomId : Option Json := some .null

/-- Reads the Join_Token of the handshake. -/
def readHandshakeToken (auth : Option Json) : Option String :=
  nonemptyString (Json.prop auth "token")

/-- The context of a new connection. -/
def ConnectionContext.new (socketId : String) (auth : Option Json) : ConnectionContext :=
  { socketId, token := readHandshakeToken auth }

/-- Verifies a token against a room, the handshake token unless there is an override. -/
def ConnectionContext.authorize (ctx : ConnectionContext) (config : AuthGuardConfig) (now : ℕ)
    (roomId : String) (tokenOverride : Option (Option String)) : AuthResult × ConnectionContext :=
  let result := verifyJoinToken (tokenOverride.getD ctx.token) roomId config now
  match result with
  | .ok userId => (result, { ctx with userId := some userId })
  | .error _ => (result, ctx)

/-- The referenced room id, from a bare string or from the `roomId` of an object. -/
def extractRoomId (first : Option Json) : Option String :=
  match first with
  | some (.str s) => if s ≠ "" then some s else none
  | _ => nonemptyString (Json.prop first "roomId")

/-- The Join_Token carried on a payload. -/
def extractToken (first : Option Json) : Option String := nonemptyString (Json.prop first "token")

/-- What the middleware makes of a packet. -/
inductive Verdict
  /-- The packet passes unexamined. -/
  | unexamined
  /-- The packet passes, its token verified for the room. -/
  | authorized (token : Option String) (roomId userId : String)
  /-- The packet is dropped and the connection terminated. -/
  | unauthorized (roomId : String) (code : AuthFailureCode)
  deriving DecidableEq

/-- Whether `next` is called. -/
def Verdict.passes : Verdict → Bool
  | .unauthorized .. => false
  | _ => true

/-- `ROOM_SCOPED_EVENTS`. -/
def EventName.roomScoped : EventName → Bool
  | .other _ => false
  | _ => true

/-- The token the middleware uses in place of the handshake token. -/
def tokenOverride (p : Packet) : Option (Option String) :=
  match p.event with
  | .joinRoom => (extractToken p.data).map some
  | _ => none

/-- The middleware. -/
def guard (config : AuthGuardConfig) (ctx : ConnectionContext) (now : ℕ) (p : Packet) :
    Verdict × ConnectionContext :=
  if p.event.roomScoped then
    match extractRoomId p.data with
    | none => (.unexamined, ctx)
    | some roomId =>
      match ctx.authorize config now roomId (tokenOverride p) with
      | (.ok userId, ctx') =>
        (.authorized ((tokenOverride p).getD ctx.token) roomId userId, ctx')
      | (.error code, ctx') => (.unauthorized roomId code, ctx')
  else (.unexamined, ctx)

variable {config : AuthGuardConfig} {ctx : ConnectionContext} {now : ℕ} {p : Packet}
  {first : Option Json} {r : String}

theorem extractRoomId_eq_some : extractRoomId first = some r ↔
    (first = some (.str r) ∨ Json.prop first "roomId" = some (.str r)) ∧ r ≠ "" := by
  unfold extractRoomId
  split
  · next s =>
    rw [Option.ite_none_right_eq_some, Option.some_inj, Option.some_inj, Json.str.injEq]
    constructor
    · rintro ⟨hne, rfl⟩
      exact ⟨Or.inl rfl, hne⟩
    · rintro ⟨rfl | hprop, hne⟩
      · exact ⟨hne, rfl⟩
      · cases hprop
  · next hstr =>
    rw [nonemptyString_eq_some]
    exact and_congr_left fun _ ↦ ⟨Or.inr, fun h ↦ h.resolve_left (hstr r)⟩

theorem guard_of_extractRoomId (hscoped : p.event.roomScoped) (h : extractRoomId p.data = some r) :
    guard config ctx now p
      = match verifyJoinToken ((tokenOverride p).getD ctx.token) r config now with
        | .ok userId => (.authorized ((tokenOverride p).getD ctx.token) r userId,
            { ctx with userId := some userId })
        | .error code => (.unauthorized r code, ctx) := by
  rw [guard, if_pos hscoped, h]
  dsimp only [ConnectionContext.authorize]
  cases verifyJoinToken ((tokenOverride p).getD ctx.token) r config now <;> rfl

/-- A packet that passes has been authorized for the room id that can be read from it. -/
theorem authorized_of_passes (hscoped : p.event.roomScoped) (h : extractRoomId p.data = some r)
    (hpasses : (guard config ctx now p).1.passes) : ∃ token userId,
      (guard config ctx now p).1 = .authorized token r userId ∧
        verifyJoinToken token r config now = .ok userId := by
  rw [guard_of_extractRoomId hscoped h] at hpasses ⊢
  cases hverify : verifyJoinToken ((tokenOverride p).getD ctx.token) r config now with
  | ok userId => exact ⟨_, userId, rfl, hverify⟩
  | error code =>
    rw [hverify] at hpasses
    cases hpasses

theorem extractRoomId_of_authorized {token : Option String} {userId : String}
    (h : (guard config ctx now p).1 = .authorized token r userId) :
    extractRoomId p.data = some r ∧ verifyJoinToken token r config now = .ok userId := by
  by_cases hscoped : p.event.roomScoped = true
  · cases hread : extractRoomId p.data with
    | none =>
      rw [guard, if_pos hscoped, hread] at h
      cases h
    | some r' =>
      rw [guard_of_extractRoomId hscoped hread] at h
      cases hverify : verifyJoinToken ((tokenOverride p).getD ctx.token) r' config now with
      | ok userId' =>
        rw [hverify] at h
        cases h
        exact ⟨rfl, hverify⟩
      | error code =>
        rw [hverify] at h
        cases h
  · rw [guard, if_neg hscoped] at h
    cases h

/-- The three things the middleware can do. -/
theorem guard_cases (config : AuthGuardConfig) (ctx : ConnectionContext) (now : ℕ) (p : Packet) :
    guard config ctx now p = (.unexamined, ctx) ∨
    (∃ token r userId, verifyJoinToken token r config now = .ok userId ∧
      guard config ctx now p = (.authorized token r userId, { ctx with userId := some userId })) ∨
    ∃ r code, guard config ctx now p = (.unauthorized r code, ctx) := by
  by_cases hscoped : p.event.roomScoped = true
  · cases hread : extractRoomId p.data with
    | none => exact Or.inl (by rw [guard, if_pos hscoped, hread])
    | some r =>
      rw [guard_of_extractRoomId hscoped hread]
      cases hverify : verifyJoinToken ((tokenOverride p).getD ctx.token) r config now with
      | ok userId => exact Or.inr (Or.inl ⟨_, r, userId, hverify, rfl⟩)
      | error code => exact Or.inr (Or.inr ⟨r, code, rfl⟩)
  · exact Or.inl (by rw [guard, if_neg hscoped])

end Synapse.Gateway
