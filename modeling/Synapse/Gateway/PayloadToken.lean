import Synapse.Gateway.Actions
import Synapse.Gateway.Membership

/-!
# A token presented with the join

A `join-room` packet may carry its own token, which the middleware prefers to the one of the
handshake. The context keeps the user a token claims and not the token: the packets that follow are
verified with the token of the handshake, whatever was accepted before. So a member whose token came
with the join may act in the room it has joined exactly when its handshake would have admitted it as
well, and under the user the token verified last claims when the handler runs.
-/

namespace Synapse.Gateway

open Transition

variable {config : AuthGuardConfig} {R : Json.Rendering} {socketId : String} {auth : Option Json}

/-- The user claimed by the token that was verified last. -/
def lastClaimed (config : AuthGuardConfig) (verified : List Verification) : Option String :=
  verified.getLast?.bind fun v ↦ (verifyJoinToken v.token v.roomId config v.now).toOption

/-- A run in which a join is accepted with the token of its payload, and a packet of an action in
the same room arrives later, while that token is unexpired, and is handled after that. -/
structure JoinThenAct (config : AuthGuardConfig) (R : Json.Rendering) (socketId : String)
    (auth : Option Json) where
  /-- The connection before and after the join arrives. -/
  (atJoin afterJoin : Connection)
  /-- The connection before and after the action arrives, and when its handler runs. -/
  (atAction afterAction atHandler : Connection)
  join : Packet
  joinTime : ℕ
  (token roomId userId : String)
  event : ActionEvent
  args : List (Option Json)
  time : ℕ
  reached : (Connection.machine config R socketId auth).Reaches Machine.anyStep atJoin
  isJoin : join.event = .joinRoom
  presented : extractToken join.data = some token
  accepted : (guard config atJoin.ctx joinTime join).1 = .authorized (some token) roomId userId
  joined : Connection.step config R atJoin (.receive join joinTime) = some afterJoin
  later : (Connection.machine config R socketId auth).Steps Machine.anyStep afterJoin atAction
  unexpired : config.jwt.unexpired token time
  names : extractRoomId (Packet.data ⟨.action event, args⟩) = some roomId
  received : Connection.step config R atAction (.receive ⟨.action event, args⟩ time)
    = some afterAction
  handled : (Connection.machine config R socketId auth).Steps Machine.anyStep afterAction atHandler

/-- The action is authorized for the room, the connection is not terminated, and the handler acts
under the user the token of the join claims. -/
def JoinThenAct.Acts (run : JoinThenAct config R socketId auth) : Prop :=
  (∃ token userId, (guard config run.atAction.ctx run.time ⟨.action run.event, run.args⟩).1
    = .authorized token run.roomId userId) ∧
    run.afterAction.connected = true ∧ run.atHandler.ctx.author = run.userId

/-- The token of the handshake is good for the room when the action arrives. -/
def JoinThenAct.HandshakeGood (run : JoinThenAct config R socketId auth) : Prop :=
  ∃ userId, verifyJoinToken (readHandshakeToken auth) run.roomId config run.time = .ok userId

/-! ## What a step does to the context -/

namespace Connection

variable {s t : Connection} {a : ConnectionAction}

/-- The context before and after: the token is the same, and the user changes with a verification
only. -/
structure Carries (config : AuthGuardConfig) (s t : Connection) : Prop where
  token : t.ctx.token = s.ctx.token
  user : t.verified = s.verified ∧ t.ctx.userId = s.ctx.userId ∨
    ∃ v userId, t.verified = s.verified ++ [v] ∧
      verifyJoinToken v.token v.roomId config v.now = .ok userId ∧ t.ctx.userId = some userId

theorem Carries.of_eq (htoken : t.ctx.token = s.ctx.token) (hverified : t.verified = s.verified)
    (huser : t.ctx.userId = s.ctx.userId) : Carries config s t :=
  ⟨htoken, Or.inl ⟨hverified, huser⟩⟩

theorem carries_receive (s : Connection) (p : Packet) (now : ℕ) :
    Carries config s (s.receive config p now) := by
  unfold receive
  rcases guard_cases config s.ctx now p with h | ⟨token, r, userId, hverify, h⟩ | ⟨r, code, h⟩
  · rw [h]
    exact .of_eq rfl (List.append_nil _) rfl
  · rw [h]
    exact ⟨rfl, Or.inr ⟨⟨token, r, now⟩, userId, rfl, hverify, rfl⟩⟩
  · rw [h]
    exact .of_eq rfl (List.append_nil _) rfl

theorem carries_dispatch (h : s.dispatch = some t) : Carries config s t := by
  unfold dispatch at h
  split at h
  · cases h
  · cases h
    split_ifs <;> exact .of_eq rfl rfl rfl

theorem carries_step (h : step config R s a = some t) : Carries config s t := by
  cases a with
  | receive p now =>
    obtain ⟨-, h⟩ := Option.ite_none_right_eq_some.mp h
    obtain rfl := Option.some.inj h
    exact carries_receive s p now
  | dispatch => exact carries_dispatch h
  | register room =>
    obtain ⟨-, h⟩ := Option.ite_none_right_eq_some.mp h
    obtain rfl := Option.some.inj h
    cases Json.template R room <;> exact .of_eq rfl rfl rfl
  | joinFailed room =>
    obtain ⟨-, h⟩ := Option.ite_none_right_eq_some.mp h
    obtain rfl := Option.some.inj h
    exact .of_eq rfl rfl rfl
  | disconnecting =>
    obtain ⟨-, h⟩ := Option.ite_none_right_eq_some.mp h
    obtain rfl := Option.some.inj h
    exact .of_eq rfl rfl rfl
  | leave room =>
    obtain ⟨-, h⟩ := Option.ite_none_right_eq_some.mp h
    obtain rfl := Option.some.inj h
    cases Json.template R room <;> exact .of_eq rfl rfl rfl
  | sweep r =>
    obtain rfl := Option.some.inj h
    exact .of_eq rfl rfl rfl

/-! ## Runs -/

/-- The token is that of the handshake, and the user is the one claimed last. -/
structure Identified (config : AuthGuardConfig) (auth : Option Json) (s : Connection) : Prop where
  token : s.ctx.token = readHandshakeToken auth
  user : s.ctx.userId = lastClaimed config s.verified

theorem identified_new : Identified config auth (new socketId auth) := ⟨rfl, rfl⟩

theorem Identified.carry (hs : Identified config auth s) (h : Carries config s t) :
    Identified config auth t where
  token := h.token.trans hs.token
  user := by
    rcases h.user with ⟨hverified, huser⟩ | ⟨v, userId, hverified, hverify, huser⟩
    · rw [huser, hverified, hs.user]
    · rw [huser, hverified, lastClaimed, List.getLast?_concat, Option.bind_some, hverify]
      rfl

theorem Identified.steps (hs : Identified config auth s)
    (h : (machine config R socketId auth).Steps Machine.anyStep s t) :
    Identified config auth t :=
  h.invariant hs fun _ _ _ hu _ hstep ↦ hu.carry (carries_step hstep)

theorem isSome_userId_of_steps (hs : s.ctx.userId.isSome = true)
    (h : (machine config R socketId auth).Steps Machine.anyStep s t) :
    t.ctx.userId.isSome = true := by
  refine h.invariant (P := fun t ↦ t.ctx.userId.isSome = true) hs fun u a v hu _ hstep ↦ ?_
  rcases (carries_step hstep).user with ⟨-, huser⟩ | ⟨v', userId, -, -, huser⟩
  · rwa [huser]
  · rw [huser]
    rfl

end Connection

namespace JoinThenAct

variable (run : JoinThenAct config R socketId auth)

theorem identified_atAction : Connection.Identified config auth run.atAction := by
  obtain ⟨s₀, rfl, hsteps⟩ := run.reached
  exact ((Connection.identified_new.steps hsteps).carry
    (Connection.carries_step run.joined)).steps run.later

theorem identified_atHandler : Connection.Identified config auth run.atHandler :=
  (run.identified_atAction.carry (Connection.carries_step run.received)).steps run.handled

/-- The packet of the action is verified with the token of the handshake. -/
theorem guard_action : guard config run.atAction.ctx run.time ⟨.action run.event, run.args⟩
    = match verifyJoinToken (readHandshakeToken auth) run.roomId config run.time with
      | .ok userId => (.authorized (readHandshakeToken auth) run.roomId userId,
          { run.atAction.ctx with userId := some userId })
      | .error code => (.unauthorized run.roomId code, run.atAction.ctx) := by
  rw [← run.identified_atAction.token]
  exact guard_of_extractRoomId rfl run.names

theorem afterAction_eq :
    run.afterAction = run.atAction.receive config ⟨.action run.event, run.args⟩ run.time := by
  obtain ⟨-, h⟩ := Option.ite_none_right_eq_some.mp run.received
  exact (Option.some.inj h).symm

theorem afterAction_of_good {userId : String}
    (h : verifyJoinToken (readHandshakeToken auth) run.roomId config run.time = .ok userId) :
    run.afterAction.connected = true ∧ run.afterAction.ctx.userId = some userId ∧
      run.afterAction.verified
        = run.atAction.verified ++ [⟨readHandshakeToken auth, run.roomId, run.time⟩] := by
  have hguard := run.guard_action
  rw [h] at hguard
  obtain ⟨hconnected, -⟩ := Option.ite_none_right_eq_some.mp run.received
  rw [run.afterAction_eq, Connection.receive, hguard]
  exact ⟨hconnected, rfl, rfl⟩

theorem not_acts_of_error {code : AuthFailureCode}
    (h : verifyJoinToken (readHandshakeToken auth) run.roomId config run.time = .error code) :
    ¬ run.Acts := by
  rintro ⟨⟨token, userId, hauthorized⟩, -⟩
  rw [run.guard_action, h] at hauthorized
  cases hauthorized

/-- An action that the handshake admits is carried out under the user claimed last. -/
theorem acts_iff_of_good {userId : String}
    (h : verifyJoinToken (readHandshakeToken auth) run.roomId config run.time = .ok userId) :
    run.Acts ↔ lastClaimed config run.atHandler.verified = some run.userId := by
  obtain ⟨hconnected, huser, -⟩ := run.afterAction_of_good h
  have hauthorized : (guard config run.atAction.ctx run.time ⟨.action run.event, run.args⟩).1
      = .authorized (readHandshakeToken auth) run.roomId userId := by
    rw [run.guard_action, h]
  have hsome : run.atHandler.ctx.userId.isSome = true :=
    Connection.isSome_userId_of_steps (by rw [huser]; rfl) run.handled
  obtain ⟨last, hlast⟩ := Option.isSome_iff_exists.mp hsome
  have hauthor : run.atHandler.ctx.author = last := by
    rw [ConnectionContext.author, hlast, Option.getD_some]
  rw [← run.identified_atHandler.user, hlast, Option.some_inj, Acts, hauthor]
  exact ⟨fun hacts ↦ hacts.2.2, fun huserId ↦ ⟨⟨_, _, hauthorized⟩, hconnected, huserId⟩⟩

/-- **Acting with the token of the join.** The action is authorized and acts under the user of the
token that was accepted exactly when the handshake is good for the room as well and the token
verified last before the handler runs claims that user. With no verification in between, the token
of the handshake must claim the same user. -/
theorem acts_iff :
    (run.Acts ↔ run.HandshakeGood ∧
      lastClaimed config run.atHandler.verified = some run.userId) ∧
    (run.atHandler.verified = run.afterAction.verified →
      (run.Acts ↔ verifyJoinToken (readHandshakeToken auth) run.roomId config run.time
        = .ok run.userId)) := by
  cases hverify : verifyJoinToken (readHandshakeToken auth) run.roomId config run.time with
  | error code =>
    have hnot := run.not_acts_of_error hverify
    have hbad : ¬ run.HandshakeGood := by
      rintro ⟨userId, h⟩
      rw [hverify] at h
      cases h
    exact ⟨iff_of_false hnot fun h ↦ hbad h.1, fun _ ↦ iff_of_false hnot nofun⟩
  | ok userId =>
    have hiff := run.acts_iff_of_good hverify
    refine ⟨hiff.trans ⟨fun h ↦ ⟨⟨userId, hverify⟩, h⟩, fun h ↦ h.2⟩, fun hsame ↦ ?_⟩
    have hdirect : lastClaimed config run.atHandler.verified = some userId := by
      rw [hsame, (run.afterAction_of_good hverify).2.2, lastClaimed, List.getLast?_concat,
        Option.bind_some, hverify]
      rfl
    rw [hiff, hdirect, Option.some_inj, Except.ok.injEq]

/-! ## One board -/

/-- A token for one room, good for five minutes. -/
private def tokenConfig : AuthGuardConfig where
  jwt := .single "token-1" (.obj [("roomId", .str "board-1"), ("userId", .str "u-1")]) 300000
  openMode := false

private def noRendering : Json.Rendering := ⟨fun _ ↦ "", fun _ ↦ ""⟩

/-- The room, the name and the token. -/
private def joinPacket : Packet :=
  ⟨.joinRoom, [some (.obj [("roomId", .str "board-1"), ("username", .str "Ann"),
    ("token", .str "token-1")])]⟩

/-- A clear of the room. -/
private def clearArgs : List (Option Json) := [some (.obj [("roomId", .str "board-1")])]

/-- A join with the token, and the clear that the same client sends a second later, on a connection
with any handshake. -/
private def boardRun (auth : Option Json) : JoinThenAct tokenConfig noRendering "s-1" auth :=
  let start := Connection.new "s-1" auth
  let joined := start.receive tokenConfig joinPacket 1000
  let inRoom := { joined with admitted := [] }.joinRoom joinPacket.data
  let cleared := inRoom.receive tokenConfig ⟨.action .clear, clearArgs⟩ 2000
  { atJoin := start, afterJoin := joined, atAction := inRoom, afterAction := cleared
    atHandler := cleared, join := joinPacket, joinTime := 1000, token := "token-1"
    roomId := "board-1", userId := "u-1", event := .clear, args := clearArgs, time := 2000
    reached := Machine.Reaches.init rfl
    isJoin := rfl
    presented := rfl
    accepted := rfl
    joined := rfl
    later := Machine.Steps.single (a := .dispatch) trivial rfl
    unexpired := show 2000 < 300000 by decide
    names := rfl
    received := rfl
    handled := Machine.Steps.refl }

/-- With the token in the handshake as well, the member acts. -/
theorem acts_iff_handshake :
    (boardRun (some (.obj [("token", .str "token-1")]))).Acts :=
  ((acts_iff _).2 rfl).mpr rfl

/-- Without one, the join is accepted and the clear terminates the connection. -/
theorem terminated_after_join : (boardRun none).afterAction.connected = false ∧
    ¬∀ (config : AuthGuardConfig) (R : Json.Rendering) (socketId : String) (auth : Option Json)
      (run : JoinThenAct config R socketId auth), config.openMode = false → run.Acts := by
  refine ⟨rfl, fun hclaim ↦ ?_⟩
  have hconnected : (boardRun none).afterAction.connected = true :=
    (hclaim tokenConfig noRendering "s-1" none (boardRun none) rfl).2.1
  cases hconnected

end JoinThenAct

end Synapse.Gateway
