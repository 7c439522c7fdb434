import Synapse.Gateway.Guard
import Synapse.Transition.Machine

/-!
# Becoming a member

One connection: its packets pass the middleware, wait for their handlers, and the `join-room`
handler (`server/src/handlers/joinRoom.ts`) enters the rooms it is told to and then registers
presence. That handler trusts the middleware and looks at nothing itself. It hands `data?.roomId` to
`socket.join`, which takes a room or an array of rooms, and to the presence service, which writes it
into the names of its keys.

Rooms are told apart as keys of a `Map`. Objects and arrays among them are compared by their
contents here and by identity there; a room that is a string is the same room in both.

The middleware reads the room id where the handler does if the payload is an object whose `roomId`
is a non-empty string. Any other payload is either left unexamined or, being a bare string, examined
for a room the handler does not look at.
-/

namespace Synapse.Gateway

open Transition

/-- A verification that succeeded. -/
structure Verification where
  token : Option String
  roomId : String
  now : ℕ
  deriving DecidableEq

/-- A connection, from its handshake on. -/
structure Connection where
  ctx : ConnectionContext
  /-- `socket.rooms`. -/
  rooms : List (Option Json)
  connected : Bool
  /-- The packets that have passed, in order, and not reached their handler. -/
  admitted : List Packet
  /-- The room ids of the `join-room` handlers that are to register presence. -/
  joining : List (Option Json)
  /-- The rooms the disconnecting handler is to leave. -/
  leaving : List (Option Json)
  /-- The rooms whose presence hash has an entry of the socket. -/
  present : List String
  /-- History: what was verified while a packet of the connection was processed. -/
  verified : List Verification

/-- What happens to a connection. -/
inductive ConnectionAction
  | receive (p : Packet) (now : ℕ)
  | dispatch
  | register (roomId : Option Json)
  | joinFailed (roomId : Option Json)
  | disconnecting
  | leave (roomId : Option Json)
  | sweep (roomId : String)

/-- The rooms `socket.join` enters. -/
def joinTargets : Option Json → List (Option Json)
  | some (.arr rooms) => rooms.map some
  | room => [room]

/-- The verification of a verdict. -/
def Verdict.verification (now : ℕ) : Verdict → List Verification
  | .authorized token roomId _ => [⟨token, roomId, now⟩]
  | _ => []

namespace Connection

/-- A new connection, in no room but its own. -/
def new (socketId : String) (auth : Option Json) : Connection where
  ctx := .new socketId auth
  rooms := [some (.str socketId)]
  connected := true
  admitted := []
  joining := []
  leaving := []
  present := []
  verified := []

/-- The socket leaves its rooms, all but its own to be cleaned up. -/
def hangUp (s : Connection) : Connection :=
  { s with
    connected := false
    rooms := []
    leaving := s.leaving ++ s.rooms.filter fun room ↦ decide (room ≠ some (.str s.ctx.socketId)) }

/-- A packet arrives at the middleware. -/
def receive (config : AuthGuardConfig) (s : Connection) (p : Packet) (now : ℕ) : Connection :=
  let (verdict, ctx) := guard config s.ctx now p
  let s := { s with ctx, verified := s.verified ++ verdict.verification now }
  if verdict.passes then { s with admitted := s.admitted ++ [p] } else s.hangUp

/-- The `join-room` handler up to its first `await`. -/
def joinRoom (s : Connection) (data : Option Json) : Connection :=
  let roomId := Json.prop data "roomId"
  { s with
    ctx := { s.ctx with currentRoomId := roomId }
    rooms := (joinTargets roomId).foldl (fun rooms room ↦ rooms.insert room) s.rooms
    joining := s.joining ++ [roomId] }

/-- The handler of an admitted packet starts, if the socket is still connected. -/
def dispatch (s : Connection) : Option Connection :=
  match s.admitted with
  | [] => none
  | p :: rest =>
    let s := { s with admitted := rest }
    some (if s.connected ∧ p.event = .joinRoom then s.joinRoom p.data else s)

def step (config : AuthGuardConfig) (R : Json.Rendering) (s : Connection) :
    ConnectionAction → Option Connection
  | .receive p now => if s.connected then some (s.receive config p now) else none
  | .dispatch => s.dispatch
  | .register roomId =>
    if roomId ∈ s.joining then
      let s := { s with joining := s.joining.erase roomId }
      some (match Json.template R roomId with
        | some r => { s with present := s.present.insert r }
        | none => s)
    else none
  | .joinFailed roomId =>
    if roomId ∈ s.joining then some { s with joining := s.joining.erase roomId } else none
  | .disconnecting => if s.connected then some s.hangUp else none
  | .leave roomId =>
    if roomId ∈ s.leaving then
      let s := { s with leaving := s.leaving.erase roomId }
      some (match Json.template R roomId with
        | some r => { s with present := s.present.filter fun r' ↦ decide (r' ≠ r) }
        | none => s)
    else none
  | .sweep roomId => some { s with present := s.present.filter fun r ↦ decide (r ≠ roomId) }

/-- The transition system of one connection. -/
def machine (config : AuthGuardConfig) (R : Json.Rendering) (socketId : String)
    (auth : Option Json) : Machine Connection ConnectionAction :=
  ⟨fun s ↦ s = new socketId auth, step config R⟩

/-- A `join-room` packet that passes names the room in an object, as a non-empty string. -/
def Readable (config : AuthGuardConfig) (s : Connection) : ConnectionAction → Prop
  | .receive p now => p.event = .joinRoom → (guard config s.ctx now p).1.passes →
    (nonemptyString (Json.prop p.data "roomId")).isSome
  | _ => True

instance (config : AuthGuardConfig) (s : Connection) (a : ConnectionAction) :
    Decidable (s.Readable config a) :=
  match a with
  | .receive p _ => inferInstanceAs (Decidable (p.event = .joinRoom → _ → _))
  | .dispatch | .register _ | .joinFailed _ | .disconnecting | .leave _ | .sweep _ =>
    inferInstanceAs (Decidable True)

/-- A token that grants the room was verified. -/
def Vouched (config : AuthGuardConfig) (verified : List Verification) (r : String) : Prop :=
  ∃ v ∈ verified, v.roomId = r ∧ ∃ token, v.token = some token ∧ config.jwt.Grants token v.now r

/-- A room the connection may be in. -/
def Allowed (config : AuthGuardConfig) (verified : List Verification) (room : Option Json) : Prop :=
  ∃ r, room = some (.str r) ∧ Vouched config verified r

/-- Where room ids can be, and what stands behind them. -/
structure Sound (config : AuthGuardConfig) (socketId : String) (s : Connection) : Prop where
  socketId_eq : s.ctx.socketId = socketId
  admitted : ∀ p ∈ s.admitted, p.event = .joinRoom →
    Allowed config s.verified (Json.prop p.data "roomId")
  joining : ∀ room ∈ s.joining, Allowed config s.verified room
  rooms : ∀ room ∈ s.rooms, room ≠ some (.str socketId) → Allowed config s.verified room
  present : ∀ r ∈ s.present, Vouched config s.verified r

variable {config : AuthGuardConfig} {R : Json.Rendering} {socketId : String} {auth : Option Json}
  {s t : Connection} {a : ConnectionAction} {verified : List Verification} {room : Option Json}

theorem Allowed.mono {more : List Verification} (h : Allowed config verified room) :
    Allowed config (verified ++ more) room := by
  obtain ⟨r, hr, v, hv, hgrants⟩ := h
  exact ⟨r, hr, v, List.mem_append_left _ hv, hgrants⟩

theorem Sound.new : Sound config socketId (new socketId auth) where
  socketId_eq := rfl
  admitted := fun _ hp ↦ absurd hp List.not_mem_nil
  joining := fun _ hroom ↦ absurd hroom List.not_mem_nil
  rooms := fun _ hroom hne ↦ absurd (List.mem_singleton.mp hroom) hne
  present := fun _ hr ↦ absurd hr List.not_mem_nil

/-! ## Steps -/

theorem Sound.hangUp (hs : Sound config socketId s) : Sound config socketId s.hangUp :=
  { hs with rooms := fun _ hroom ↦ absurd hroom List.not_mem_nil }

theorem socketId_guard {ctx : ConnectionContext} {now : ℕ} {p : Packet} :
    (guard config ctx now p).2.socketId = ctx.socketId := by
  rcases guard_cases config ctx now p with h | ⟨token, r, userId, -, h⟩ | ⟨r, code, h⟩ <;> rw [h]

theorem Sound.verify (hs : Sound config socketId s) (ctx : ConnectionContext)
    (hctx : ctx.socketId = socketId) (more : List Verification) :
    Sound config socketId { s with ctx, verified := s.verified ++ more } where
  socketId_eq := hctx
  admitted := fun p hp hjoin ↦ (hs.admitted p hp hjoin).mono
  joining := fun room hroom ↦ (hs.joining room hroom).mono
  rooms := fun room hroom hne ↦ (hs.rooms room hroom hne).mono
  present := fun r hr ↦
    let ⟨v, hv, hgrants⟩ := hs.present r hr
    ⟨v, List.mem_append_left _ hv, hgrants⟩

/-- The packet of a `join-room` that passes is vouched for by its own verification. -/
theorem allowed_of_readable (hopen : config.openMode = false) {ctx : ConnectionContext} {p : Packet}
    {now : ℕ} (hjoin : p.event = .joinRoom) (hpasses : (guard config ctx now p).1.passes)
    (hreadable : (nonemptyString (Json.prop p.data "roomId")).isSome) :
    Allowed config (verified ++ (guard config ctx now p).1.verification now)
      (Json.prop p.data "roomId") := by
  obtain ⟨r, hr⟩ := Option.isSome_iff_exists.mp hreadable
  obtain ⟨hprop, hne⟩ := nonemptyString_eq_some.mp hr
  have hscoped : p.event.roomScoped = true := by
    rw [hjoin]
    rfl
  obtain ⟨token, userId, hguard, hverify⟩ :=
    authorized_of_passes hscoped (extractRoomId_eq_some.mpr ⟨Or.inr hprop, hne⟩) hpasses
  obtain ⟨t, rfl, hgrants⟩ := grants_of_verifyJoinToken hopen hverify
  refine ⟨r, hprop, ⟨some t, r, now⟩, ?_, rfl, t, rfl, hgrants⟩
  rw [hguard]
  exact List.mem_append_right _ (List.mem_singleton_self _)

theorem Sound.receive (hopen : config.openMode = false) (hs : Sound config socketId s) {p : Packet}
    {now : ℕ} (hok : s.Readable config (.receive p now)) :
    Sound config socketId (s.receive config p now) := by
  have hverified := hs.verify (guard config s.ctx now p).2
    (socketId_guard.trans hs.socketId_eq) ((guard config s.ctx now p).1.verification now)
  by_cases hpasses : (guard config s.ctx now p).1.passes = true
  · have hreceive : s.receive config p now = { s with
        ctx := (guard config s.ctx now p).2
        verified := s.verified ++ (guard config s.ctx now p).1.verification now
        admitted := s.admitted ++ [p] } := if_pos hpasses
    rw [hreceive]
    refine { hverified with admitted := fun q hq hjoin ↦ ?_ }
    rcases List.mem_append.mp hq with hq | hq
    · exact hverified.admitted q hq hjoin
    · obtain rfl := List.mem_singleton.mp hq
      exact allowed_of_readable hopen hjoin hpasses (hok hjoin hpasses)
  · have hreceive : s.receive config p now = Connection.hangUp { s with
        ctx := (guard config s.ctx now p).2
        verified := s.verified ++ (guard config s.ctx now p).1.verification now } := if_neg hpasses
    rw [hreceive]
    exact hverified.hangUp

/-- The handler enters the one room that is named. -/
theorem Sound.joinRoom (hs : Sound config socketId s) {data : Option Json}
    (hallowed : Allowed config s.verified (Json.prop data "roomId")) :
    Sound config socketId (s.joinRoom data) := by
  obtain ⟨r, hr, hvouched⟩ := hallowed
  refine { hs with joining := fun room hroom ↦ ?_, rooms := fun room hroom hne ↦ ?_ }
  · rcases List.mem_append.mp hroom with hroom | hroom
    · exact hs.joining room hroom
    · exact List.mem_singleton.mp hroom ▸ ⟨r, hr, hvouched⟩
  · have hroom' : room ∈ s.rooms.insert (some (.str r)) := by
      rw [Connection.joinRoom, hr] at hroom
      exact hroom
    rcases List.mem_insert_iff.mp hroom' with rfl | hroom'
    · exact ⟨r, rfl, hvouched⟩
    · exact hs.rooms room hroom' hne

theorem Sound.dispatch (hs : Sound config socketId s) (h : s.dispatch = some t) :
    Sound config socketId t := by
  unfold Connection.dispatch at h
  split at h
  · cases h
  · next p rest hadmitted =>
    have hrest : Sound config socketId { s with admitted := rest } :=
      { hs with admitted := fun q hq ↦ hs.admitted q (hadmitted ▸ List.mem_cons_of_mem _ hq) }
    obtain rfl := Option.some.inj h
    split_ifs with hjoin
    · exact hrest.joinRoom (hs.admitted p (hadmitted ▸ List.mem_cons_self) hjoin.2)
    · exact hrest

theorem Sound.register (hs : Sound config socketId s) (hroom : room ∈ s.joining)
    {r : String} (hr : Json.template R room = some r) :
    Sound config socketId { s with
      joining := s.joining.erase room
      present := s.present.insert r } := by
  obtain ⟨r', rfl, hvouched⟩ := hs.joining room hroom
  refine { hs with
    joining := fun room' hroom' ↦ hs.joining room' (List.mem_of_mem_erase hroom')
    present := fun q hq ↦ ?_ }
  rcases List.mem_insert_iff.mp hq with rfl | hq
  · rw [Json.template, Json.render, Option.some_inj] at hr
    exact hr ▸ hvouched
  · exact hs.present q hq

theorem Sound.filter (hs : Sound config socketId s) (leaving : List (Option Json))
    (p : String → Bool) :
    Sound config socketId { s with leaving := leaving, present := s.present.filter p } :=
  { hs with present := fun r hr ↦ hs.present r (List.mem_filter.mp hr).1 }

theorem Sound.step (hopen : config.openMode = false) (hs : Sound config socketId s)
    (hok : s.Readable config a) (h : s.step config R a = some t) : Sound config socketId t := by
  cases a with
  | receive p now =>
    obtain ⟨-, h⟩ := Option.ite_none_right_eq_some.mp h
    obtain rfl := Option.some.inj h
    exact hs.receive hopen hok
  | dispatch => exact hs.dispatch h
  | register room =>
    obtain ⟨hroom, h⟩ := Option.ite_none_right_eq_some.mp h
    obtain rfl := Option.some.inj h
    cases hr : Json.template R room with
    | some r => exact hs.register hroom hr
    | none =>
      exact { hs with joining := fun room' h' ↦ hs.joining room' (List.mem_of_mem_erase h') }
  | joinFailed room =>
    obtain ⟨-, h⟩ := Option.ite_none_right_eq_some.mp h
    obtain rfl := Option.some.inj h
    exact { hs with joining := fun room' h' ↦ hs.joining room' (List.mem_of_mem_erase h') }
  | disconnecting =>
    obtain ⟨-, h⟩ := Option.ite_none_right_eq_some.mp h
    obtain rfl := Option.some.inj h
    exact hs.hangUp
  | leave room =>
    obtain ⟨-, h⟩ := Option.ite_none_right_eq_some.mp h
    obtain rfl := Option.some.inj h
    cases hr : Json.template R room with
    | some r => exact hs.filter _ _
    | none => exact { hs with }
  | sweep r =>
    obtain rfl := Option.some.inj h
    exact hs.filter _ _

theorem Sound.of_reaches (hopen : config.openMode = false)
    (h : (machine config R socketId auth).Reaches (Readable config) s) :
    Sound config socketId s := by
  obtain ⟨s₀, rfl, hsteps⟩ := h
  induction hsteps with
  | refl => exact Sound.new
  | tail _ hok hstep ih => exact ih.step hopen hok hstep

/-- **Members are vouched for.** Outside OPEN_MODE, when the `join-room` packets that pass name
their room in an object, the socket is in a room other than its own, or present in one, only after a
token that grants that room was verified for a packet of this connection. -/
theorem member_vouched (hopen : config.openMode = false)
    (hs : (machine config R socketId auth).Reaches (Readable config) s) :
    (∀ room ∈ s.rooms, room ≠ some (.str socketId) →
      ∃ r, room = some (.str r) ∧ Vouched config s.verified r) ∧
    ∀ r ∈ s.present, Vouched config s.verified r :=
  have hsound := Sound.of_reaches hopen hs
  ⟨hsound.rooms, hsound.present⟩

/-- A token for one room. -/
private def oneRoom : AuthGuardConfig where
  jwt := .single "token-1" (.obj [("roomId", .str "board-1"), ("userId", .str "u-1")]) 300000
  openMode := false

private def plain : Json.Rendering := ⟨fun _ ↦ "", fun _ ↦ ""⟩

/-- A `join-room` packet with this room id is received and handled to its registration. -/
private def joinWith (roomId : Json) : List ConnectionAction :=
  [.receive ⟨.joinRoom, [some (.obj [("roomId", roomId), ("username", .str "Eve")])]⟩ 1000,
    .dispatch, .register (some roomId)]

/-- The socket is a member of the room, and present in it. -/
private def isMember (s : Connection) : Bool :=
  decide (some (.str "board-1") ∈ s.rooms) && decide ("board-1" ∈ s.present)

private def handshake : Option Json := some (.obj [("token", .str "token-1")])

/-- A socket that presents its token in the handshake is vouched for. -/
theorem member_vouched_handshake : ∃ s : Connection, some (.str "board-1") ∈ s.rooms ∧
    "board-1" ∈ s.present ∧ Vouched oneRoom s.verified "board-1" := by
  let M := machine oneRoom plain "s-1" handshake
  obtain ⟨s, hs, hsteps, hp⟩ : ∃ s,
      M.exec (new "s-1" handshake) (joinWith (.str "board-1")) = some s ∧
        M.Steps (Readable oneRoom) (new "s-1" handshake) s ∧ isMember s = true :=
    Machine.exists_of_guarded_any _ (joinWith (.str "board-1")) (by decide)
  rw [isMember, Bool.and_eq_true, decide_eq_true_iff, decide_eq_true_iff] at hp
  exact ⟨s, hp.1, hp.2, (member_vouched rfl ⟨_, rfl, hsteps⟩).2 _ hp.2⟩

/-- The socket is a member, and nothing was ever verified. -/
private def intrudes (s : Connection) : Bool := isMember s && s.verified.isEmpty

/-- Without any token, an array is enough. -/
theorem member_of_unread_array : ¬∀ (config : AuthGuardConfig) (R : Json.Rendering)
    (socketId : String) (auth : Option Json) (s : Connection), config.openMode = false →
    (machine config R socketId auth).Reaches Machine.anyStep s →
      (∀ room ∈ s.rooms, room ≠ some (.str socketId) →
        ∃ r, room = some (.str r) ∧ Vouched config s.verified r) ∧
      ∀ r ∈ s.present, Vouched config s.verified r := by
  intro hclaim
  obtain ⟨s, hs, hsteps, hp⟩ := Machine.exists_of_exec (M := machine oneRoom plain "s-1" none)
    (p := intrudes) (new "s-1" none) (joinWith (.arr [.str "board-1"])) (by decide)
  rw [intrudes, isMember, Bool.and_eq_true, Bool.and_eq_true, decide_eq_true_iff,
    List.isEmpty_iff] at hp
  obtain ⟨r, -, v, hv, -⟩ :=
    (hclaim oneRoom plain "s-1" none s rfl ⟨_, rfl, hsteps⟩).1 _ hp.1.1 (by decide)
  exact absurd (hp.2 ▸ hv) List.not_mem_nil

end Connection

end Synapse.Gateway
