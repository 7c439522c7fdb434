import Synapse.Gateway.Actions
import Synapse.Gateway.Membership
import Synapse.Presence.Handlers

/-!
# Invalid room events

What the handlers of `join-room`, `draw`, `cursor-move` and `clear` do to the connection, its rooms,
the presence and colors of the coordination store and the stroke buffer, and what they send. Three
of them consult their schema before anything else counts, and an invalid payload is answered with an
error. The fourth consults none: `joinRoom.ts` takes the room and the name as they come, enters the
room, reserves a color, registers the name and tells the members.

A payload whose name or room is no string reaches the store as well, so the store is kept with the
payload values it is given. A handler is run on its own here, its calls answered by the outcomes of
`Answers`.
-/

namespace Synapse.Gateway

open Presence

/-! ## The coordination store -/

/-- A presence entry, as the handler registers it. -/
structure Entry where
  userId : String
  username : Option Json
  cursorColor : String
  cursor : Option (ℚ × ℚ) := none

/-- The keys of one room. -/
structure RoomPresence where
  /-- `room:{id}:users`, by socket. -/
  users : String → Option Entry
  /-- `room:{id}:colors`. -/
  colors : Finset String
  /-- `room:{id}:seen`, by socket. -/
  seen : String → Option ℕ

/-- The keys of presence. -/
structure PresenceStore where
  room : String → RoomPresence
  /-- `presence:rooms`. -/
  registered : Finset String

/-- What the platform does with values that are no strings. -/
structure Platform where
  rendering : Json.Rendering
  /-- The names that a room id passed to Redis as the last argument adds to `presence:rooms`. -/
  argument : Option Json → Finset String

namespace RoomPresence

variable (room : RoomPresence)

/-- The colors of the room as the color script finds them. -/
def pool : RoomKeys := { RoomKeys.empty with colors := room.colors }

/-- `ALLOCATE_COLOR_LUA`. -/
def allocateColor : String × RoomPresence :=
  (room.pool.allocateColor.1, { room with colors := room.pool.allocateColor.2.colors })

/-- `JOIN_LUA`. -/
def join (socketId : String) (entry : Entry) (now : ℕ) : RoomPresence where
  users := Function.update room.users socketId (some entry)
  colors := if entry.cursorColor = "" then room.colors else insert entry.cursorColor room.colors
  seen := Function.update room.seen socketId (some now)

/-- `UPDATE_CURSOR_LUA`. -/
def updateCursor (socketId : String) (x y : ℚ) (now : ℕ) : RoomPresence :=
  match room.users socketId with
  | none => room
  | some entry =>
    { room with
      users := Function.update room.users socketId (some { entry with cursor := some (x, y) })
      seen := Function.update room.seen socketId (some now) }

end RoomPresence

namespace PresenceStore

variable (store : PresenceStore)

/-- `PresenceService.allocateColor`. -/
def allocateColor (r : String) : String × PresenceStore :=
  ((store.room r).allocateColor.1,
    { store with room := Function.update store.room r (store.room r).allocateColor.2 })

/-- `PresenceService.join`. -/
def join (r : String) (names : Finset String) (socketId : String) (entry : Entry) (now : ℕ) :
    PresenceStore where
  room := Function.update store.room r ((store.room r).join socketId entry now)
  registered := store.registered ∪ names

/-- `PresenceService.updateCursor`. -/
def updateCursor (r : String) (socketId : String) (x y : ℚ) (now : ℕ) : PresenceStore :=
  { store with room := Function.update store.room r ((store.room r).updateCursor socketId x y now) }

/-- Every color of the pool is in use in the room. -/
def Exhausted (r : String) : Prop := (store.room r).pool.Exhausted

end PresenceStore

/-! ## The handlers -/

/-- What is sent. -/
inductive Sent
  | yourColor (cursorColor : String)
  | roomHistory (history : RoomHistory)
  | error (code message : String)
  /-- `users-update` to the room, with the users hash. -/
  | usersUpdate (roomId : Option Json) (users : String → Option Entry)
  /-- What an action sends to the other members of the room. -/
  | broadcast (roomId : Json) (message : Broadcast)

/-- Whether others than the sender are sent it. -/
def Sent.toOthers : Sent → Bool
  | .usersUpdate .. | .broadcast .. => true
  | _ => false

/-- What the services answer to the handler of a room event. -/
structure Answers where
  services : Services
  allocateColor : Presence.Outcome
  join : Presence.Outcome
  loadForJoin : Option RoomHistory
  /-- `Date.now()`. -/
  now : ℕ

/-- The state a room event can change. -/
structure Site where
  ctx : ConnectionContext
  /-- `socket.rooms`. -/
  rooms : List (Option Json)
  presence : PresenceStore
  /-- What has been appended to the stroke buffer: the room, the author and the stroke. -/
  appended : List (Json × String × StrokeSegment)
  /-- The rooms whose compaction has been asked for. -/
  compacted : List Json
  sent : List Sent

namespace Site

/-- The `catch` of the join handler. -/
def joinFailed : Sent := .error "JOIN_FAILED" "Could not join the room. Please retry."

/-- What the join handler leaves in the store, and what it sends. -/
def serveJoin (P : Platform) (s : Site) (answers : Answers) (roomId username : Option Json) :
    PresenceStore × List Sent :=
  match Json.template P.rendering roomId with
  -- The log line of the `catch` renders the id again, and fails before the error is sent.
  | none => (s.presence, [])
  | some r =>
    let (cursorColor, allocated) := s.presence.allocateColor r
    match answers.allocateColor with
    | .rejected => (s.presence, [joinFailed])
    | .lost => (allocated, [joinFailed])
    | .resolved =>
      let entry : Entry := { userId := s.ctx.author, username, cursorColor }
      let joined := allocated.join r (P.argument roomId) s.ctx.socketId entry answers.now
      match answers.join with
      | .rejected => (allocated, [joinFailed])
      | .lost => (joined, [joinFailed])
      | .resolved =>
        match answers.loadForJoin with
        | none => (joined, [.yourColor cursorColor, joinFailed])
        | some history =>
          let served := [.yourColor cursorColor, .roomHistory history,
            .usersUpdate roomId (joined.room r).users]
          -- The log line renders the name, inside the `try`.
          (joined, if (Json.template P.rendering username).isSome then served
            else served ++ [joinFailed])

/-- The `join-room` handler. -/
def joinRoom (P : Platform) (s : Site) (answers : Answers) (data : Option Json) : Site :=
  let roomId := Json.prop data "roomId"
  let username := Json.prop data "username"
  let served := s.serveJoin P answers roomId username
  { s with
    ctx := { s.ctx with currentRoomId := roomId }
    rooms := (joinTargets roomId).foldl (fun rooms room ↦ rooms.insert room) s.rooms
    presence := served.1
    sent := s.sent ++ served.2 }

/-- What an effect of an action does. -/
def apply (P : Platform) (now : ℕ) (s : Site) : Effect → Site
  | .error code message => { s with sent := s.sent ++ [.error code message] }
  | .append roomId userId stroke => { s with appended := s.appended ++ [(roomId, userId, stroke)] }
  | .broadcast roomId message => { s with sent := s.sent ++ [.broadcast roomId message] }
  | .maybeCompact roomId => { s with compacted := s.compacted ++ [roomId] }
  | .updateCursor roomId x y =>
    match Json.template P.rendering (some roomId) with
    | some r => { s with presence := s.presence.updateCursor r s.ctx.socketId x y now }
    | none => s
  | .history _ history => { s with sent := s.sent ++ [.roomHistory history] }

end Site

/-- The room events whose payload has a schema. -/
inductive RoomEvent
  | joinRoom
  | draw
  | cursorMove
  | clear
  deriving DecidableEq

/-- The payload is not what the event is to carry. That of `clear` is judged as its handler judges
it, with a bare string standing for an object with that room id. -/
def Invalid : RoomEvent → Option Json → Prop
  | .joinRoom, data => Schemas.roomId (Json.prop data "roomId") = none ∨
      Schemas.username (Json.prop data "username") = none
  | .draw, data => Schemas.draw data = none
  | .cursorMove, data => Schemas.cursorMove data = none
  | .clear, data => Schemas.clear (clearPayload data) = none

/-- The handler of a room event. -/
def Site.react (P : Platform) (s : Site) (answers : Answers) (data : Option Json) :
    RoomEvent → Site
  | .joinRoom => s.joinRoom P answers data
  | .draw => (handle .draw s.ctx answers.services data).foldl (Site.apply P answers.now) s
  | .cursorMove =>
    (handle .cursorMove s.ctx answers.services data).foldl (Site.apply P answers.now) s
  | .clear => (handle .clear s.ctx answers.services data).foldl (Site.apply P answers.now) s

/-- Nothing has changed but what the sender was sent. -/
structure Untouched (s t : Site) : Prop where
  currentRoomId : t.ctx.currentRoomId = s.ctx.currentRoomId
  rooms : t.rooms = s.rooms
  presence : t.presence = s.presence
  appended : t.appended = s.appended
  compacted : t.compacted = s.compacted
  others : t.sent.filter Sent.toOthers = s.sent.filter Sent.toOthers

/-- The connection is where the payload sends it. -/
def Site.IsIn (s : Site) (roomId : Option Json) : Prop :=
  s.ctx.currentRoomId = roomId ∧ ∀ room ∈ joinTargets roomId, room ∈ s.rooms

/-- The calls of the join change nothing in the store and end before the members are told. The keys
of the room have no name, or the allocation is rejected; or the pool is exhausted, and the reply to
the allocation is lost, or the registration is rejected, or it registers what is there already and
the handler fails after it. -/
def Site.StoreIdle (P : Platform) (s : Site) (answers : Answers) (roomId username : Option Json) :
    Prop :=
  ∀ r, Json.template P.rendering roomId = some r →
    answers.allocateColor = .rejected ∨
      s.presence.Exhausted r ∧
        (answers.allocateColor = .lost ∨ answers.join = .rejected ∨
          (s.presence.join r (P.argument roomId) s.ctx.socketId
              { userId := s.ctx.author, username
                cursorColor := (s.presence.allocateColor r).1 } answers.now = s.presence ∧
            (answers.join = .lost ∨ answers.loadForJoin = none)))

variable {P : Platform} {s t : Site} {answers : Answers} {data roomId username : Option Json}
  {r : String} {store : PresenceStore}

/-! ## Actions -/

/-- An error to the sender. -/
def Effect.isError : Effect → Bool
  | .error .. => true
  | _ => false

theorem untouched_refl (s : Site) : Untouched s s := ⟨rfl, rfl, rfl, rfl, rfl, rfl⟩

theorem Untouched.trans {u : Site} (h : Untouched s t) (h' : Untouched t u) : Untouched s u :=
  ⟨h'.currentRoomId.trans h.currentRoomId, h'.rooms.trans h.rooms, h'.presence.trans h.presence,
    h'.appended.trans h.appended, h'.compacted.trans h.compacted, h'.others.trans h.others⟩

theorem untouched_apply {e : Effect} {now : ℕ} (h : e.isError = true) :
    Untouched s (s.apply P now e) := by
  cases e with
  | error code message =>
    refine ⟨rfl, rfl, rfl, rfl, rfl, ?_⟩
    rw [Site.apply, List.filter_append]
    exact List.append_nil _
  | append | broadcast | maybeCompact | updateCursor | history => cases h

theorem untouched_of_errors {effects : List Effect} {now : ℕ}
    (h : ∀ e ∈ effects, e.isError = true) : Untouched s (effects.foldl (Site.apply P now) s) := by
  induction effects generalizing s with
  | nil => exact untouched_refl s
  | cons e effects ih =>
    exact (untouched_apply (h e List.mem_cons_self)).trans
      (ih fun e' he' ↦ h e' (List.mem_cons_of_mem _ he'))

/-- The handler of an action has only an error for a payload its schema rejects. -/
theorem isError_of_invalid {event : RoomEvent} {action : ActionEvent}
    (haction : (event = .draw ∧ action = .draw) ∨ (event = .cursorMove ∧ action = .cursorMove) ∨
      (event = .clear ∧ action = .clear))
    (h : Invalid event data) (ctx : ConnectionContext) (services : Services) :
    ∀ e ∈ handle action ctx services data, e.isError = true := by
  rcases haction with ⟨rfl, rfl⟩ | ⟨rfl, rfl⟩ | ⟨rfl, rfl⟩
  · have hdraw : Schemas.draw data = none := h
    simp only [handle, draw, hdraw]
    split_ifs <;> simp [Effect.isError]
  · have hmove : Schemas.cursorMove data = none := h
    simp only [handle, cursorMove, hmove]
    split_ifs <;> simp [Effect.isError]
  · have hclear : Schemas.clear (clearPayload data) = none := h
    simp [handle, clear, hclear, Effect.isError]

/-! ## Joins -/

theorem mem_foldl_insert {room : Option Json} (targets rooms : List (Option Json)) :
    room ∈ targets.foldl (fun rooms room ↦ rooms.insert room) rooms ↔
      room ∈ targets ∨ room ∈ rooms := by
  induction targets generalizing rooms with
  | nil => simp
  | cons target targets ih =>
    rw [List.foldl_cons, ih, List.mem_insert_iff, List.mem_cons]
    tauto

theorem foldl_insert_eq_self_iff {targets rooms : List (Option Json)} :
    targets.foldl (fun rooms room ↦ rooms.insert room) rooms = rooms ↔
      ∀ room ∈ targets, room ∈ rooms := by
  constructor
  · intro h room hroom
    rw [← h]
    exact (mem_foldl_insert targets rooms).mpr (Or.inl hroom)
  · intro h
    induction targets with
    | nil => rfl
    | cons target targets ih =>
      rw [List.foldl_cons, List.insert_of_mem (h target List.mem_cons_self)]
      exact ih fun room hroom ↦ h room (List.mem_cons_of_mem _ hroom)

theorem untouched_joinRoom_iff : Untouched s (s.joinRoom P answers data) ↔
    s.IsIn (Json.prop data "roomId") ∧
      (s.serveJoin P answers (Json.prop data "roomId") (Json.prop data "username")).1
        = s.presence ∧
      (s.serveJoin P answers (Json.prop data "roomId") (Json.prop data "username")).2.filter
        Sent.toOthers = [] := by
  constructor
  · intro h
    have hothers := h.others
    rw [Site.joinRoom, List.filter_append] at hothers
    exact ⟨⟨h.currentRoomId.symm, foldl_insert_eq_self_iff.mp h.rooms⟩, h.presence,
      List.append_right_eq_self.mp hothers⟩
  · rintro ⟨⟨hcurrent, hrooms⟩, hpresence, hsent⟩
    refine ⟨hcurrent.symm, foldl_insert_eq_self_iff.mpr hrooms, hpresence, rfl, rfl, ?_⟩
    rw [Site.joinRoom, List.filter_append, hsent, List.append_nil]

theorem exists_new_color (h : ¬store.Exhausted r) :
    ∃ c, c ∉ (store.room r).colors ∧ c ∈ ((store.allocateColor r).2.room r).colors := by
  obtain ⟨hnew, hpool⟩ := RoomKeys.allocateColor_of_not_exhausted h
  refine ⟨_, hnew, ?_⟩
  simp only [PresenceStore.allocateColor, Function.update_self, RoomPresence.allocateColor, hpool]
  exact Finset.mem_insert_self _ _

theorem allocateColor_eq_self_iff : (store.allocateColor r).2 = store ↔ store.Exhausted r := by
  constructor
  · intro h
    by_contra hnot
    obtain ⟨c, hnew, hc⟩ := exists_new_color hnot
    rw [h] at hc
    exact hnew hc
  · intro h
    have hroom : (store.room r).allocateColor.2 = store.room r := by
      rw [RoomPresence.allocateColor, (RoomKeys.allocateColor_of_exhausted h).2]
      rfl
    rw [PresenceStore.allocateColor, hroom, Function.update_eq_self]

/-- A registration keeps the colors that were in use. -/
theorem colors_subset_join (names : Finset String) (socketId : String) (entry : Entry) (now : ℕ) :
    (store.room r).colors ⊆ ((store.join r names socketId entry now).room r).colors := by
  intro c hc
  simp only [PresenceStore.join, Function.update_self, RoomPresence.join]
  split_ifs
  · exact hc
  · exact Finset.mem_insert_of_mem hc

/-- A registration does not undo an allocation. -/
theorem join_allocateColor_eq_self_iff {names : Finset String} {socketId : String} {entry : Entry}
    {now : ℕ} : (store.allocateColor r).2.join r names socketId entry now = store ↔
      store.Exhausted r ∧ store.join r names socketId entry now = store := by
  constructor
  · intro h
    have hexhausted : store.Exhausted r := by
      by_contra hnot
      obtain ⟨c, hnew, hc⟩ := exists_new_color hnot
      have hjoined := colors_subset_join names socketId entry now hc
      rw [h] at hjoined
      exact hnew hjoined
    rw [allocateColor_eq_self_iff.mpr hexhausted] at h
    exact ⟨hexhausted, h⟩
  · rintro ⟨hexhausted, h⟩
    rwa [allocateColor_eq_self_iff.mpr hexhausted]

theorem serveJoin_idle_iff :
    ((s.serveJoin P answers roomId username).1 = s.presence ∧
      (s.serveJoin P answers roomId username).2.filter Sent.toOthers = []) ↔
      s.StoreIdle P answers roomId username := by
  cases hname : Json.template P.rendering roomId with
  | none => simp [Site.serveJoin, Site.StoreIdle, hname]
  | some r =>
    have hidle : s.StoreIdle P answers roomId username ↔
        answers.allocateColor = .rejected ∨
          s.presence.Exhausted r ∧
            (answers.allocateColor = .lost ∨ answers.join = .rejected ∨
              (s.presence.join r (P.argument roomId) s.ctx.socketId
                  { userId := s.ctx.author, username
                    cursorColor := (s.presence.allocateColor r).1 } answers.now = s.presence ∧
                (answers.join = .lost ∨ answers.loadForJoin = none))) := by
      simp [Site.StoreIdle, hname]
    rw [hidle]
    cases ha : answers.allocateColor with
    | rejected => simp [Site.serveJoin, hname, ha, Site.joinFailed, Sent.toOthers]
    | lost =>
      simp [Site.serveJoin, hname, ha, Site.joinFailed, Sent.toOthers, allocateColor_eq_self_iff]
    | resolved =>
      cases hj : answers.join with
      | rejected =>
        simp [Site.serveJoin, hname, ha, hj, Site.joinFailed, Sent.toOthers,
          allocateColor_eq_self_iff]
      | lost =>
        simp [Site.serveJoin, hname, ha, hj, Site.joinFailed, Sent.toOthers,
          join_allocateColor_eq_self_iff]
      | resolved =>
        cases hl : answers.loadForJoin with
        | none =>
          simp [Site.serveJoin, hname, ha, hj, hl, Site.joinFailed, Sent.toOthers,
            join_allocateColor_eq_self_iff]
        | some history =>
          simp only [Site.serveJoin, hname, ha, hj, hl]
          split_ifs <;> simp [Site.joinFailed, Sent.toOthers]

/-! ## When an invalid event is ignored -/

/-- **Invalid room events.** Whatever the services answer, an invalid event leaves the connection,
the rooms, the presence, the colors and the stroke buffer as they are and tells nobody, unless it is
a join of a room the connection is not in or whose calls come through. -/
theorem invalid_untouched_iff {event : RoomEvent} (h : Invalid event data) :
    Untouched s (s.react P answers data event) ↔
      (event = .joinRoom → s.IsIn (Json.prop data "roomId") ∧
        s.StoreIdle P answers (Json.prop data "roomId") (Json.prop data "username")) := by
  have haction {action : ActionEvent} (he : (event = .draw ∧ action = .draw) ∨
      (event = .cursorMove ∧ action = .cursorMove) ∨ (event = .clear ∧ action = .clear)) :
      Untouched s ((handle action s.ctx answers.services data).foldl
        (Site.apply P answers.now) s) :=
    untouched_of_errors (isError_of_invalid he h s.ctx answers.services)
  cases event with
  | joinRoom =>
    rw [Site.react, untouched_joinRoom_iff, serveJoin_idle_iff]
    exact ⟨fun hin _ ↦ hin, fun hin ↦ hin rfl⟩
  | draw => exact iff_of_true (haction (Or.inl ⟨rfl, rfl⟩)) nofun
  | cursorMove => exact iff_of_true (haction (Or.inr (Or.inl ⟨rfl, rfl⟩))) nofun
  | clear => exact iff_of_true (haction (Or.inr (Or.inr ⟨rfl, rfl⟩))) nofun

/-- A join with an empty name. -/
private def namelessJoin : Option Json :=
  some (.obj [("roomId", .str "board-1"), ("username", .str "")])

private def plainPlatform : Platform := ⟨⟨fun _ ↦ "", fun _ ↦ ""⟩, fun _ ↦ ∅⟩

/-- A connection with this current room, with nobody present anywhere. -/
private def siteIn (current : Json) : Site where
  ctx := { socketId := "s-1", token := none, currentRoomId := some current }
  rooms := [some (.str "s-1"), some current]
  presence := ⟨fun _ ↦ ⟨fun _ ↦ none, ∅, fun _ ↦ none⟩, ∅⟩
  appended := []
  compacted := []
  sent := []

/-- Every call goes through, except that the allocation of a color ends with `outcome`. -/
private def answersWith (outcome : Presence.Outcome) : Answers where
  services := ⟨true, none, fun _ _ ↦ none⟩
  allocateColor := outcome
  join := .resolved
  loadForJoin := some { strokes := [] }
  now := 1000

/-- A member that repeats its join without a name while the store is away. -/
theorem invalid_untouched_iff_rejected : Untouched (siteIn (.str "board-1"))
    ((siteIn (.str "board-1")).react plainPlatform (answersWith .rejected) namelessJoin
      .joinRoom) := by
  have hinvalid : Invalid .joinRoom namelessJoin := Or.inr (by decide)
  have hin : (siteIn (.str "board-1")).IsIn (some (.str "board-1")) := ⟨rfl, by decide⟩
  exact (invalid_untouched_iff hinvalid).mpr fun _ ↦ ⟨hin, fun _ _ ↦ Or.inl rfl⟩

/-- A nameless join that passes the middleware in OPEN_MODE enters the room and is announced to its
members. -/
theorem nameless_join_announced :
    let s := siteIn .null
    let t := s.react plainPlatform (answersWith .resolved) namelessJoin .joinRoom
    (guard ⟨.single "" .null 0, true⟩ s.ctx 1000 ⟨.joinRoom, [namelessJoin]⟩).1.passes = true ∧
      t.ctx.currentRoomId = some (.str "board-1") ∧
      (t.sent.filter Sent.toOthers).length = 1 ∧
      ¬∀ (P : Platform) (s : Site) (answers : Answers) (event : RoomEvent) (data : Option Json),
        Invalid event data → Untouched s (s.react P answers data event) := by
  refine ⟨by decide, rfl, by decide +kernel, fun hclaim ↦ ?_⟩
  have hjoin := hclaim plainPlatform (siteIn .null) (answersWith .resolved) .joinRoom namelessJoin
    (Or.inr (by decide))
  cases hjoin.currentRoomId

end Synapse.Gateway
