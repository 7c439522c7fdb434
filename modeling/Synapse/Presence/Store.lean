import Mathlib.Data.Finset.Insert
import Mathlib.Data.Finset.Card
import Mathlib.Data.List.GetD
import Mathlib.Data.Prod.Lex
import Mathlib.Data.String.Basic
import Synapse.Domain
import Synapse.Table.Keyed

/-!
# The presence store

The Redis keys of `server/src/services/presenceService.ts` and the Lua scripts that work on them.
Redis runs one script at a time, so a script is a function on the keys; which instance asked for it
makes no difference.

Entries of the users hash are written by the service alone, as JSON of a `User`, by `JSON.stringify`
or by `cjson.encode`. So the hash holds users here, each for the entry that is read as that user
(`Entry`), and the branches for an entry that does not decode do not arise. Keys do not expire here.
-/

namespace Synapse.Presence

open Keyed

/-- Visually distinct cursor color pool. -/
def cursorColors : List String :=
  ["#f43f5e", "#3b82f6", "#22c55e", "#f59e0b", "#a855f7",
    "#06b6d4", "#ec4899", "#14b8a6", "#ef4444", "#6366f1",
    "#84cc16", "#f97316", "#8b5cf6", "#0ea5e9", "#e879f9",
    "#facc15", "#2dd4bf", "#fb923c", "#818cf8", "#34d399"]

/-- Size of the cursor color pool. -/
def colorPoolSize : ℕ := cursorColors.length

/-- A member of a last-seen set. -/
structure Seen where
  socketId : String
  /-- Epoch milliseconds. -/
  score : ℕ
  deriving DecidableEq, Repr

/-- The keys of one room. -/
structure RoomKeys where
  /-- `room:{id}:users`, the presence list. -/
  users : Table User.socketId
  /-- `room:{id}:colors`, the cursor colors in use. -/
  colors : Finset String
  /-- `room:{id}:seen`, the last-seen scores. -/
  seen : Table Seen.socketId

namespace RoomKeys

/-- The keys of a room nobody has been in. -/
def empty : RoomKeys := ⟨.empty _, ∅, .empty _⟩

variable {room : RoomKeys} {socketId : String} {user u : User} {now : ℕ} {c : String}

/-- The keys of the room in `ALLOCATE_COLOR_LUA`: the color handed out, and the room after. The
color is reserved unless the whole pool is. -/
def allocateColor (room : RoomKeys) : String × RoomKeys :=
  match cursorColors.find? fun c ↦ decide (c ∉ room.colors) with
  | some c => (c, { room with colors := insert c room.colors })
  | none => (cursorColors.getD (room.colors.card % cursorColors.length) "", room)

/-- The keys of the room in `JOIN_LUA`. -/
def join (room : RoomKeys) (user : User) (now : ℕ) : RoomKeys where
  users := room.users.put user
  colors := if user.cursorColor = "" then room.colors else insert user.cursorColor room.colors
  seen := room.seen.put ⟨user.socketId, now⟩

/-- What `LEAVE_LUA` and the loop of `SWEEP_LUA` do to a member: the entry goes, its color is
released, and the last-seen score is dropped. -/
def evict (room : RoomKeys) (socketId : String) : RoomKeys where
  users := room.users.deleteWhere fun u ↦ decide (u.socketId = socketId)
  colors :=
    match room.users.get? socketId with
    | some user => room.colors.erase user.cursorColor
    | none => room.colors
  seen := room.seen.deleteWhere fun m ↦ decide (m.socketId = socketId)

/-- `UPDATE_CURSOR_LUA`. The coordinates are the numbers that the text of `cjson.encode`, which has
14 significant digits, is read as. -/
def updateCursor (room : RoomKeys) (socketId : String) (x y : ℚ) (now : ℕ) : RoomKeys :=
  match room.users.get? socketId with
  | none => room
  | some user =>
    { room with
      users := room.users.put { user with cursor := some (x, y) }
      seen := room.seen.put ⟨socketId, now⟩ }

/-- `HEARTBEAT_LUA`. -/
def heartbeat (room : RoomKeys) (socketId : String) (now : ℕ) : RoomKeys :=
  match room.users.get? socketId with
  | none => room
  | some _ => { room with seen := room.seen.put ⟨socketId, now⟩ }

/-- The members scored at most `cutoff`, by score and then by name (`ZRANGEBYSCORE`). -/
def stale (room : RoomKeys) (cutoff : ℚ) : List String :=
  (sortByKey (fun m : Seen ↦ toLex (m.score, m.socketId))
    (room.seen.rows.filter fun m ↦ decide ((m.score : ℚ) ≤ cutoff))).map Seen.socketId

/-- The loop of `SWEEP_LUA`. -/
def reap (room : RoomKeys) (socketIds : List String) : RoomKeys := socketIds.foldl evict room

/-- Every color of the pool is reserved. -/
def Exhausted (room : RoomKeys) : Prop := ∀ c ∈ cursorColors, c ∈ room.colors

instance (room : RoomKeys) : Decidable room.Exhausted :=
  inferInstanceAs (Decidable (∀ c ∈ cursorColors, _))

/-! ## What the scripts leave in the hash and in the color set -/

theorem allocateColor_of_not_exhausted (h : ¬room.Exhausted) :
    room.allocateColor.1 ∉ room.colors ∧
      room.allocateColor.2 = { room with colors := insert room.allocateColor.1 room.colors } := by
  obtain ⟨c, hc, hunused⟩ : ∃ c ∈ cursorColors, c ∉ room.colors := by
    simpa only [Exhausted, not_forall, exists_prop] using h
  obtain ⟨d, hd⟩ : ∃ d, cursorColors.find? (fun c ↦ decide (c ∉ room.colors)) = some d :=
    Option.isSome_iff_exists.mp (List.find?_isSome.mpr ⟨c, hc, by simpa using hunused⟩)
  rw [allocateColor, hd]
  exact ⟨by simpa using List.find?_some hd, rfl⟩

theorem allocateColor_of_exhausted (h : room.Exhausted) :
    room.allocateColor.1 ∈ room.colors ∧ room.allocateColor.2 = room := by
  have hnone : cursorColors.find? (fun c ↦ decide (c ∉ room.colors)) = none :=
    List.find?_eq_none.mpr fun c hc ↦ by simpa using h c hc
  have hlt : room.colors.card % cursorColors.length < cursorColors.length :=
    Nat.mod_lt _ (by decide)
  simp only [allocateColor, hnone, and_true]
  rw [List.getD_eq_getElem _ _ hlt]
  exact h _ (List.getElem_mem hlt)

theorem mem_colors_allocateColor :
    c ∈ room.allocateColor.2.colors ↔ c = room.allocateColor.1 ∨ c ∈ room.colors := by
  by_cases h : room.Exhausted
  · obtain ⟨hmem, hroom⟩ := allocateColor_of_exhausted h
    rw [hroom]
    exact ⟨Or.inr, fun hc ↦ hc.elim (fun heq ↦ heq ▸ hmem) id⟩
  · rw [(allocateColor_of_not_exhausted h).2, Finset.mem_insert]

@[simp] theorem users_allocateColor : room.allocateColor.2.users = room.users := by
  rw [allocateColor]
  split <;> rfl

/-- The user of a socket wears a color. -/
def Wears (room : RoomKeys) (socketId c : String) : Prop :=
  ∃ u ∈ room.users, u.socketId = socketId ∧ u.cursorColor = c

theorem Wears.unique {d : String} (hc : room.Wears socketId c) (hd : room.Wears socketId d) :
    c = d := by
  obtain ⟨u, hu, hid, rfl⟩ := hc
  obtain ⟨v, hv, hid', rfl⟩ := hd
  rw [Table.eq_of_key_eq hu hv (hid.trans hid'.symm)]

theorem length_users_join (h : room.users.get? user.socketId = none) :
    (room.join user now).users.rows.length = room.users.rows.length + 1 := by
  have hfree : user.socketId ∉ room.users.rows.map User.socketId := fun hmem ↦
    let ⟨v, hv, hid⟩ := List.mem_map.mp hmem
    Table.get?_eq_none.mp h v hv hid
  rw [join, Table.put, dif_neg hfree, Table.rows_insertIgnore_of_not_mem hfree, List.length_append,
    List.length_singleton]

theorem mem_users_join : u ∈ (room.join user now).users ↔
    u = user ∨ (u ∈ room.users ∧ u.socketId ≠ user.socketId) := Table.mem_put

theorem wears_join : (room.join user now).Wears socketId c ↔
    (socketId = user.socketId ∧ c = user.cursorColor) ∨
      (socketId ≠ user.socketId ∧ room.Wears socketId c) := by
  constructor
  · rintro ⟨u, hu, rfl, rfl⟩
    rcases mem_users_join.mp hu with rfl | ⟨hu, hne⟩
    · exact Or.inl ⟨rfl, rfl⟩
    · exact Or.inr ⟨hne, u, hu, rfl, rfl⟩
  · rintro (⟨rfl, rfl⟩ | ⟨hne, u, hu, rfl, rfl⟩)
    · exact ⟨user, mem_users_join.mpr (Or.inl rfl), rfl, rfl⟩
    · exact ⟨u, mem_users_join.mpr (Or.inr ⟨hu, hne⟩), rfl, rfl⟩

theorem mem_users_evict :
    u ∈ (room.evict socketId).users ↔ u ∈ room.users ∧ u.socketId ≠ socketId := by
  rw [evict, Table.mem_deleteWhere, decide_eq_false_iff_not]

theorem mem_colors_evict :
    c ∈ (room.evict socketId).colors ↔ c ∈ room.colors ∧ ¬room.Wears socketId c := by
  cases hget : room.users.get? socketId with
  | none =>
    have hno := Table.get?_eq_none.mp hget
    simp only [evict, hget]
    exact ⟨fun hc ↦ ⟨hc, fun ⟨u, hu, hid, _⟩ ↦ hno u hu hid⟩, And.left⟩
  | some user =>
    obtain ⟨huser, hid⟩ := Table.get?_eq_some.mp hget
    have hwears : room.Wears socketId user.cursorColor := ⟨user, huser, hid, rfl⟩
    simp only [evict, hget, Finset.mem_erase]
    exact ⟨fun ⟨hne, hc⟩ ↦ ⟨hc, fun hw ↦ hne (hw.unique hwears)⟩,
      fun ⟨hc, hw⟩ ↦ ⟨fun heq ↦ hw (heq ▸ hwears), hc⟩⟩

theorem wears_evict {id : String} :
    (room.evict id).Wears socketId c ↔ socketId ≠ id ∧ room.Wears socketId c := by
  constructor
  · rintro ⟨u, hu, rfl, rfl⟩
    obtain ⟨hu, hne⟩ := mem_users_evict.mp hu
    exact ⟨hne, u, hu, rfl, rfl⟩
  · rintro ⟨hne, u, hu, rfl, rfl⟩
    exact ⟨u, mem_users_evict.mpr ⟨hu, hne⟩, rfl, rfl⟩

theorem mem_users_reap {ids : List String} :
    u ∈ (room.reap ids).users ↔ u ∈ room.users ∧ u.socketId ∉ ids := by
  induction ids generalizing room with
  | nil => simp [reap]
  | cons id ids ih =>
    have hcons : room.reap (id :: ids) = (room.evict id).reap ids := rfl
    rw [hcons, ih, mem_users_evict, List.mem_cons, not_or, and_assoc]

theorem wears_reap {ids : List String} :
    (room.reap ids).Wears socketId c ↔ socketId ∉ ids ∧ room.Wears socketId c := by
  constructor
  · rintro ⟨u, hu, rfl, rfl⟩
    obtain ⟨hu, hids⟩ := mem_users_reap.mp hu
    exact ⟨hids, u, hu, rfl, rfl⟩
  · rintro ⟨hids, u, hu, rfl, rfl⟩
    exact ⟨u, mem_users_reap.mpr ⟨hu, hids⟩, rfl, rfl⟩

theorem mem_colors_reap {ids : List String} : c ∈ (room.reap ids).colors ↔
    c ∈ room.colors ∧ ∀ id ∈ ids, ¬room.Wears id c := by
  induction ids generalizing room with
  | nil => simp [reap]
  | cons id ids ih =>
    have hcons : room.reap (id :: ids) = (room.evict id).reap ids := rfl
    rw [hcons, ih, mem_colors_evict, and_assoc, List.forall_mem_cons]
    refine and_congr_right fun _ ↦ and_congr_right fun hid ↦ ?_
    -- a second eviction of the same member finds nothing to release
    refine forall₂_congr fun id' _ ↦ not_congr (wears_evict.trans ?_)
    exact ⟨And.right, fun hw ↦ ⟨fun heq ↦ hid (heq ▸ hw), hw⟩⟩

theorem wears_updateCursor {x y : ℚ} {id : String} :
    (room.updateCursor id x y now).Wears socketId c ↔ room.Wears socketId c := by
  cases hget : room.users.get? id with
  | none => simp only [updateCursor, hget]
  | some user =>
    obtain ⟨huser, hid⟩ := Table.get?_eq_some.mp hget
    have hput : (room.updateCursor id x y now).Wears socketId c ↔
        (room.join { user with cursor := some (x, y) } now).Wears socketId c := by
      simp only [updateCursor, hget, Wears, join]
    rw [hput, wears_join]
    constructor
    · rintro (⟨rfl, rfl⟩ | ⟨-, hw⟩)
      · exact ⟨user, huser, rfl, rfl⟩
      · exact hw
    · intro hw
      by_cases heq : socketId = user.socketId
      · exact Or.inl ⟨heq, hw.unique ⟨user, huser, heq.symm, rfl⟩⟩
      · exact Or.inr ⟨heq, hw⟩

@[simp] theorem colors_updateCursor {x y : ℚ} :
    (room.updateCursor socketId x y now).colors = room.colors := by
  rw [updateCursor]
  split <;> rfl

@[simp] theorem users_heartbeat : (room.heartbeat socketId now).users = room.users := by
  rw [heartbeat]
  split <;> rfl

@[simp] theorem colors_heartbeat : (room.heartbeat socketId now).colors = room.colors := by
  rw [heartbeat]
  split <;> rfl

end RoomKeys

/-! ## The keyspace -/

/-- The keys of every room and `presence:rooms`, the rooms that hold presence. -/
structure Keyspace where
  room : String → RoomKeys
  rooms : Finset String

/-- Outcome of sweeping a single room for stale presence entries. -/
structure PresenceSweepResult where
  roomId : String
  /-- The members removed as stale. -/
  expired : List String
  /-- The remaining member list. -/
  members : List User

namespace Keyspace

/-- Nobody has been anywhere. -/
def empty : Keyspace := ⟨fun _ ↦ .empty, ∅⟩

variable {k : Keyspace} {r roomId : String}

/-- Writes the keys of one room. -/
def setRoom (k : Keyspace) (roomId : String) (room : RoomKeys) : Keyspace :=
  { k with room := Function.update k.room roomId room }

/-- The end of `LEAVE_LUA` and of `SWEEP_LUA`: a room without members is taken off
`presence:rooms`. -/
def deregister (k : Keyspace) (roomId : String) : Keyspace :=
  if (k.room roomId).users.rows.isEmpty then { k with rooms := k.rooms.erase roomId } else k

/-- `PresenceService.allocateColor`. -/
def allocateColor (k : Keyspace) (roomId : String) : String × Keyspace :=
  ((k.room roomId).allocateColor.1, k.setRoom roomId (k.room roomId).allocateColor.2)

/-- `PresenceService.list`. -/
def list (k : Keyspace) (roomId : String) : List User := (k.room roomId).users.rows

/-- `PresenceService.join`, with the updated member list it returns. -/
def join (k : Keyspace) (roomId : String) (user : User) (now : ℕ) : List User × Keyspace :=
  let k' := k.setRoom roomId ((k.room roomId).join user now)
  (k'.list roomId, { k' with rooms := insert roomId k.rooms })

/-- `PresenceService.leave`. -/
def leave (k : Keyspace) (roomId socketId : String) : List User × Keyspace :=
  let k' := k.setRoom roomId ((k.room roomId).evict socketId)
  (k'.list roomId, k'.deregister roomId)

/-- `PresenceService.updateCursor`. -/
def updateCursor (k : Keyspace) (roomId socketId : String) (x y : ℚ) (now : ℕ) : Keyspace :=
  k.setRoom roomId ((k.room roomId).updateCursor socketId x y now)

/-- `PresenceService.heartbeat`, with whether the member was present. -/
def heartbeat (k : Keyspace) (roomId socketId : String) (now : ℕ) : Bool × Keyspace :=
  (((k.room roomId).users.get? socketId).isSome,
    k.setRoom roomId ((k.room roomId).heartbeat socketId now))

/-- `PresenceService.sweepRoom` for the cutoff it computes from the time and the time-to-live. -/
def sweepRoom (k : Keyspace) (roomId : String) (cutoff : ℚ) : PresenceSweepResult × Keyspace :=
  let stale := (k.room roomId).stale cutoff
  let k' := k.setRoom roomId ((k.room roomId).reap stale)
  (⟨roomId, stale, k'.list roomId⟩, k'.deregister roomId)

theorem room_setRoom {room : RoomKeys} :
    (k.setRoom roomId room).room r = if r = roomId then room else k.room r :=
  Function.update_apply _ _ _ _

@[simp] theorem room_setRoom_self {room : RoomKeys} :
    (k.setRoom roomId room).room roomId = room := Function.update_self _ _ _

theorem room_allocateColor : (k.allocateColor roomId).2.room r
    = if r = roomId then (k.room roomId).allocateColor.2 else k.room r := room_setRoom

theorem room_join {user : User} {now : ℕ} : (k.join roomId user now).2.room r
    = if r = roomId then (k.room roomId).join user now else k.room r := room_setRoom

@[simp] theorem room_deregister : (k.deregister roomId).room = k.room := by
  rw [deregister]
  split <;> rfl

theorem room_leave {socketId : String} : (k.leave roomId socketId).2.room r
    = if r = roomId then (k.room roomId).reap [socketId] else k.room r := by
  rw [leave, room_deregister]
  exact room_setRoom

theorem room_sweepRoom {cutoff : ℚ} : (k.sweepRoom roomId cutoff).2.room r
    = if r = roomId then (k.room roomId).reap ((k.room roomId).stale cutoff) else k.room r := by
  rw [sweepRoom, room_deregister]
  exact room_setRoom

theorem room_updateCursor {socketId : String} {x y : ℚ} {now : ℕ} :
    (k.updateCursor roomId socketId x y now).room r
      = if r = roomId then (k.room roomId).updateCursor socketId x y now else k.room r :=
  room_setRoom

theorem room_heartbeat {socketId : String} {now : ℕ} :
    (k.heartbeat roomId socketId now).2.room r
      = if r = roomId then (k.room roomId).heartbeat socketId now else k.room r :=
  room_setRoom

end Keyspace

end Synapse.Presence
