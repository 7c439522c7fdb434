import Synapse.Presence.Service
import Synapse.Wire.JsonText

/-!
# The indexes of presence

A member of a room is recorded three times: in the users hash, in the last-seen set, and, through
its room, in `presence:rooms`. Each script edits the records it must, and the guarded ones do
nothing for a member that is not there. This file runs the scripts in any order, on any rooms, and
shows that the records agree, that a last-seen score is the time of the member's latest sign of
life, and that a sweep removes and reports exactly what its cutoff says.

## One room at a time

Apart from `presence:rooms`, a script works on the keys of one room, so the invariant
(`RoomKeys.Indexed`) is a statement about one room and the history of that room.
-/

namespace Synapse.Presence

open Keyed

/-! ## Running the scripts -/

/-- The room a call is about. -/
def Call.roomId : Call → String
  | allocateColor roomId _ | join roomId _ _ | leave roomId _ | updateCursor roomId _ _ _ _
  | heartbeat roomId _ _ | sweepRoom roomId _ => roomId

/-- The member of the room a call speaks for, and when. -/
def Call.sign : Call → Option (String × ℕ)
  | join _ user now => some (user.socketId, now)
  | updateCursor _ socketId _ _ now | heartbeat _ socketId now => some (socketId, now)
  | allocateColor _ _ | leave _ _ | sweepRoom _ _ => none

/-- The time of a call, if it is a sign of life of a member. -/
def Call.signBy (c : Call) (socketId : String) : Option ℕ :=
  (c.sign.filter fun s ↦ s.1 = socketId).map Prod.snd

/-- The time of a call, if it is a sign of life of a member of a room. -/
def Call.signOf (r socketId : String) (c : Call) : Option ℕ :=
  if c.roomId = r then c.signBy socketId else none

/-- The time of the latest join, cursor update or heartbeat of a member among some calls. -/
def latest (calls : List Call) (r socketId : String) : Option ℕ :=
  (calls.filterMap (Call.signOf r socketId)).getLast?

/-- What a call does to the keys of its room. -/
def RoomKeys.apply (room : RoomKeys) : Call → RoomKeys
  | .allocateColor _ _ => room.allocateColor.2
  | .join _ user now => room.join user now
  | .leave _ socketId => room.reap [socketId]
  | .updateCursor _ socketId x y now => room.updateCursor socketId x y now
  | .heartbeat _ socketId now => room.heartbeat socketId now
  | .sweepRoom _ cutoff => room.reap (room.stale cutoff)

namespace Keyspace

/-- What a call does to the keys. -/
def apply (k : Keyspace) : Call → Keyspace
  | .allocateColor roomId _ => (k.allocateColor roomId).2
  | .join roomId user now => (k.join roomId user now).2
  | .leave roomId socketId => (k.leave roomId socketId).2
  | .updateCursor roomId socketId x y now => k.updateCursor roomId socketId x y now
  | .heartbeat roomId socketId now => (k.heartbeat roomId socketId now).2
  | .sweepRoom roomId cutoff => (k.sweepRoom roomId cutoff).2

/-- The keys after some calls, from an empty Redis. -/
def after (calls : List Call) : Keyspace := calls.foldl apply empty

theorem after_concat (calls : List Call) (c : Call) :
    after (calls ++ [c]) = (after calls).apply c := by
  rw [after, List.foldl_append]
  rfl

theorem room_apply (k : Keyspace) (c : Call) (r : String) :
    (k.apply c).room r = if r = c.roomId then (k.room r).apply c else k.room r := by
  have hroom : (k.apply c).room r
      = if r = c.roomId then (k.room c.roomId).apply c else k.room r := by
    cases c with
    | allocateColor => exact room_allocateColor
    | join => exact room_join
    | leave => exact room_leave
    | updateCursor => exact room_updateCursor
    | heartbeat => exact room_heartbeat
    | sweepRoom => exact room_sweepRoom
  rw [hroom]
  split_ifs with h
  · rw [h]
  · rfl

end Keyspace

/-! ## Members and their scores -/

namespace RoomKeys

variable {room : RoomKeys} {socketId id : String} {user : User} {m : Seen} {now : ℕ} {cutoff : ℚ}

/-- The socket has an entry in the users hash. -/
def Present (room : RoomKeys) (socketId : String) : Prop :=
  ∃ u ∈ room.users, u.socketId = socketId

theorem users_ne_nil : room.users.rows ≠ [] ↔ ∃ id, room.Present id := by
  constructor
  · intro h
    obtain ⟨u, hu⟩ := List.exists_mem_of_ne_nil _ h
    exact ⟨u.socketId, u, Table.mem_rows.mp hu, rfl⟩
  · rintro ⟨_, u, hu, -⟩
    exact List.ne_nil_of_mem (Table.mem_rows.mpr hu)

theorem present_iff_get? : room.Present socketId ↔ room.users.get? socketId ≠ none := by
  constructor
  · rintro ⟨u, hu, hid⟩ hnone
    exact Table.get?_eq_none.mp hnone u hu hid
  · intro h
    obtain ⟨u, hu⟩ := Option.ne_none_iff_exists'.mp h
    exact ⟨u, Table.get?_eq_some.mp hu⟩

theorem present_iff_wears : room.Present id ↔ ∃ c, room.Wears id c := by
  constructor
  · rintro ⟨u, hu, hid⟩
    exact ⟨u.cursorColor, u, hu, hid, rfl⟩
  · rintro ⟨c, u, hu, hid, -⟩
    exact ⟨u, hu, hid⟩

theorem present_join : (room.join user now).Present id ↔ id = user.socketId ∨ room.Present id := by
  simp only [present_iff_wears, wears_join]
  constructor
  · rintro ⟨c, ⟨hid, -⟩ | ⟨-, hw⟩⟩
    · exact Or.inl hid
    · exact Or.inr ⟨c, hw⟩
  · intro h
    by_cases hid : id = user.socketId
    · exact ⟨user.cursorColor, Or.inl ⟨hid, rfl⟩⟩
    · obtain ⟨c, hw⟩ := h.resolve_left hid
      exact ⟨c, Or.inr ⟨hid, hw⟩⟩

theorem present_reap {ids : List String} :
    (room.reap ids).Present id ↔ room.Present id ∧ id ∉ ids := by
  simp only [present_iff_wears, wears_reap, exists_and_left, and_comm]

theorem present_updateCursor {x y : ℚ} :
    (room.updateCursor socketId x y now).Present id ↔ room.Present id := by
  simp only [present_iff_wears, wears_updateCursor]

theorem present_heartbeat : (room.heartbeat socketId now).Present id ↔ room.Present id := by
  rw [Present, users_heartbeat]
  rfl

@[simp] theorem seen_allocateColor : room.allocateColor.2.seen = room.seen := by
  rw [allocateColor]
  split <;> rfl

theorem mem_seen_heartbeat (h : room.Present socketId) : m ∈ (room.heartbeat socketId now).seen ↔
    m = ⟨socketId, now⟩ ∨ (m ∈ room.seen ∧ m.socketId ≠ socketId) := by
  obtain ⟨user, huser⟩ := Option.ne_none_iff_exists'.mp (present_iff_get?.mp h)
  simp only [heartbeat, huser]
  exact Table.mem_put

theorem heartbeat_of_not_present (h : ¬ room.Present socketId) :
    room.heartbeat socketId now = room := by
  have hnone : room.users.get? socketId = none := by
    by_contra hne
    exact h (present_iff_get?.mpr hne)
  simp only [heartbeat, hnone]

theorem seen_updateCursor {x y : ℚ} :
    (room.updateCursor socketId x y now).seen = (room.heartbeat socketId now).seen := by
  cases h : room.users.get? socketId with
  | none => simp only [updateCursor, heartbeat, h]
  | some user => simp only [updateCursor, heartbeat, h]

theorem mem_seen_reap {ids : List String} :
    m ∈ (room.reap ids).seen ↔ m ∈ room.seen ∧ m.socketId ∉ ids := by
  induction ids generalizing room with
  | nil => simp [reap]
  | cons id ids ih =>
    have hcons : room.reap (id :: ids) = (room.evict id).reap ids := rfl
    rw [hcons, ih, evict, Table.mem_deleteWhere, decide_eq_false_iff_not, List.mem_cons, not_or,
      and_assoc]

theorem mem_stale : id ∈ room.stale cutoff ↔
    ∃ m ∈ room.seen, m.socketId = id ∧ (m.score : ℚ) ≤ cutoff := by
  rw [stale, List.mem_map]
  simp only [mem_sortByKey, List.mem_filter, decide_eq_true_iff]
  constructor
  · rintro ⟨m, ⟨hm, hle⟩, rfl⟩
    exact ⟨m, Table.mem_rows.mp hm, rfl, hle⟩
  · rintro ⟨m, hm, rfl, hle⟩
    exact ⟨m, ⟨Table.mem_rows.mpr hm, hle⟩, rfl⟩

theorem nodup_stale : (room.stale cutoff).Nodup := by
  rw [stale, ((sortByKey_perm _).map Seen.socketId).nodup_iff]
  exact (List.filter_sublist.map _).nodup room.seen.nodup_keys

/-! ## The invariant of a room -/

/-- The last-seen set lists the members, each with the time of the member's latest sign of life. -/
structure Indexed (room : RoomKeys) (latest : String → Option ℕ) : Prop where
  listed : ∀ id, room.Present id ↔ ∃ m ∈ room.seen, m.socketId = id
  scored : ∀ m ∈ room.seen, latest m.socketId = some m.score

theorem Indexed.of_empty (latest : String → Option ℕ) : Indexed .empty latest := by
  refine ⟨fun id ↦ ?_, fun m hm ↦ ?_⟩
  · exact iff_of_false (fun ⟨u, hu, _⟩ ↦ List.not_mem_nil hu) fun ⟨m, hm, _⟩ ↦ List.not_mem_nil hm
  · exact (List.not_mem_nil hm).elim

variable {l l' : String → Option ℕ} {room' : RoomKeys}

/-- Members go from the hash and from the last-seen set together. -/
theorem Indexed.reap (h : Indexed room l) (ids : List String) : Indexed (room.reap ids) l := by
  refine ⟨fun id ↦ ?_, fun m hm ↦ h.scored m (mem_seen_reap.mp hm).1⟩
  rw [present_reap, h.listed]
  constructor
  · rintro ⟨⟨m, hm, rfl⟩, hid⟩
    exact ⟨m, mem_seen_reap.mpr ⟨hm, hid⟩, rfl⟩
  · rintro ⟨m, hm, rfl⟩
    obtain ⟨hm, hid⟩ := mem_seen_reap.mp hm
    exact ⟨⟨m, hm, rfl⟩, hid⟩

theorem Indexed.mark (h : Indexed room l)
    (hpresent : ∀ id, room'.Present id ↔ id = socketId ∨ room.Present id)
    (hseen : ∀ m, m ∈ room'.seen ↔ m = ⟨socketId, now⟩ ∨ (m ∈ room.seen ∧ m.socketId ≠ socketId))
    (hself : l' socketId = some now) (hother : ∀ id, id ≠ socketId → l' id = l id) :
    Indexed room' l' := by
  refine ⟨fun id ↦ ?_, fun m hm ↦ ?_⟩
  · rw [hpresent, h.listed]
    constructor
    · intro hid
      by_cases heq : id = socketId
      · exact ⟨⟨socketId, now⟩, (hseen _).mpr (Or.inl rfl), heq.symm⟩
      · obtain ⟨m, hm, rfl⟩ := hid.resolve_left heq
        exact ⟨m, (hseen m).mpr (Or.inr ⟨hm, heq⟩), rfl⟩
    · rintro ⟨m, hm, rfl⟩
      rcases (hseen m).mp hm with rfl | ⟨hm, -⟩
      · exact Or.inl rfl
      · exact Or.inr ⟨m, hm, rfl⟩
  · rcases (hseen m).mp hm with rfl | ⟨hm, hne⟩
    · exact hself
    · rw [hother _ hne]
      exact h.scored m hm

theorem Indexed.absent (h : Indexed room l) (hid : ¬ room.Present socketId)
    (hother : ∀ id, id ≠ socketId → l' id = l id) : Indexed room l' := by
  refine ⟨h.listed, fun m hm ↦ ?_⟩
  have hne : m.socketId ≠ socketId := by
    rintro rfl
    exact hid ((h.listed _).mpr ⟨m, hm, rfl⟩)
  rw [hother _ hne]
  exact h.scored m hm

theorem Indexed.heartbeat (h : Indexed room l) (hself : l' socketId = some now)
    (hother : ∀ id, id ≠ socketId → l' id = l id) :
    Indexed (room.heartbeat socketId now) l' := by
  by_cases hid : room.Present socketId
  · refine h.mark (fun id ↦ ?_) (fun m ↦ mem_seen_heartbeat hid) hself hother
    rw [present_heartbeat]
    exact ⟨Or.inr, fun h ↦ h.elim (fun heq ↦ heq ▸ hid) fun h ↦ h⟩
  · rw [heartbeat_of_not_present hid]
    exact h.absent hid hother

/-- **Every script keeps the records of its room in step.** -/
theorem Indexed.apply (h : Indexed room l) (c : Call) :
    Indexed (room.apply c) fun id ↦ (c.signBy id).or (l id) := by
  have hself : ∀ socketId now, c.sign = some (socketId, now) →
      (c.signBy socketId).or (l socketId) = some now := by
    intro socketId now hsign
    simp [Call.signBy, hsign, Option.filter]
  have hother : ∀ socketId now, c.sign = some (socketId, now) → ∀ id, id ≠ socketId →
      (c.signBy id).or (l id) = l id := by
    intro socketId now hsign id hid
    have hne : ¬ socketId = id := Ne.symm hid
    simp [Call.signBy, hsign, Option.filter, hne]
  cases c with
  | allocateColor =>
    refine ⟨fun id ↦ ?_, fun m hm ↦ ?_⟩
    · rw [RoomKeys.apply, Present, users_allocateColor, seen_allocateColor]
      exact h.listed id
    · rw [RoomKeys.apply, seen_allocateColor] at hm
      exact h.scored m hm
  | join _ user now =>
    exact h.mark (fun id ↦ present_join) (fun m ↦ Table.mem_put) (hself _ _ rfl) (hother _ _ rfl)
  | leave _ socketId => exact h.reap [socketId]
  | updateCursor _ socketId x y now =>
    have hbeat := h.heartbeat (hself socketId now rfl) (hother socketId now rfl)
    refine ⟨fun id ↦ ?_, fun m hm ↦ hbeat.scored m (seen_updateCursor ▸ hm)⟩
    rw [RoomKeys.apply, present_updateCursor, seen_updateCursor, ← hbeat.listed,
      present_heartbeat]
  | heartbeat _ socketId now => exact h.heartbeat (hself _ _ rfl) (hother _ _ rfl)
  | sweepRoom _ cutoff => exact h.reap _

end RoomKeys

/-! ## Who is present after a script -/

namespace Keyspace

variable {k : Keyspace} {r roomId socketId id : String} {user : User} {now : ℕ}

theorem present_allocateColor :
    ((k.allocateColor roomId).2.room r).Present id ↔ (k.room r).Present id := by
  rw [room_allocateColor]
  split_ifs with hr
  · rw [RoomKeys.Present, RoomKeys.users_allocateColor, hr]
    rfl
  · rfl

theorem present_join : ((k.join roomId user now).2.room r).Present id ↔
    (r = roomId ∧ id = user.socketId) ∨ (k.room r).Present id := by
  rw [room_join]
  split_ifs with hr
  · rw [RoomKeys.present_join, hr, eq_self, true_and]
  · exact (or_iff_right fun h ↦ hr h.1).symm

theorem present_leave : ((k.leave roomId socketId).2.room r).Present id ↔
    (k.room r).Present id ∧ ¬ (r = roomId ∧ id = socketId) := by
  rw [room_leave]
  split_ifs with hr
  · rw [RoomKeys.present_reap, List.mem_singleton, hr, eq_self, true_and]
  · exact (and_iff_left fun h ↦ hr h.1).symm

theorem present_updateCursor {x y : ℚ} :
    ((k.updateCursor roomId socketId x y now).room r).Present id ↔ (k.room r).Present id := by
  rw [room_updateCursor]
  split_ifs with hr
  · rw [RoomKeys.present_updateCursor, hr]
  · rfl

theorem present_heartbeat :
    ((k.heartbeat roomId socketId now).2.room r).Present id ↔ (k.room r).Present id := by
  rw [room_heartbeat]
  split_ifs with hr
  · rw [RoomKeys.present_heartbeat, hr]
  · rfl

theorem present_of_sweepRoom {cutoff : ℚ} (h : ((k.sweepRoom roomId cutoff).2.room r).Present id) :
    (k.room r).Present id := by
  rw [room_sweepRoom] at h
  split_ifs at h with hr
  · rw [hr]
    exact (RoomKeys.present_reap.mp h).1
  · exact h

/-! ## The rooms that hold presence -/

/-- `presence:rooms` lists the rooms with members. -/
def Registered (k : Keyspace) : Prop := ∀ r, r ∈ k.rooms ↔ (k.room r).users.rows ≠ []

theorem mem_rooms_deregister : r ∈ (k.deregister roomId).rooms ↔
    r ∈ k.rooms ∧ (r = roomId → (k.room r).users.rows ≠ []) := by
  rw [deregister]
  by_cases hempty : (k.room roomId).users.rows = []
  · rw [if_pos (by simp [hempty]), Finset.mem_erase, and_comm, and_congr_right_iff]
    rintro -
    constructor
    · exact fun hne heq ↦ absurd heq hne
    · rintro h rfl
      exact h rfl hempty
  · rw [if_neg (by simpa using hempty)]
    exact ⟨fun h ↦ ⟨h, fun heq ↦ heq ▸ hempty⟩, And.left⟩

theorem registered_empty : Registered empty := fun _ ↦
  iff_of_false (Finset.notMem_empty _) fun h ↦ h rfl

/-- A call that leaves the members of every room, and the list of rooms, as they are. -/
theorem Registered.of_present {k' : Keyspace} (h : k.Registered) (hrooms : k'.rooms = k.rooms)
    (hpresent : ∀ r id, (k'.room r).Present id ↔ (k.room r).Present id) : k'.Registered := by
  intro r
  rw [hrooms, h r, RoomKeys.users_ne_nil, RoomKeys.users_ne_nil]
  simp only [hpresent]

theorem Registered.deregister {room : RoomKeys} (h : k.Registered)
    (hsub : ∀ u ∈ room.users, u ∈ (k.room roomId).users) :
    ((k.setRoom roomId room).deregister roomId).Registered := by
  intro r
  rw [mem_rooms_deregister, room_deregister, room_setRoom]
  have hrooms : (k.setRoom roomId room).rooms = k.rooms := rfl
  rw [hrooms, h r]
  by_cases hr : r = roomId
  · subst hr
    rw [if_pos rfl]
    refine ⟨fun hmem ↦ hmem.2 rfl, fun hne ↦ ⟨?_, fun _ ↦ hne⟩⟩
    obtain ⟨u, hu⟩ := List.exists_mem_of_ne_nil _ hne
    exact List.ne_nil_of_mem (hsub u hu)
  · rw [if_neg hr]
    exact and_iff_left fun heq ↦ absurd heq hr

theorem Registered.apply (h : k.Registered) (c : Call) : (k.apply c).Registered := by
  cases c with
  | allocateColor roomId socketId => exact h.of_present rfl fun r id ↦ present_allocateColor
  | join roomId user now =>
    intro r
    have hrooms : r ∈ (k.apply (.join roomId user now)).rooms ↔ r = roomId ∨ r ∈ k.rooms :=
      Finset.mem_insert
    rw [hrooms, h r, RoomKeys.users_ne_nil, RoomKeys.users_ne_nil, room_apply]
    split_ifs with hr
    · exact iff_of_true (Or.inl hr) ⟨user.socketId, RoomKeys.present_join.mpr (Or.inl rfl)⟩
    · exact or_iff_right hr
  | leave roomId socketId => exact h.deregister fun u hu ↦ (RoomKeys.mem_users_evict.mp hu).1
  | updateCursor roomId socketId x y now => exact h.of_present rfl fun r id ↦ present_updateCursor
  | heartbeat roomId socketId now => exact h.of_present rfl fun r id ↦ present_heartbeat
  | sweepRoom roomId cutoff => exact h.deregister fun u hu ↦ (RoomKeys.mem_users_reap.mp hu).1

end Keyspace

/-! ## What a sweep replies -/

/-- A reply of Redis to a script. -/
inductive Reply
  | nil
  | integer (n : ℤ)
  | bulk (value : String)
  | array (items : List Reply)

/-- The items of an array reply. -/
def Reply.items : Reply → List Reply
  | array items => items
  | _ => []

/-- The text of a string reply. -/
def Reply.text : Reply → Option String
  | bulk value => some value
  | _ => none

/-- A user as `joinRoom.ts` writes it. -/
def userJson (user : User) : Json :=
  .obj [("socketId", .str user.socketId), ("userId", .str user.userId),
    ("username", .str user.username), ("cursorColor", .str user.cursorColor),
    ("cursor",
      match user.cursor with
      | none => .null
      | some (x, y) => .obj [("x", .num (.finite x)), ("y", .num (.finite y))])]

/-- A property that is a string. -/
def stringProp (v : Json) (key : String) : Option String :=
  match Json.prop (some v) key with
  | some (.str s) => some s
  | _ => none

/-- The property `cursor`: absent, or a position. -/
def cursorProp (v : Json) : Option (Option (ℚ × ℚ)) :=
  match Json.prop (some v) "cursor" with
  | some .null => some none
  | cursor =>
    match Json.prop cursor "x", Json.prop cursor "y" with
    | some (.num (.finite x)), some (.num (.finite y)) => some (some (x, y))
    | _, _ => none

/-- The user that a parsed entry is, if it is well formed: the order of its properties makes no
difference. -/
def userOf (v : Json) : Option User := do
  let socketId ← stringProp v "socketId"
  let userId ← stringProp v "userId"
  let username ← stringProp v "username"
  let cursorColor ← stringProp v "cursorColor"
  let cursor ← cursorProp v
  return { socketId, userId, username, cursorColor, cursor }

/-- A well-formed entry of the users hash: a text that `JSON.parse` reads as the user. It is what
`JSON.stringify` wrote at the join, or what `cjson.encode` wrote at a cursor update. -/
def Entry (text : String) (user : User) : Prop := (Json.parse text).bind userOf = some user

instance (text : String) (user : User) : Decidable (Entry text user) :=
  inferInstanceAs (Decidable (_ = _))

theorem userOf_userJson (user : User) : userOf (userJson user) = some user := by
  obtain ⟨socketId, userId, username, cursorColor, cursor⟩ := user
  cases cursor with
  | none => rfl
  | some xy => rfl

theorem entry_stringify {R : Json.Rendering} {user : User}
    (h : JsonText.Readable R (userJson user)) : Entry (Json.stringify R (userJson user)) user := by
  rw [Entry, Json.parse_stringify h]
  exact userOf_userJson user

/-- A user who has just joined has no cursor, so how numbers are written makes no difference. -/
theorem readable_of_joined (R : Json.Rendering) {user : User} (h : user.cursor = none) :
    JsonText.Readable R (userJson user) := by
  have hnodup : ["socketId", "userId", "username", "cursorColor", "cursor"].Nodup := by decide
  rw [userJson, h]
  refine .obj hnodup ?_
  simp only [List.forall_mem_cons, List.not_mem_nil, false_imp_iff, implies_true, and_true]
  exact ⟨.str _, .str _, .str _, .str _, .null⟩

/-- Parses the reply of HVALS, skipping malformed entries. The cast to `User` checks nothing. -/
def parseUsers (raw : Reply) : List Json := (raw.items.filterMap Reply.text).filterMap Json.parse

/-- A `PresenceSweepResult` as it is parsed. -/
structure ParsedSweep where
  roomId : String
  expired : List String
  members : List Json

/-- Parses the reply of `SWEEP_LUA`, the reaped ids and the remaining entries. -/
def parseSweepResult (roomId : String) (raw : Reply) : ParsedSweep where
  roomId
  expired := ((raw.items.getD 0 .nil).items).filterMap Reply.text
  members := parseUsers (raw.items.getD 1 .nil)

theorem filterMap_text_bulk (texts : List String) :
    (texts.map Reply.bulk).filterMap Reply.text = texts := by
  rw [List.filterMap_map]
  exact List.filterMap_some

theorem userOf_parseUsers {texts : List String} {users : List User}
    (h : List.Forall₂ Entry texts users) :
    (parseUsers (.array (texts.map .bulk))).map userOf = users.map some := by
  rw [parseUsers, Reply.items, filterMap_text_bulk]
  induction h with
  | nil => rfl
  | cons hentry _ ih =>
    obtain ⟨v, hv, huser⟩ := Option.bind_eq_some_iff.mp hentry
    rw [List.filterMap_cons_some hv, List.map_cons, List.map_cons, huser, ih]

/-! ## Every run -/

theorem getLast?_filterMap_concat {α β : Type*} (f : α → Option β) (l : List α) (x : α) :
    ((l ++ [x]).filterMap f).getLast? = (f x).or (l.filterMap f).getLast? := by
  rw [List.filterMap_append, List.getLast?_append]
  cases h : f x with
  | none => rw [List.filterMap_cons_none h, List.filterMap_nil, List.getLast?_nil]
  | some y => rw [List.filterMap_cons_some h, List.filterMap_nil, List.getLast?_singleton]

theorem latest_concat (calls : List Call) (c : Call) (r socketId : String) :
    latest (calls ++ [c]) r socketId
      = if c.roomId = r then (c.signBy socketId).or (latest calls r socketId)
        else latest calls r socketId := by
  rw [latest, getLast?_filterMap_concat, Call.signOf]
  split_ifs <;> rfl

/-- After any run, the records of every room agree and `presence:rooms` lists the rooms with
members. -/
theorem indexed_after (calls : List Call) : (Keyspace.after calls).Registered ∧
    ∀ r, ((Keyspace.after calls).room r).Indexed (latest calls r) := by
  induction calls using List.reverseRecOn with
  | nil => exact ⟨Keyspace.registered_empty, fun r ↦ .of_empty _⟩
  | append_singleton calls c ih =>
    rw [Keyspace.after_concat]
    refine ⟨ih.1.apply c, fun r ↦ ?_⟩
    rw [Keyspace.room_apply]
    by_cases hr : r = c.roomId
    · have hlatest : latest (calls ++ [c]) r = fun id ↦ (c.signBy id).or (latest calls r id) := by
        funext id
        rw [latest_concat, if_pos hr.symm]
      rw [if_pos hr, hlatest]
      exact (ih.2 r).apply c
    · have hlatest : latest (calls ++ [c]) r = latest calls r := by
        funext id
        rw [latest_concat, if_neg (Ne.symm hr)]
      rw [if_neg hr, hlatest]
      exact ih.2 r

namespace Keyspace

/-- The member's last-seen score is at most the cutoff. -/
def Stale (k : Keyspace) (r socketId : String) (cutoff : ℚ) : Prop :=
  ∃ m ∈ (k.room r).seen, m.socketId = socketId ∧ (m.score : ℚ) ≤ cutoff

/-- A reply of Redis to the sweep: the ids of the stale members, and the well-formed entries of the
members left, in the order the hash has them. -/
def SweepReply (k : Keyspace) (r : String) (cutoff : ℚ) (raw : Reply) : Prop :=
  ∃ texts users, users.Perm (k.sweepRoom r cutoff).1.members ∧ List.Forall₂ Entry texts users ∧
    raw = .array
      [.array ((k.sweepRoom r cutoff).1.expired.map .bulk), .array (texts.map .bulk)]

/-- A sweep removes the stale members and nobody else, reports each of them once together with
everybody left, and touches no other room. -/
structure SweepsExactly (k : Keyspace) (r : String) (cutoff : ℚ) : Prop where
  removed : ∀ u, u ∈ ((k.sweepRoom r cutoff).2.room r).users ↔
    u ∈ (k.room r).users ∧ ¬ k.Stale r u.socketId cutoff
  expired : ∀ raw, k.SweepReply r cutoff raw → ∀ id, id ∈ (parseSweepResult r raw).expired ↔
    (k.room r).Present id ∧ k.Stale r id cutoff
  once : ∀ raw, k.SweepReply r cutoff raw → (parseSweepResult r raw).expired.Nodup
  members : ∀ raw, k.SweepReply r cutoff raw → ((parseSweepResult r raw).members.map userOf).Perm
    (((k.sweepRoom r cutoff).2.room r).users.rows.map some)
  others : ∀ r', r' ≠ r → (k.sweepRoom r cutoff).2.room r' = k.room r' ∧
    (r' ∈ (k.sweepRoom r cutoff).2.rooms ↔ r' ∈ k.rooms)

theorem expired_of_sweepReply {k : Keyspace} {r : String} {cutoff : ℚ} {raw : Reply}
    (h : k.SweepReply r cutoff raw) :
    (parseSweepResult r raw).expired = (k.room r).stale cutoff := by
  obtain ⟨texts, users, -, -, rfl⟩ := h
  exact filterMap_text_bulk _

theorem members_of_sweepReply {k : Keyspace} {r : String} {cutoff : ℚ} {raw : Reply}
    (h : k.SweepReply r cutoff raw) : ((parseSweepResult r raw).members.map userOf).Perm
      ((k.sweepRoom r cutoff).1.members.map some) := by
  obtain ⟨texts, users, hperm, hentries, rfl⟩ := h
  have hparsed : (parseUsers (.array (texts.map .bulk))).map userOf = users.map some :=
    userOf_parseUsers hentries
  exact hparsed ▸ hperm.map some

theorem sweepsExactly {l : String → Option ℕ} {k : Keyspace} {r : String}
    (h : (k.room r).Indexed l) (cutoff : ℚ) : SweepsExactly k r cutoff := by
  have hroom : (k.sweepRoom r cutoff).2.room r
      = (k.room r).reap ((k.room r).stale cutoff) := by rw [room_sweepRoom, if_pos rfl]
  refine ⟨fun u ↦ ?_, fun raw hraw id ↦ ?_, fun raw hraw ↦ ?_, fun raw hraw ↦ ?_,
    fun r' hr' ↦ ⟨?_, ?_⟩⟩
  · rw [hroom, RoomKeys.mem_users_reap, RoomKeys.mem_stale]
    rfl
  · rw [expired_of_sweepReply hraw, h.listed, RoomKeys.mem_stale]
    constructor
    · rintro ⟨m, hm, hid, hle⟩
      exact ⟨⟨m, hm, hid⟩, m, hm, hid, hle⟩
    · exact And.right
  · rw [expired_of_sweepReply hraw]
    exact RoomKeys.nodup_stale
  · have hrows : (k.sweepRoom r cutoff).1.members
        = ((k.sweepRoom r cutoff).2.room r).users.rows := by
      rw [hroom]
      exact congrArg (fun room ↦ room.users.rows) room_setRoom_self
    rw [← hrows]
    exact members_of_sweepReply hraw
  · rw [room_sweepRoom, if_neg hr']
  · rw [sweepRoom, mem_rooms_deregister]
    exact and_iff_left fun heq ↦ absurd heq hr'

end Keyspace

/-- After any calls on any rooms: the users hash and the last-seen set of a room have the same
members; the room is listed exactly if it has some; a score is the time of the member's latest join,
cursor update or heartbeat; and a sweep does exactly what its cutoff says. -/
theorem presence_indexes_agree (calls : List Call) (r : String) :
    (∀ id, ((Keyspace.after calls).room r).Present id ↔
      ∃ m ∈ ((Keyspace.after calls).room r).seen, m.socketId = id) ∧
    (r ∈ (Keyspace.after calls).rooms ↔ ((Keyspace.after calls).room r).users.rows ≠ []) ∧
    (∀ m ∈ ((Keyspace.after calls).room r).seen, latest calls r m.socketId = some m.score) ∧
    ∀ cutoff, (Keyspace.after calls).SweepsExactly r cutoff := by
  obtain ⟨hregistered, hindexed⟩ := indexed_after calls
  exact ⟨(hindexed r).listed, hregistered r, (hindexed r).scored,
    fun cutoff ↦ Keyspace.sweepsExactly (hindexed r) cutoff⟩

def ada : User := ⟨"a", "1", "Ada", "#f43f5e", none⟩

def bob : User := ⟨"b", "2", "Bob", "#3b82f6", none⟩

def cyd : User := ⟨"c", "3", "Cyd", "#22c55e", none⟩

def movedBob : User := { bob with cursor := some (1 / 2, 3) }

/-- Three members join, and one of them moves the cursor. -/
def cursorCalls : List Call :=
  [.join "board-1" ada 1000, .join "board-1" bob 2000, .join "board-1" cyd 2100,
    .updateCursor "board-1" "b" (1 / 2) 3 2500]

/-- Bob's entry after the cursor update, as `cjson.encode` may write it. -/
def bobEntry : String :=
  "\x7b\"cursor\":\x7b\"y\":3,\"x\":0.5\x7d,\"cursorColor\":\"#3b82f6\",\"username\":\"Bob\"," ++
    "\"userId\":\"2\",\"socketId\":\"b\"\x7d"

def cydEntry : String := Json.stringify ⟨fun _ ↦ "", fun _ ↦ ""⟩ (userJson cyd)

/-- The reply to a sweep that reaps Ada. -/
def cursorReply : Reply := .array [.array [.bulk "a"], .array [.bulk cydEntry, .bulk bobEntry]]

theorem sweepReply_cursorReply :
    (Keyspace.after cursorCalls).SweepReply "board-1" 1500 cursorReply := by
  have hexpired : ((Keyspace.after cursorCalls).sweepRoom "board-1" 1500).1.expired = ["a"] := by
    decide +kernel
  have hcyd : Entry cydEntry cyd := entry_stringify (readable_of_joined _ rfl)
  have hbob : Entry bobEntry movedBob := by decide +kernel
  refine ⟨[cydEntry, bobEntry], [cyd, movedBob], by decide +kernel,
    .cons hcyd (.cons hbob .nil), ?_⟩
  rw [hexpired]
  rfl

/-- The sweep reaps Ada, and reads the others from both kinds of entry. -/
theorem presence_indexes_agree_cursorCalls :
    "a" ∈ (parseSweepResult "board-1" cursorReply).expired ∧
      (parseSweepResult "board-1" cursorReply).expired.Nodup ∧
      ((parseSweepResult "board-1" cursorReply).members.map userOf).Perm
        [some movedBob, some cyd] := by
  have hswept := (presence_indexes_agree cursorCalls "board-1").2.2.2 1500
  have hreply := sweepReply_cursorReply
  refine ⟨(hswept.expired _ hreply "a").mpr ⟨?_, ?_⟩, hswept.once _ hreply,
    (hswept.members _ hreply).trans (by decide +kernel)⟩
  · exact ⟨ada, by decide +kernel, rfl⟩
  · exact ⟨⟨"a", 1000⟩, by decide +kernel, rfl, by norm_num⟩

end Synapse.Presence
