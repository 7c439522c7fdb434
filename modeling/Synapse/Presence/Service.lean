import Synapse.Presence.Store
import Synapse.Reservation.Basic
import Synapse.Transition.Machine

/-!
# Calls to the presence service

Joining takes two scripts: a color is allocated first, and the user is registered with it later.
Between the two, scripts of other calls run, on whichever instance. A socket begins to join a room
only when it is neither in it nor about to be; everything else may be called at any time.

`Service` is the keyspace, the joins that have their color and are not registered yet, and a
history that no step reads: whose color was handed out when the pool was exhausted.
-/

namespace Synapse.Presence

open Keyed Transition Reservation

/-- A join between `allocateColor` and `join`. -/
structure Allocation where
  roomId : String
  socketId : String
  cursorColor : String
  deriving DecidableEq, Repr

/-- The room and the socket of a join. -/
def Allocation.call (a : Allocation) : String × String := (a.roomId, a.socketId)

/-- The keyspace and the joins under way. -/
structure Service where
  keys : Keyspace
  /-- The joins that have been allocated a color. -/
  allocated : Table Allocation.call
  /-- History: the sockets in rooms whose latest color was not reserved for them, since every pool
  color was in use. -/
  overflowed : Finset (String × String)

/-- The calls. Times and cutoffs are those the scripts are passed. -/
inductive Call
  | allocateColor (roomId socketId : String)
  | join (roomId : String) (user : User) (now : ℕ)
  | leave (roomId socketId : String)
  | updateCursor (roomId socketId : String) (x y : ℚ) (now : ℕ)
  | heartbeat (roomId socketId : String) (now : ℕ)
  | sweepRoom (roomId : String) (cutoff : ℚ)

namespace Service

/-- Nobody has joined anything. -/
def start : Service := ⟨.empty, .empty _, ∅⟩

variable {s t : Service} {roomId socketId r c : String} {user : User} {now : ℕ}

/-- The socket is neither in the room nor about to be. -/
def MayJoin (s : Service) (roomId socketId : String) : Prop :=
  (s.keys.room roomId).users.get? socketId = none ∧ s.allocated.get? (roomId, socketId) = none

instance (s : Service) (roomId socketId : String) : Decidable (s.MayJoin roomId socketId) :=
  inferInstanceAs (Decidable (_ ∧ _))

/-- Who has a color without a reservation after an allocation for a socket. -/
def overflow (s : Service) (roomId socketId : String) : Finset (String × String) :=
  if (s.keys.room roomId).Exhausted then insert (roomId, socketId) s.overflowed
  else s.overflowed.erase (roomId, socketId)

/-- A color is handed out to a socket. -/
def allocateColor (s : Service) (roomId socketId : String) : Service where
  keys := (s.keys.allocateColor roomId).2
  allocated := s.allocated.insertIgnore ⟨roomId, socketId, (s.keys.allocateColor roomId).1⟩
  overflowed := s.overflow roomId socketId

/-- A user is registered with the color the socket was handed out. -/
def join (s : Service) (roomId : String) (user : User) (now : ℕ) : Service :=
  { s with
    keys := (s.keys.join roomId user now).2
    allocated := s.allocated.deleteWhere fun a ↦ decide (a.call = (roomId, user.socketId)) }

def step (s : Service) : Call → Option Service
  | .allocateColor roomId socketId =>
    if s.MayJoin roomId socketId then some (s.allocateColor roomId socketId) else none
  | .join roomId user now =>
    if ⟨roomId, user.socketId, user.cursorColor⟩ ∈ s.allocated then some (s.join roomId user now)
    else none
  | .leave roomId socketId => some { s with keys := (s.keys.leave roomId socketId).2 }
  | .updateCursor roomId socketId x y now =>
    some { s with keys := s.keys.updateCursor roomId socketId x y now }
  | .heartbeat roomId socketId now =>
    some { s with keys := (s.keys.heartbeat roomId socketId now).2 }
  | .sweepRoom roomId cutoff => some { s with keys := (s.keys.sweepRoom roomId cutoff).2 }

/-- The transition system of the service, from an empty Redis. -/
def machine : Machine Service Call := ⟨fun s ↦ s = start, step⟩

/-! ## The pool of a room

The colors of a room are a reservation pool held by sockets: a socket has a color from the
allocation on. -/

/-- What the service knows of the colors of a room, and who has them. -/
def pool (s : Service) (r : String) : Pool String String where
  inUse := {c | c ∈ (s.keys.room r).colors}
  holds socketId :=
    {c | (⟨r, socketId, c⟩ : Allocation) ∈ s.allocated ∨ (s.keys.room r).Wears socketId c}

/-- The sockets whose color was reserved for them. -/
def firm (s : Service) (r : String) : Set String := {socketId | (r, socketId) ∉ s.overflowed}

theorem mem_inUse_pool : c ∈ (s.pool r).inUse ↔ c ∈ (s.keys.room r).colors := Iff.rfl

theorem mem_holds_pool : c ∈ (s.pool r).holds socketId ↔
    (⟨r, socketId, c⟩ : Allocation) ∈ s.allocated ∨ (s.keys.room r).Wears socketId c := Iff.rfl

theorem mem_firm : socketId ∈ s.firm r ↔ (r, socketId) ∉ s.overflowed := Iff.rfl

theorem pool_congr (hcolors : (t.keys.room r).colors = (s.keys.room r).colors)
    (hwears : ∀ id c, (t.keys.room r).Wears id c ↔ (s.keys.room r).Wears id c)
    (hallocated : ∀ id c, (⟨r, id, c⟩ : Allocation) ∈ t.allocated ↔ ⟨r, id, c⟩ ∈ s.allocated) :
    t.pool r = s.pool r := by
  refine Pool.ext_mem (fun c ↦ ?_) fun id c ↦ or_congr (hallocated id c) (hwears id c)
  rw [mem_inUse_pool, mem_inUse_pool, hcolors]

theorem pool_eq_of_room_eq (hroom : t.keys.room r = s.keys.room r)
    (hallocated : ∀ id c, (⟨r, id, c⟩ : Allocation) ∈ t.allocated ↔ ⟨r, id, c⟩ ∈ s.allocated) :
    t.pool r = s.pool r :=
  pool_congr (by rw [hroom]) (fun id c ↦ by rw [hroom]) hallocated

/-! ## What a call does to the pool -/

theorem mem_allocated_allocateColor (hmay : s.MayJoin roomId socketId) {a : Allocation} :
    a ∈ (s.allocateColor roomId socketId).allocated ↔
      a ∈ s.allocated ∨ a = ⟨roomId, socketId, (s.keys.allocateColor roomId).1⟩ := by
  have hcalm := Table.get?_eq_none.mp hmay.2
  rw [allocateColor, Table.mem_insertIgnore]
  exact or_congr_right (and_iff_left fun a ha ↦ hcalm a ha)

theorem mem_allocated_join {a : Allocation} : a ∈ (s.join roomId user now).allocated ↔
    a ∈ s.allocated ∧ a.call ≠ (roomId, user.socketId) := by
  rw [join, Table.mem_deleteWhere, decide_eq_false_iff_not]

theorem pool_allocateColor (hmay : s.MayJoin roomId socketId) :
    (s.allocateColor roomId socketId).pool roomId
      = (s.pool roomId).acquire socketId (s.keys.allocateColor roomId).1 := by
  have hroom : (s.allocateColor roomId socketId).keys.room roomId
      = (s.keys.room roomId).allocateColor.2 := Keyspace.room_setRoom_self
  have hnone : ∀ c, c ∉ (s.pool roomId).holds socketId := by
    rintro c (ha | ⟨u, hu, hid, -⟩)
    · exact Table.get?_eq_none.mp hmay.2 _ ha rfl
    · exact Table.get?_eq_none.mp hmay.1 u hu hid
  refine Pool.ext_mem (fun c ↦ ?_) fun id c ↦ ?_
  · rw [mem_inUse_pool, hroom, RoomKeys.mem_colors_allocateColor, Pool.mem_inUse_acquire]
    rfl
  · have hwears : ((s.allocateColor roomId socketId).keys.room roomId).Wears id c ↔
        (s.keys.room roomId).Wears id c := by
      rw [hroom, RoomKeys.Wears, RoomKeys.users_allocateColor]
      rfl
    rw [mem_holds_pool, mem_allocated_allocateColor hmay, hwears, Pool.mem_holds_acquire,
      or_right_comm, ← mem_holds_pool, Allocation.mk.injEq]
    constructor
    · rintro (hc | ⟨-, hid, hc⟩)
      · exact Or.inr ⟨fun heq ↦ hnone c (heq ▸ hc), hc⟩
      · exact Or.inl ⟨hid, hc⟩
    · rintro (⟨hid, hc⟩ | ⟨-, hc⟩)
      · exact Or.inr ⟨rfl, hid, hc⟩
      · exact Or.inl hc

theorem pool_join (hmarked : user.cursorColor ∈ (s.pool roomId).inUse) :
    (s.join roomId user now).pool roomId
      = (s.pool roomId).acquire user.socketId user.cursorColor := by
  have hroom : (s.join roomId user now).keys.room roomId
      = (s.keys.room roomId).join user now := Keyspace.room_setRoom_self
  refine Pool.ext_mem (fun c ↦ ?_) fun id c ↦ ?_
  · rw [mem_inUse_pool, hroom, Pool.mem_inUse_acquire, RoomKeys.join]
    dsimp only
    split_ifs
    · exact ⟨Or.inr, fun hc ↦ hc.elim (fun heq ↦ heq ▸ hmarked) (fun hc ↦ hc)⟩
    · exact Finset.mem_insert
  · rw [mem_holds_pool, mem_allocated_join, hroom, RoomKeys.wears_join, Pool.mem_holds_acquire,
      mem_holds_pool]
    simp only [Allocation.call, ne_eq, Prod.mk.injEq, true_and]
    tauto

theorem pool_reap {ids : List String}
    (happart : ∀ a ∈ s.allocated, ∀ u ∈ (s.keys.room a.roomId).users, u.socketId ≠ a.socketId)
    (hroom : t.keys.room roomId = (s.keys.room roomId).reap ids)
    (hall : t.allocated = s.allocated) :
    t.pool roomId
      = (s.pool roomId).release {id | id ∈ ids ∧ ∃ c, (s.keys.room roomId).Wears id c} := by
  refine Pool.ext_mem (fun c ↦ ?_) fun id c ↦ ?_
  · rw [mem_inUse_pool, hroom, RoomKeys.mem_colors_reap, Pool.mem_inUse_release]
    refine and_congr Iff.rfl ⟨?_, fun h id hid hw ↦ h id ⟨hid, c, hw⟩ (Or.inr hw)⟩
    rintro h id ⟨hid, d, u, hu, rfl, rfl⟩ (ha | hw)
    · exact happart _ ha u hu rfl
    · exact h _ hid hw
  · rw [mem_holds_pool, hroom, hall, RoomKeys.wears_reap, Pool.mem_holds_release, mem_holds_pool]
    constructor
    · rintro (ha | ⟨hid, hw⟩)
      · refine ⟨?_, Or.inl ha⟩
        rintro ⟨-, d, u, hu, heq, -⟩
        exact happart _ ha u hu heq
      · exact ⟨fun h ↦ hid h.1, Or.inr hw⟩
    · rintro ⟨hid, ha | hw⟩
      · exact Or.inl ha
      · exact Or.inr ⟨fun h ↦ hid ⟨h, c, hw⟩, hw⟩

end Service

end Synapse.Presence
