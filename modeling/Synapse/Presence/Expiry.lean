import Synapse.Presence.Ghosts

/-!
# Presence that expires

Redis takes away a key that has been given a time to live once the time is up. Joining and moving
the cursor are followed by a call to `refreshTtl`, three `EXPIRE`s for the keys of the room; a key
that is written to without one keeps the expiry it has, and a key that is deleted takes its expiry
with it. No heartbeat and no sweep is wired, so a room whose members neither join nor move the
cursor loses its users hash, and with it everybody in it, connected or not.

## The clock

`Expiring` adds to the server the time, the expiries of the keys, and the `EXPIRE`s that were sent
and have not run yet. A script that rejects may have run and may have been followed by its
`EXPIRE`s, so these are sent in that case, too, with nobody waiting for them.
-/

namespace Synapse.Presence

open Keyed Transition

/-- The keys of a room. -/
inductive RoomKey
  | users
  | colors
  | seen
  deriving DecidableEq

namespace RoomKeys

/-- The key is there. -/
def has (room : RoomKeys) : RoomKey → Bool
  | .users => !room.users.rows.isEmpty
  | .colors => decide room.colors.Nonempty
  | .seen => !room.seen.rows.isEmpty

/-- The keys but for those that are taken away. -/
def without (room : RoomKeys) (gone : RoomKey → Bool) : RoomKeys where
  users := if gone .users then .empty _ else room.users
  colors := if gone .colors then ∅ else room.colors
  seen := if gone .seen then .empty _ else room.seen

theorem present_without {room : RoomKeys} {gone : RoomKey → Bool} {socketId : String}
    (h : gone .users = false) : (room.without gone).Present socketId ↔ room.Present socketId := by
  rw [Present, without, h]
  rfl

end RoomKeys

/-- An `EXPIRE` that has been sent, with the join-room handler that awaits it, if one does. -/
structure ExpireCall where
  caller : Option ℕ
  roomId : String
  key : RoomKey
  deriving DecidableEq

/-- `refreshTtl`. -/
def refreshTtl (caller : Option ℕ) (roomId : String) : List ExpireCall :=
  [⟨caller, roomId, .users⟩, ⟨caller, roomId, .colors⟩, ⟨caller, roomId, .seen⟩]

/-- The server over keys that expire. -/
structure Expiring where
  server : Server
  /-- Epoch milliseconds. -/
  now : ℕ
  /-- When a key of a room expires, if ever. -/
  expiry : String → RoomKey → Option ℕ
  /-- The `EXPIRE`s that have not run yet. -/
  calls : List ExpireCall
  /-- History: the sockets whose join-room handler has completed for a room. -/
  completed : List (String × String)

/-- A step of the server, an `EXPIRE` that runs, and time that passes. -/
inductive Moment
  | act (e : Event)
  | expire (call : ExpireCall)
  | pass (t : ℕ)

namespace Expiring

variable {s t : Expiring} {a r : String} {e : Event} {m : Moment} {ttlSeconds : ℕ}

/-- An empty Redis at time zero. -/
def start : Expiring := ⟨.start, 0, fun _ _ ↦ none, [], []⟩

/-- The step is one the handlers take now: it reads the clock, and a history is loaded when the
`EXPIRE`s of the registration are done. Nothing sweeps. -/
def Runs (s : Expiring) : Event → Prop
  | .join _ now _ | .cursorMove _ _ _ _ now => now = s.now
  | .loadForJoin id _ => ∀ call ∈ s.calls, call.caller ≠ some id
  | .sweepRoom .. => False
  | _ => True

instance (s : Expiring) (e : Event) : Decidable (s.Runs e) :=
  match e with
  | .join .. | .cursorMove .. => inferInstanceAs (Decidable (_ = s.now))
  | .loadForJoin .. => inferInstanceAs (Decidable (∀ call ∈ s.calls, _))
  | .sweepRoom .. => inferInstanceAs (Decidable False)
  | .joinRoom .. | .allocateColor .. | .disconnecting .. | .leave .. | .notify .. =>
    inferInstanceAs (Decidable True)

/-- The `EXPIRE`s a step sends. -/
def sent (s : Server) : Event → List ExpireCall
  | .join id _ .resolved => (s.joins.get? id).toList.flatMap fun j ↦ refreshTtl (some id) j.roomId
  | .join id _ .lost => (s.joins.get? id).toList.flatMap fun j ↦ refreshTtl none j.roomId
  | .cursorMove _ roomId _ _ _ => refreshTtl none roomId
  | _ => []

/-- The join-room handler a step completes. -/
def completes (s : Server) : Event → List (String × String)
  | .loadForJoin id (some _) => (s.joins.get? id).toList.map fun j ↦ (j.socketId, j.roomId)
  | _ => []

/-- A step of the server to `server`. A key that is not there any more has no expiry. -/
def act (s : Expiring) (e : Event) (server : Server) : Expiring :=
  { s with
    server := server
    expiry := fun r key ↦ if (server.keys.room r).has key then s.expiry r key else none
    calls := s.calls ++ sent s.server e
    completed := s.completed ++ completes s.server e }

/-- `EXPIRE`: a key that is there is given its time to live from now. -/
def expire (ttlSeconds : ℕ) (s : Expiring) (call : ExpireCall) : Expiring :=
  { s with
    expiry :=
      if (s.server.keys.room call.roomId).has call.key then
        Function.update s.expiry call.roomId
          (Function.update (s.expiry call.roomId) call.key (some (s.now + ttlSeconds * 1000)))
      else s.expiry
    calls := s.calls.erase call }

/-- The time of the key is up by `t`. -/
def expired (s : Expiring) (t : ℕ) (r : String) (key : RoomKey) : Bool :=
  (s.expiry r key).any fun deadline ↦ decide (deadline < t)

/-- Time passes, and the keys whose time is up are gone. -/
def pass (s : Expiring) (t : ℕ) : Expiring :=
  { s with
    server := { s.server with
      keys := { s.server.keys with
        room := fun r ↦ (s.server.keys.room r).without (s.expired t r) } }
    now := t
    expiry := fun r key ↦ if s.expired t r key then none else s.expiry r key }

def step (ttlSeconds : ℕ) (s : Expiring) : Moment → Option Expiring
  | .act e => if s.Runs e then (s.server.step e).map (s.act e) else none
  | .expire call => if call ∈ s.calls then some (s.expire ttlSeconds call) else none
  | .pass t => if s.now ≤ t then some (s.pass t) else none

/-- The handlers over keys that expire. -/
def machine (ttlSeconds : ℕ) : Machine Expiring Moment := ⟨fun s ↦ s = start, step ttlSeconds⟩

/-! ## Time that passes over connected members -/

/-- Who has been registered in a room: by a handler that has completed, or by one that is about
to. -/
def joined (s : Expiring) : List (String × String) :=
  s.completed ++ (s.server.joins.rows.filter fun j ↦ !j.unregistered).map
    fun j ↦ (j.socketId, j.roomId)

/-- Time does not pass the expiry of a users hash that a connected socket has been registered
in. -/
def Refreshed (s : Expiring) : Moment → Prop
  | .pass t => ∀ p ∈ s.joined, (s.server.sockets p.1).connected → s.expired t p.2 .users = false
  | _ => True

instance (s : Expiring) (m : Moment) : Decidable (s.Refreshed m) :=
  match m with
  | .pass _ => inferInstanceAs (Decidable (∀ p ∈ s.joined, _ → _))
  | .act _ | .expire _ => inferInstanceAs (Decidable True)

theorem mem_joined : (a, r) ∈ s.joined ↔ (a, r) ∈ s.completed ∨
    ∃ j ∈ s.server.joins, j.unregistered = false ∧ j.socketId = a ∧ j.roomId = r := by
  rw [joined, List.mem_append, List.mem_map]
  simp only [List.mem_filter, Bool.not_eq_true', Prod.mk.injEq, and_assoc]
  rfl

/-- Sockets that leave are gone, and the others are where they have been registered. -/
structure Standing (s : Expiring) : Prop where
  gone : ∀ l ∈ s.server.leaves, (s.server.sockets l.socketId).connected = false
  present : ∀ a r, (a, r) ∈ s.joined → (s.server.sockets a).connected →
    (s.server.keys.room r).Present a

end Expiring

namespace Server

variable {s t : Server} {a r : String} {e : Event}

/-- Nothing but a leave and a sweep takes a member out. -/
theorem present_of_step (hs : s.step e = some t) (hsweep : ∀ r c, e ≠ .sweepRoom r c)
    (hleave : ∀ l ∈ s.leaves, l.target ≠ (a, r)) (h : (s.keys.room r).Present a) :
    (t.keys.room r).Present a := by
  have hleft : ∀ l ∈ s.leaves, ((s.keys.leave l.roomId l.socketId).2.room r).Present a := by
    refine fun l hl ↦ Keyspace.present_leave.mpr ⟨h, fun heq ↦ hleave l hl ?_⟩
    rw [LeaveCall.target, heq.1, heq.2]
  cases Step.of_step hs with
  | joinRoom => exact h
  | allocateColor j outcome =>
    cases outcome with
    | rejected => exact h
    | resolved | lost => exact Keyspace.present_allocateColor.mpr h
  | join j cursorColor now outcome =>
    cases outcome with
    | rejected => exact h
    | resolved | lost => exact Keyspace.present_join.mpr (Or.inr h)
  | loadForJoin j members history => cases history <;> exact h
  | cursorMove => exact Keyspace.present_updateCursor.mpr h
  | disconnecting => exact h
  | leave l outcome hl =>
    cases outcome with
    | rejected => exact h
    | resolved | lost => exact hleft l hl
  | notify => exact h
  | sweepRoom roomId cutoff => exact absurd rfl (hsweep roomId cutoff)

/-- A handler that has registered its socket had done so before, or has just done it. -/
theorem registered_of_step (hs : s.step e = some t) {j : JoinCall} (hj : j ∈ t.joins)
    (hphase : j.unregistered = false) :
    j ∈ s.joins ∨ (t.keys.room j.roomId).Present j.socketId := by
  cases Step.of_step hs with
  | joinRoom id socketId roomId username userId =>
    rcases Table.mem_insertIgnore.mp hj with hj | ⟨rfl, -⟩
    · exact Or.inl hj
    · cases hphase
  | allocateColor j' outcome =>
    cases outcome with
    | resolved =>
      rcases mem_joins_await.mp hj with rfl | ⟨hj, -⟩
      · cases hphase
      · exact Or.inl hj
    | rejected | lost => exact Or.inl (mem_joins_finish.mp hj).1
  | join j' cursorColor now outcome =>
    cases outcome with
    | resolved =>
      rcases mem_joins_await.mp hj with rfl | ⟨hj, -⟩
      · exact Or.inr (Keyspace.present_join.mpr (Or.inl ⟨rfl, rfl⟩))
      · exact Or.inl hj
    | rejected | lost => exact Or.inl (mem_joins_finish.mp hj).1
  | loadForJoin j' members history =>
    cases history <;> exact Or.inl (mem_joins_finish.mp hj).1
  | leave l outcome => cases outcome <;> exact Or.inl hj
  | cursorMove | disconnecting | notify | sweepRoom => exact Or.inl hj

end Server

namespace Expiring

variable {s t : Expiring} {a r : String} {e : Event} {m : Moment} {ttlSeconds : ℕ}

theorem joined_of_completes {server : Server} (hs : s.server.step e = some server)
    (h : (a, r) ∈ completes s.server e) : (a, r) ∈ s.joined := by
  cases Server.Step.of_step hs with
  | loadForJoin j members history hj hphase =>
    cases history with
    | none => exact absurd h List.not_mem_nil
    | some history =>
      rw [completes, Table.get?_eq_some.mpr ⟨hj, rfl⟩] at h
      obtain ⟨rfl, rfl⟩ := Prod.mk.inj (List.mem_singleton.mp h)
      exact mem_joined.mpr (Or.inr ⟨j, hj, by rw [JoinCall.unregistered, hphase], rfl, rfl⟩)
  | joinRoom | allocateColor | join | cursorMove | disconnecting | leave | notify | sweepRoom =>
    exact absurd h List.not_mem_nil

theorem Standing.act {server : Server} (h : s.Standing) (hruns : s.Runs e)
    (hs : s.server.step e = some server) : (s.act e server).Standing := by
  refine ⟨Server.gone_step h.gone hs, fun a r hjoined hconnected ↦ ?_⟩
  have hbefore := Server.connected_of_step hs hconnected
  have hsweep : ∀ r c, e ≠ .sweepRoom r c := by
    rintro r c rfl
    exact hruns
  have hleave : ∀ l ∈ s.server.leaves, l.target ≠ (a, r) := by
    intro l hl htarget
    obtain ⟨rfl, -⟩ := Prod.mk.inj htarget
    rw [h.gone l hl] at hbefore
    cases hbefore
  have hstays : (a, r) ∈ s.joined → (server.keys.room r).Present a := fun hmem ↦
    Server.present_of_step hs hsweep hleave (h.present a r hmem hbefore)
  rcases mem_joined.mp hjoined with hcompleted | ⟨j, hj, hphase, rfl, rfl⟩
  · rcases List.mem_append.mp hcompleted with hcompleted | hcompletes
    · exact hstays (mem_joined.mpr (Or.inl hcompleted))
    · exact hstays (joined_of_completes hs hcompletes)
  · rcases Server.registered_of_step hs hj hphase with hj | hpresent
    · exact hstays (mem_joined.mpr (Or.inr ⟨j, hj, hphase, rfl, rfl⟩))
    · exact hpresent

theorem Standing.step (h : s.Standing) (hok : s.Refreshed m)
    (hs : (machine ttlSeconds).step s m = some t) : t.Standing := by
  cases m with
  | act e =>
    obtain ⟨hruns, hs⟩ := Option.ite_none_right_eq_some.mp hs
    obtain ⟨server, hserver, rfl⟩ := Option.map_eq_some_iff.mp hs
    exact h.act hruns hserver
  | expire call =>
    obtain ⟨-, hs⟩ := Option.ite_none_right_eq_some.mp hs
    obtain rfl := Option.some.inj hs
    exact ⟨h.gone, h.present⟩
  | pass now =>
    obtain ⟨-, hs⟩ := Option.ite_none_right_eq_some.mp hs
    obtain rfl := Option.some.inj hs
    refine ⟨h.gone, fun a r hjoined hconnected ↦ ?_⟩
    exact (RoomKeys.present_without (hok (a, r) hjoined hconnected)).mpr
      (h.present a r hjoined hconnected)

/-- **A connected member stays present.** As long as every users hash is refreshed in time for the
connected sockets registered in it, a socket that has completed join-room and has not disconnected
is in the presence list. -/
theorem connected_member_present (hs : (machine ttlSeconds).Reaches Refreshed s)
    (hcompleted : (a, r) ∈ s.completed) (hconnected : (s.server.sockets a).connected) :
    ∃ u ∈ s.server.keys.list r, u.socketId = a := by
  have h : s.Standing := by
    refine hs.invariant ?_ fun _ _ _ hstanding hok hstep ↦ hstanding.step hok hstep
    rintro _ rfl
    exact ⟨fun l hl ↦ absurd hl List.not_mem_nil, fun a r hmem ↦ absurd hmem List.not_mem_nil⟩
  exact h.present a r (mem_joined.mpr (Or.inl hcompleted)) hconnected

/-- A socket joins at time zero, its keys refreshed. -/
private def joinFresh : List Moment :=
  [.act (.joinRoom 0 "a" "board-1" "Al" (some "u-a")), .act (.allocateColor 0 .resolved),
    .act (.join 0 0 .resolved), .expire ⟨some 0, "board-1", .users⟩,
    .expire ⟨some 0, "board-1", .colors⟩, .expire ⟨some 0, "board-1", .seen⟩,
    .act (.loadForJoin 0 (some { strokes := [] }))]

/-- The cursor moves every thirty seconds. -/
private def joinActive : List Moment :=
  joinFresh ++ [.pass 30000, .act (.cursorMove "a" "board-1" 1 2 30000),
    .expire ⟨none, "board-1", .users⟩, .pass 60000]

/-- The socket is connected and has completed its join. -/
private def inside (s : Expiring) : Bool :=
  decide (("a", "board-1") ∈ s.completed) && (s.server.sockets "a").connected

theorem connected_member_present_active : ∃ s : Expiring,
    ∃ u ∈ s.server.keys.list "board-1", u.socketId = "a" := by
  obtain ⟨s, -, hsteps, hp⟩ : ∃ s, (machine 30).exec start joinActive = some s ∧
      (machine 30).Steps Refreshed start s ∧ inside s = true :=
    Machine.exists_of_guarded_any start joinActive (by decide +kernel)
  rw [inside, Bool.and_eq_true, decide_eq_true_iff] at hp
  exact ⟨s, connected_member_present ⟨start, rfl, hsteps⟩ hp.1 hp.2⟩

/-- The presence list of the socket's room is empty. -/
private def forgotten (s : Expiring) : Bool :=
  inside s && (s.server.keys.list "board-1").isEmpty

/-- A socket joins and does nothing for thirty seconds. It is connected and not present any more. -/
theorem idle_member_expired : ¬∀ (ttlSeconds : ℕ) (s : Expiring) (a r : String),
    (machine ttlSeconds).Reaches Machine.anyStep s → (a, r) ∈ s.completed →
      (s.server.sockets a).connected → ∃ u ∈ s.server.keys.list r, u.socketId = a := by
  intro hclaim
  obtain ⟨s, -, hsteps, hp⟩ := Machine.exists_of_exec (M := machine 30) (p := forgotten) start
    (joinFresh ++ [.pass 30001]) (by decide +kernel)
  rw [forgotten, inside, Bool.and_eq_true, Bool.and_eq_true, decide_eq_true_iff,
    List.isEmpty_iff] at hp
  obtain ⟨u, hu, -⟩ := hclaim 30 s "a" "board-1" ⟨start, rfl, hsteps⟩ hp.1.1 hp.1.2
  rw [hp.2] at hu
  exact absurd hu List.not_mem_nil

end Expiring

end Synapse.Presence
