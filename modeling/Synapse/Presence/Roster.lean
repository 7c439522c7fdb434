import Synapse.Presence.Ghosts

/-!
# The member list everybody has

The join-room handler reads the member list when it registers its socket and broadcasts it only
after it has loaded the history. Another handler may read and broadcast a newer list in the
meantime, and the older one, coming last, is what everybody is left with.

## When the last list is the current one

A list that is out of date does no harm while somebody else is still to broadcast a newer one. So
it is enough that a list is broadcast only if it is current, or another handler has the current list
still to broadcast or one still to read, or no member is connected to see it (`Server.Timely`).
-/

namespace Synapse.Presence

open Keyed Transition

/-- The member list of a message. -/
def Message.members : Message → Option (List User)
  | .usersUpdate members => some members
  | _ => none

/-- The member list a socket has been sent last. -/
def lastUpdate (received : List Message) : Option (List User) :=
  (received.filterMap Message.members).getLast?

theorem lastUpdate_concat (received : List Message) (message : Message) :
    lastUpdate (received ++ [message]) = message.members.or (lastUpdate received) :=
  getLast?_filterMap_concat Message.members received message

/-- The handler has this list still to broadcast, or has one still to read. -/
def JoinCall.Announces (j : JoinCall) (members : List User) : Prop :=
  match j.phase with
  | .allocating | .registering _ => True
  | .loading read => read = members

/-- The handler has this list still to broadcast, or has one still to read. -/
def LeaveCall.Announces (l : LeaveCall) (members : List User) : Prop :=
  match l.phase with
  | .leaving => True
  | .notifying read => read = members

instance (j : JoinCall) (members : List User) : Decidable (j.Announces members) :=
  match h : j.phase with
  | .allocating | .registering _ => isTrue (by rw [JoinCall.Announces, h]; trivial)
  | .loading read => decidable_of_iff (read = members) (by rw [JoinCall.Announces, h])

instance (l : LeaveCall) (members : List User) : Decidable (l.Announces members) :=
  match h : l.phase with
  | .leaving => isTrue (by rw [LeaveCall.Announces, h]; trivial)
  | .notifying read => decidable_of_iff (read = members) (by rw [LeaveCall.Announces, h])

namespace Server

variable {s t : Server} {r a c : String} {j : JoinCall} {l : LeaveCall} {e : Event}
  {members : List User} {last : Option (List User)}

/-- Some handler announces the list. -/
def Announced (s : Server) (members : List User) : Prop :=
  (∃ j ∈ s.joins.rows, j.Announces members) ∨ ∃ l ∈ s.leaves.rows, l.Announces members

/-- The list is the one of the room, or it will be followed by that one, or nobody minds. -/
def Current (s : Server) (r : String) (last : Option (List User)) : Prop :=
  last = some (s.keys.list r) ∨ s.Announced (s.keys.list r) ∨
    ∀ u ∈ s.keys.list r, (s.sockets u.socketId).connected = false

instance (s : Server) (members : List User) : Decidable (s.Announced members) :=
  inferInstanceAs (Decidable ((∃ j ∈ s.joins.rows, _) ∨ ∃ l ∈ s.leaves.rows, _))

instance (s : Server) (r : String) (last : Option (List User)) : Decidable (s.Current r last) :=
  inferInstanceAs (Decidable (_ ∨ _ ∨ ∀ u ∈ s.keys.list r, _))

/-- Everything happens in one room and succeeds, and nothing but joining and disconnecting
happens. -/
def InRoom (r : String) (e : Event) : Prop :=
  e.answered ∧
    match e with
    | .joinRoom _ _ roomId _ _ => roomId = r
    | .loadForJoin _ history => history.isSome
    | .cursorMove .. | .sweepRoom .. => False
    | _ => True

instance (r : String) (e : Event) : Decidable (InRoom r e) :=
  match e with
  | .joinRoom .. => inferInstanceAs (Decidable (_ ∧ _ = _))
  | .loadForJoin .. => inferInstanceAs (Decidable (_ ∧ _))
  | .cursorMove .. | .sweepRoom .. => inferInstanceAs (Decidable (_ ∧ False))
  | .allocateColor .. | .join .. | .disconnecting .. | .leave .. | .notify .. =>
    inferInstanceAs (Decidable (_ ∧ True))

/-- What a join-room handler broadcasts is current enough once the handler is done. -/
def JoinTimely (s : Server) (r : String) (j : JoinCall) : Prop :=
  match j.phase with
  | .loading members => (s.finish j).Current r (some members)
  | _ => True

/-- What a disconnecting handler broadcasts is current enough once the handler is done. -/
def LeaveTimely (s : Server) (r : String) (l : LeaveCall) : Prop :=
  match l.phase with
  | .notifying members => (s.finishLeave l).Current r (some members)
  | _ => True

instance (s : Server) (r : String) (j : JoinCall) : Decidable (s.JoinTimely r j) :=
  match h : j.phase with
  | .loading members =>
    decidable_of_iff ((s.finish j).Current r (some members)) (by rw [JoinTimely, h])
  | .allocating | .registering _ => isTrue (by rw [JoinTimely, h]; trivial)

instance (s : Server) (r : String) (l : LeaveCall) : Decidable (s.LeaveTimely r l) :=
  match h : l.phase with
  | .notifying members =>
    decidable_of_iff ((s.finishLeave l).Current r (some members)) (by rw [LeaveTimely, h])
  | .leaving => isTrue (by rw [LeaveTimely, h]; trivial)

/-- What is broadcast is current enough. -/
def Timely (r : String) (s : Server) : Event → Prop
  | .loadForJoin id _ => ∀ j ∈ s.joins.rows, j.id = id → s.JoinTimely r j
  | .notify socketId roomId => ∀ l ∈ s.leaves.rows, l.target = (socketId, roomId) →
    s.LeaveTimely r l
  | _ => True

instance (r : String) (s : Server) (e : Event) : Decidable (Timely r s e) :=
  match e with
  | .loadForJoin .. => inferInstanceAs (Decidable (∀ j ∈ s.joins.rows, _ → _))
  | .notify .. => inferInstanceAs (Decidable (∀ l ∈ s.leaves.rows, _ → _))
  | .joinRoom .. | .allocateColor .. | .join .. | .cursorMove .. | .disconnecting .. | .leave ..
  | .sweepRoom .. => inferInstanceAs (Decidable True)

/-- Both, in one room. -/
def Heralds (r : String) (s : Server) (e : Event) : Prop := InRoom r e ∧ Timely r s e

instance (r : String) (s : Server) (e : Event) : Decidable (Heralds r s e) :=
  inferInstanceAs (Decidable (_ ∧ _))

/-! ## What was broadcast last -/

/-- Everybody in the room has been sent the same list last, but for those with a handler under way,
and that list is current enough. -/
structure Informed (r : String) (s : Server) : Prop where
  joins : ∀ j ∈ s.joins, j.roomId = r
  leaves : ∀ l ∈ s.leaves, l.roomId = r
  rooms : ∀ a, ∀ r' ∈ (s.sockets a).rooms, r' = r ∨ r' = a
  entered : ∀ a, (s.sockets a).connected →
    ((s.keys.room r).Present a ∨ ∃ j ∈ s.joins, j.socketId = a) → r ∈ (s.sockets a).rooms
  heard : ∃ last, s.Current r last ∧ ∀ a, r ∈ (s.sockets a).rooms →
    lastUpdate (s.received a) = last ∨ ∃ j ∈ s.joins, j.socketId = a

/-- Being current only takes handlers to stay under way. -/
theorem Current.mono (h : s.Current r last) (hlist : t.keys.list r = s.keys.list r)
    (hconnected : ∀ a, (t.sockets a).connected → (s.sockets a).connected)
    (hjoins : ∀ members, ∀ j ∈ s.joins, j.Announces members → ∃ j' ∈ t.joins, j'.Announces members)
    (hleaves : ∀ l ∈ s.leaves, l ∈ t.leaves) : t.Current r last := by
  rw [Current, hlist]
  rcases h with h | (⟨j, hj, h⟩ | ⟨l, hl, h⟩) | h
  · exact Or.inl h
  · exact Or.inr (Or.inl (Or.inl (hjoins _ j (Table.mem_rows.mp hj) h)))
  · exact Or.inr (Or.inl (Or.inr ⟨l, hleaves l (Table.mem_rows.mp hl), h⟩))
  · refine Or.inr (Or.inr fun u hu ↦ ?_)
    by_contra hne
    have hconn := hconnected _ (Bool.not_eq_false _ ▸ hne)
    rw [h u hu] at hconn
    cases hconn

theorem lastUpdate_emit {message : Message} (h : message.members = none) :
    lastUpdate (s.emit c message a) = lastUpdate (s.received a) := by
  rw [emit, Function.update_apply]
  split_ifs with ha
  · rw [lastUpdate_concat, h, Option.none_or, ha]
  · rfl

theorem lastUpdate_emitTo (h : r ∈ (s.sockets a).rooms) :
    lastUpdate (s.emitTo r (.usersUpdate members) a) = some members := by
  rw [emitTo, if_pos h, lastUpdate_concat]
  rfl

theorem Informed.joinRoom {id : ℕ} {username : String} {userId : Option String}
    (h : s.Informed r) (hid : s.joins.get? id = none) :
    (s.joinRoom id a r username userId).Informed r := by
  have hnew : ⟨id, a, r, userId.getD a, username, .allocating⟩
      ∈ (s.joinRoom id a r username userId).joins :=
    Table.mem_insertIgnore.mpr (Or.inr ⟨rfl, Table.get?_eq_none.mp hid⟩)
  have hold : ∀ j ∈ s.joins, j ∈ (s.joinRoom id a r username userId).joins := fun j hj ↦
    Table.mem_insertIgnore.mpr (Or.inl hj)
  obtain ⟨last, hcurrent, hheard⟩ := h.heard
  refine ⟨fun j hj ↦ ?_, h.leaves, fun b r' hr' ↦ ?_, fun b hb hpresent ↦ ?_, last,
    hcurrent.mono rfl (fun b hb ↦ connected_joinRoom ▸ hb) (fun _ j hj hann ↦ ⟨j, hold j hj, hann⟩)
      fun _ hl ↦ hl, fun b hb ↦ ?_⟩
  · rcases Table.mem_insertIgnore.mp hj with hj | ⟨rfl, -⟩
    · exact h.joins j hj
    · rfl
  · rcases mem_rooms_joinRoom.mp hr' with ⟨-, rfl⟩ | hr'
    · exact Or.inl rfl
    · exact h.rooms b r' hr'
  · rw [mem_rooms_joinRoom]
    by_cases hba : b = a
    · exact Or.inl ⟨hba, rfl⟩
    · refine Or.inr (h.entered b (connected_joinRoom ▸ hb) (hpresent.imp_right ?_))
      rintro ⟨j, hj, hsocket⟩
      rcases Table.mem_insertIgnore.mp hj with hj | ⟨rfl, -⟩
      · exact ⟨j, hj, hsocket⟩
      · exact absurd hsocket.symm hba
  · rcases mem_rooms_joinRoom.mp hb with ⟨rfl, -⟩ | hb
    · exact Or.inr ⟨_, hnew, rfl⟩
    · refine (hheard b hb).imp_right ?_
      rintro ⟨j, hj, hsocket⟩
      exact ⟨j, hold j hj, hsocket⟩

/-- A handler goes on, and announces the list that is current then. -/
theorem Informed.await {phase : JoinPhase} (h : s.Informed r) (hj : j ∈ s.joins)
    (hjoins : t.joins = (s.await j phase).joins) (hleaves : t.leaves = s.leaves)
    (hsockets : t.sockets = s.sockets)
    (hpresent : ∀ b, (t.keys.room r).Present b → b = j.socketId ∨ (s.keys.room r).Present b)
    (hannounces : JoinCall.Announces { j with phase } (t.keys.list r))
    (hreceived : ∀ b, lastUpdate (t.received b) = lastUpdate (s.received b)) : t.Informed r := by
  have hmem : ∀ j', j' ∈ t.joins ↔ j' = { j with phase } ∨ (j' ∈ s.joins ∧ j'.id ≠ j.id) := by
    intro j'
    rw [hjoins]
    exact mem_joins_await
  have hsocket : ∀ b, (∃ j' ∈ t.joins, j'.socketId = b) ↔ ∃ j' ∈ s.joins, j'.socketId = b := by
    intro b
    constructor
    · rintro ⟨j', hj', hb⟩
      rcases (hmem j').mp hj' with rfl | ⟨hj', -⟩
      · exact ⟨j, hj, hb⟩
      · exact ⟨j', hj', hb⟩
    · rintro ⟨j', hj', hb⟩
      by_cases hid : j'.id = j.id
      · obtain rfl : j' = j := Table.eq_of_key_eq (t := s.joins) hj' hj hid
        exact ⟨_, (hmem _).mpr (Or.inl rfl), hb⟩
      · exact ⟨j', (hmem j').mpr (Or.inr ⟨hj', hid⟩), hb⟩
  obtain ⟨last, -, hheard⟩ := h.heard
  refine ⟨fun j' hj' ↦ ?_, fun l hl ↦ h.leaves l (hleaves ▸ hl), fun b ↦ hsockets ▸ h.rooms b,
    fun b hb hwhy ↦ ?_, last, Or.inr (Or.inl (Or.inl ⟨_, (hmem _).mpr (Or.inl rfl), hannounces⟩)),
    fun b hb ↦ ?_⟩
  · rcases (hmem j').mp hj' with rfl | ⟨hj', -⟩
    · exact h.joins j hj
    · exact h.joins j' hj'
  · rw [hsockets] at hb ⊢
    refine h.entered b hb ?_
    rw [hsocket] at hwhy
    rcases hwhy with hb' | hwhy
    · rcases hpresent b hb' with rfl | hb'
      · exact Or.inr ⟨j, hj, rfl⟩
      · exact Or.inl hb'
    · exact Or.inr hwhy
  · rw [hsocket, hreceived]
    exact hheard b (hsockets ▸ hb)

theorem Informed.broadcast (h : s.Informed r) (hcurrent : t.Current r (some members))
    (hkeys : t.keys = s.keys) (hsockets : t.sockets = s.sockets)
    (hjoins : ∀ j ∈ t.joins, j ∈ s.joins) (hleaves : ∀ l ∈ t.leaves, l ∈ s.leaves)
    (hreceived : ∀ b, r ∈ (s.sockets b).rooms → lastUpdate (t.received b) = some members) :
    t.Informed r := by
  refine ⟨fun j hj ↦ h.joins j (hjoins j hj), fun l hl ↦ h.leaves l (hleaves l hl),
    fun b ↦ hsockets ▸ h.rooms b, fun b hb hwhy ↦ ?_, some members, hcurrent,
    fun b hb ↦ Or.inl (hreceived b (hsockets ▸ hb))⟩
  rw [hsockets] at hb ⊢
  rw [hkeys] at hwhy
  refine h.entered b hb (hwhy.imp_right ?_)
  rintro ⟨j, hj, hsocket⟩
  exact ⟨j, hjoins j hj, hsocket⟩

theorem Informed.disconnecting (h : s.Informed r) : (s.disconnecting a).Informed r := by
  obtain ⟨last, hcurrent, hheard⟩ := h.heard
  refine ⟨h.joins, fun l hl ↦ ?_, fun b r' hr' ↦ ?_, fun b hb hwhy ↦ ?_, last,
    hcurrent.mono rfl (fun b hb ↦ ?_) (fun _ j hj hann ↦ ⟨j, hj, hann⟩)
      (fun l hl ↦ Table.mem_insertAll_of_mem hl), fun b hb ↦ ?_⟩
  · rcases Table.mem_or_mem_of_mem_insertAll hl with hl | hl
    · exact h.leaves l hl
    · obtain ⟨r', hr', rfl⟩ := List.mem_map.mp hl
      obtain ⟨hmem, hne⟩ := List.mem_filter.mp hr'
      exact (h.rooms a r' hmem).resolve_right (of_decide_eq_true hne)
  all_goals by_cases hba : b = a
  · rw [hba, sockets_disconnecting_self] at hr'
    exact absurd hr' List.not_mem_nil
  · exact h.rooms b r' (sockets_disconnecting_of_ne hba ▸ hr')
  · rw [hba, sockets_disconnecting_self] at hb
    cases hb
  · rw [sockets_disconnecting_of_ne hba] at hb ⊢
    exact h.entered b hb hwhy
  · rw [hba, sockets_disconnecting_self] at hb
    cases hb
  · exact sockets_disconnecting_of_ne hba ▸ hb
  · rw [hba, sockets_disconnecting_self] at hb
    exact absurd hb List.not_mem_nil
  · exact hheard b (sockets_disconnecting_of_ne hba ▸ hb)

theorem Informed.leave (h : s.Informed r) (hl : l ∈ s.leaves) :
    (s.leave l .resolved).Informed r := by
  obtain rfl := h.leaves l hl
  obtain ⟨last, -, hheard⟩ := h.heard
  have hlist : (s.keys.leave l.roomId l.socketId).1
      = (s.leave l .resolved).keys.list l.roomId := by
    rw [Keyspace.list, Server.leave, Keyspace.leave, Keyspace.room_deregister]
    rfl
  have hannounced : (s.leave l .resolved).Announced ((s.leave l .resolved).keys.list l.roomId) :=
    Or.inr ⟨_, Table.mem_put.mpr (Or.inl rfl), hlist⟩
  refine ⟨h.joins, fun l' hl' ↦ ?_, h.rooms, fun b hb hwhy ↦ ?_, last, Or.inr (Or.inl hannounced),
    hheard⟩
  · rcases Table.mem_put.mp hl' with rfl | ⟨hl', -⟩
    · rfl
    · exact h.leaves l' hl'
  · exact h.entered b hb (hwhy.imp_left fun hp ↦ (Keyspace.present_leave.mp hp).1)

theorem Informed.step (h : s.Informed r) (hok : Heralds r s e) (hs : s.step e = some t) :
    t.Informed r := by
  cases Step.of_step hs with
  | joinRoom id socketId roomId username userId hconnected hid =>
    obtain rfl : roomId = r := hok.1.2
    exact h.joinRoom hid
  | allocateColor j outcome hj hphase =>
    obtain rfl : outcome = .resolved := of_decide_eq_true hok.1.1
    exact h.await (t := s.allocateColor j .resolved) hj rfl rfl rfl
      (fun b hb ↦ Or.inr (Keyspace.present_allocateColor.mp hb)) trivial fun _ ↦ rfl
  | join j cursorColor now outcome hj hphase =>
    obtain rfl : outcome = .resolved := of_decide_eq_true hok.1.1
    obtain rfl := h.joins j hj
    exact h.await (t := s.join j cursorColor now .resolved) hj rfl rfl rfl
      (fun b hb ↦ (Keyspace.present_join.mp hb).imp_left And.right) rfl
      fun b ↦ lastUpdate_emit rfl
  | loadForJoin j members history hj hphase =>
    obtain ⟨history, rfl⟩ := Option.isSome_iff_exists.mp hok.1.2
    have hcurrent : (s.finish j).Current r (some members) := by
      have htimely := hok.2 j (Table.mem_rows.mpr hj) rfl
      rwa [JoinTimely, hphase] at htimely
    obtain rfl := h.joins j hj
    exact h.broadcast (t := s.loadForJoin j members (some history)) hcurrent rfl rfl
      (fun j' hj' ↦ (mem_joins_finish.mp hj').1) (fun _ ↦ id) fun b hb ↦ lastUpdate_emitTo
        (s := { s with received := s.emit j.socketId (.roomHistory history) }) hb
  | cursorMove => exact hok.1.2.elim
  | disconnecting socketId hconnected => exact h.disconnecting
  | leave l outcome hl hphase =>
    obtain rfl : outcome = .resolved := of_decide_eq_true hok.1.1
    exact h.leave hl
  | notify l members hl hphase =>
    have hcurrent : (s.finishLeave l).Current r (some members) := by
      have htimely := hok.2 l (Table.mem_rows.mpr hl) rfl
      rwa [LeaveTimely, hphase] at htimely
    obtain rfl := h.leaves l hl
    exact h.broadcast (t := { s.finishLeave l with
      received := s.emitTo l.roomId (.usersUpdate members) }) hcurrent rfl rfl (fun _ ↦ id)
      (fun l' hl' ↦ (Table.mem_deleteWhere.mp hl').1) fun b hb ↦ lastUpdate_emitTo hb
  | sweepRoom => exact hok.1.2.elim

theorem informed_start : start.Informed r := by
  refine ⟨fun j hj ↦ absurd hj List.not_mem_nil, fun l hl ↦ absurd hl List.not_mem_nil,
    fun a r' hr' ↦ Or.inr (List.mem_singleton.mp hr'), fun a _ hwhy ↦ ?_, none,
    Or.inr (Or.inr fun u hu ↦ absurd hu List.not_mem_nil), fun a _ ↦ Or.inl rfl⟩
  rcases hwhy with ⟨u, hu, -⟩ | ⟨j, hj, -⟩
  · exact absurd hu List.not_mem_nil
  · exact absurd hj List.not_mem_nil

/-- **The last list is the true one.** While no list is broadcast too late, once all handlers are
done every member that is still connected has been sent the list of the room last. -/
theorem last_update_current (hs : machine.Reaches (Heralds r) s) (hjoins : s.joins.rows = [])
    (hleaves : s.leaves.rows = []) (ha : (s.keys.room r).Present a)
    (hconnected : (s.sockets a).connected) :
    lastUpdate (s.received a) = some (s.keys.list r) := by
  have h : s.Informed r := hs.invariant (by rintro _ rfl; exact informed_start)
    fun _ _ _ hinf hok hstep ↦ hinf.step hok hstep
  obtain ⟨last, hcurrent, hheard⟩ := h.heard
  have hlast : lastUpdate (s.received a) = last := by
    refine (hheard a (h.entered a hconnected (Or.inl ha))).resolve_right ?_
    rintro ⟨j, hj, -⟩
    exact absurd (hjoins ▸ Table.mem_rows.mpr hj) List.not_mem_nil
  rw [hlast]
  rcases hcurrent with hcurrent | (⟨j, hj, -⟩ | ⟨l, hl, -⟩) | hnone
  · exact hcurrent
  · exact absurd (hjoins ▸ hj) List.not_mem_nil
  · exact absurd (hleaves ▸ hl) List.not_mem_nil
  · obtain ⟨u, hu, rfl⟩ := ha
    rw [hnone u (Table.mem_rows.mpr hu)] at hconnected
    cases hconnected

/-- Two sockets join one after the other. -/
private def joinInTurn : List Event :=
  [.joinRoom 0 "a" "board-1" "Al" (some "u-a"), .joinRoom 1 "b" "board-1" "Bo" (some "u-b"),
    .allocateColor 0 .resolved, .join 0 1000 .resolved, .allocateColor 1 .resolved,
    .join 1 1001 .resolved, .loadForJoin 0 (some { strokes := [] }),
    .loadForJoin 1 (some { strokes := [] })]

/-- The first socket is a connected member and no handler is under way. -/
private def settled (s : Server) : Bool :=
  s.joins.rows.isEmpty && s.leaves.rows.isEmpty && (s.sockets "a").connected &&
    (s.keys.room "board-1").users.rows.any (fun u ↦ decide (u.socketId = "a"))

private theorem settled_iff : settled s = true ↔ s.joins.rows = [] ∧ s.leaves.rows = [] ∧
    (s.sockets "a").connected ∧ (s.keys.room "board-1").Present "a" := by
  rw [settled, Bool.and_eq_true, Bool.and_eq_true, Bool.and_eq_true, List.isEmpty_iff,
    List.isEmpty_iff, and_assoc, and_assoc, List.any_eq_true]
  simp only [decide_eq_true_iff]
  rfl

theorem last_update_current_inTurn : ∃ s : Server,
    lastUpdate (s.received "a") = some (s.keys.list "board-1") := by
  obtain ⟨s, -, hsteps, hp⟩ : ∃ s, machine.exec start joinInTurn = some s ∧
      machine.Steps (Heralds "board-1") start s ∧ settled s = true :=
    Machine.exists_of_guarded_any start joinInTurn (by decide +kernel)
  obtain ⟨hjoins, hleaves, hconnected, ha⟩ := settled_iff.mp hp
  exact ⟨s, last_update_current ⟨start, rfl, hsteps⟩ hjoins hleaves ha hconnected⟩

/-- The first socket's history takes longer to load than everything the second socket does. -/
private def joinOvertaken : List Event :=
  [.joinRoom 0 "a" "board-1" "Al" (some "u-a"), .joinRoom 1 "b" "board-1" "Bo" (some "u-b"),
    .allocateColor 0 .resolved, .join 0 1000 .resolved, .allocateColor 1 .resolved,
    .join 1 1001 .resolved, .loadForJoin 1 (some { strokes := [] }),
    .loadForJoin 0 (some { strokes := [] })]

/-- The list that came last has fewer members than the room. -/
private def outOfDate (s : Server) : Bool :=
  settled s && decide (lastUpdate (s.received "a") ≠ some (s.keys.list "board-1"))

/-- Two sockets join, and the list from before the second one is broadcast last. -/
theorem last_update_overtaken : ¬∀ (r : String) (s : Server),
    machine.Reaches (fun _ e ↦ InRoom r e) s → s.joins.rows = [] → s.leaves.rows = [] →
      ∀ a, (s.keys.room r).Present a → (s.sockets a).connected →
        lastUpdate (s.received a) = some (s.keys.list r) := by
  intro hclaim
  obtain ⟨s, -, hsteps, hp⟩ : ∃ s, machine.exec start joinOvertaken = some s ∧
      machine.Steps (fun _ e ↦ InRoom "board-1" e) start s ∧ outOfDate s = true :=
    Machine.exists_of_guarded_any start joinOvertaken (by decide +kernel)
  rw [outOfDate, Bool.and_eq_true, decide_eq_true_iff] at hp
  obtain ⟨hjoins, hleaves, hconnected, ha⟩ := settled_iff.mp hp.1
  exact hp.2 (hclaim "board-1" s ⟨start, rfl, hsteps⟩ hjoins hleaves "a" ha hconnected)

end Server

end Synapse.Presence
