import Synapse.Presence.Index
import Synapse.Presence.Leaks

/-!
# Sockets that leave before they have arrived

A socket enters its room before the handler has registered it, so a disconnect in between finds a
room to leave and nobody to remove there. The join-room handler knows nothing of the disconnect and
registers the socket afterwards. Nothing takes it out again: a disconnecting handler runs once.

## What a member owes

Until then, every member of a room and every handler that is about to register one owes a departure:
its socket is connected and in the room, or the disconnecting handler has the room still to leave
(`Server.Owed`). Leaving settles the debt of the member it removes, so it must not run while a
handler of the same socket is about to register. As long as it does not, a socket that is gone has
left nothing behind.
-/

namespace Synapse.Presence

open Keyed Transition Reservation

/-- The handler has not registered its user yet. -/
def JoinCall.unregistered (j : JoinCall) : Bool :=
  match j.phase with
  | .allocating | .registering _ => true
  | .loading _ => false

/-- The reply of Redis arrives. -/
def Event.answered : Event → Bool
  | .allocateColor _ outcome | .join _ _ outcome | .leave _ _ outcome =>
    decide (outcome = .resolved)
  | _ => true

namespace Server

variable {s t : Server} {r a c : String} {j : JoinCall} {l : LeaveCall} {e : Event}

/-- Redis answers, and a socket joins a room once. -/
def JoinsOnce (s : Server) (e : Event) : Prop :=
  e.answered ∧
    match e with
    | .joinRoom _ socketId roomId _ _ =>
      roomId ∈ (s.sockets socketId).rooms → roomId = socketId
    | _ => True

/-- A room is left once its join-room handler has registered the socket, and it is a room that is
left at all. -/
def LeavesLast (s : Server) : Event → Prop
  | .joinRoom _ socketId roomId _ _ => roomId ≠ socketId
  | .leave socketId roomId _ => ∀ j ∈ s.joins.rows, j.socketId = socketId → j.roomId = roomId →
    j.unregistered = false
  | _ => True

/-- Both. -/
def Settles (s : Server) (e : Event) : Prop := s.JoinsOnce e ∧ s.LeavesLast e

instance (s : Server) (e : Event) : Decidable (s.JoinsOnce e) :=
  match e with
  | .joinRoom .. => inferInstanceAs (Decidable (_ ∧ (_ → _)))
  | .allocateColor .. | .join .. | .loadForJoin .. | .cursorMove .. | .disconnecting .. | .leave ..
  | .notify .. | .sweepRoom .. => inferInstanceAs (Decidable (_ ∧ True))

instance (s : Server) (e : Event) : Decidable (s.LeavesLast e) :=
  match e with
  | .joinRoom .. => inferInstanceAs (Decidable (_ ≠ _))
  | .leave .. => inferInstanceAs (Decidable (∀ j ∈ s.joins.rows, _ → _ → _))
  | .allocateColor .. | .join .. | .loadForJoin .. | .cursorMove .. | .disconnecting ..
  | .notify .. | .sweepRoom .. => inferInstanceAs (Decidable True)

instance (s : Server) (e : Event) : Decidable (s.Settles e) :=
  inferInstanceAs (Decidable (_ ∧ _))

/-! ## The keys are those of a run of scripts -/

theorem keys_step (h : Step s e t) : t.keys = s.keys ∨ ∃ call, t.keys = s.keys.apply call := by
  cases h with
  | joinRoom => exact Or.inl rfl
  | allocateColor j outcome hj hphase =>
    cases outcome with
    | rejected => exact Or.inl rfl
    | resolved => exact Or.inr ⟨.allocateColor j.roomId j.socketId, rfl⟩
    | lost => exact Or.inr ⟨.allocateColor j.roomId j.socketId, rfl⟩
  | join j cursorColor now outcome hj hphase =>
    cases outcome with
    | rejected => exact Or.inl rfl
    | resolved => exact Or.inr ⟨.join j.roomId (j.user cursorColor) now, rfl⟩
    | lost => exact Or.inr ⟨.join j.roomId (j.user cursorColor) now, rfl⟩
  | loadForJoin j members history hj hphase =>
    cases history <;> exact Or.inl rfl
  | cursorMove socketId roomId x y now => exact Or.inr ⟨.updateCursor roomId socketId x y now, rfl⟩
  | disconnecting => exact Or.inl rfl
  | leave l outcome hl hphase =>
    cases outcome with
    | rejected => exact Or.inl rfl
    | resolved => exact Or.inr ⟨.leave l.roomId l.socketId, rfl⟩
    | lost => exact Or.inr ⟨.leave l.roomId l.socketId, rfl⟩
  | notify => exact Or.inl rfl
  | sweepRoom roomId cutoff => exact Or.inr ⟨.sweepRoom roomId cutoff, rfl⟩

/-- Whatever the handlers do, the keys are those after some calls. -/
theorem exists_keys_eq_after {ok : Server → Event → Prop} (h : machine.Reaches ok s) :
    ∃ calls, s.keys = Keyspace.after calls := by
  refine h.invariant (P := fun s ↦ ∃ calls, s.keys = Keyspace.after calls) ?_ ?_
  · rintro _ rfl
    exact ⟨[], rfl⟩
  · rintro u e v ⟨calls, hcalls⟩ _ hs
    rcases keys_step (.of_step hs) with heq | ⟨call, heq⟩
    · exact ⟨calls, heq.trans hcalls⟩
    · exact ⟨calls ++ [call], by rw [heq, hcalls, Keyspace.after_concat]⟩

/-! ## A connection ends once -/

theorem connected_of_step (hs : s.step e = some t) (h : (t.sockets a).connected) :
    (s.sockets a).connected := by
  cases Step.of_step hs with
  | joinRoom => rwa [connected_joinRoom] at h
  | allocateColor j outcome => cases outcome <;> exact h
  | join j cursorColor now outcome => cases outcome <;> exact h
  | loadForJoin j members history => cases history <;> exact h
  | disconnecting socketId hconnected =>
    by_cases ha : a = socketId
    · rw [ha]
      exact hconnected
    · rwa [sockets_disconnecting_of_ne ha] at h
  | leave l outcome => cases outcome <;> exact h
  | cursorMove | notify | sweepRoom => exact h

theorem gone_step (h : ∀ l ∈ s.leaves, (s.sockets l.socketId).connected = false)
    (hs : s.step e = some t) : ∀ l ∈ t.leaves, (t.sockets l.socketId).connected = false := by
  have hstays : ∀ l ∈ s.leaves, (t.sockets l.socketId).connected = false := by
    intro l hl
    by_contra hne
    have hconnected := connected_of_step hs (Bool.not_eq_false _ ▸ hne)
    rw [h l hl] at hconnected
    cases hconnected
  intro l' hl'
  cases Step.of_step hs with
  | allocateColor j outcome => cases outcome <;> exact hstays l' hl'
  | join j cursorColor now outcome => cases outcome <;> exact hstays l' hl'
  | loadForJoin j members history => cases history <;> exact hstays l' hl'
  | disconnecting socketId =>
    rcases Table.mem_or_mem_of_mem_insertAll hl' with hl | hl
    · exact hstays l' hl
    · obtain ⟨r, -, rfl⟩ := List.mem_map.mp hl
      rw [sockets_disconnecting_self]
  | leave l outcome hl hphase =>
    cases outcome with
    | resolved =>
      rcases Table.mem_put.mp hl' with rfl | ⟨hl', -⟩
      · exact hstays l hl
      · exact hstays l' hl'
    | rejected | lost => exact hstays l' (Table.mem_deleteWhere.mp hl').1
  | notify l members hl => exact hstays l' (Table.mem_deleteWhere.mp hl').1
  | joinRoom | cursorMove | sweepRoom => exact hstays l' hl'

/-! ## What is owed -/

/-- Somebody will take the socket out of the room: it is connected and in it, or the room has yet to
be left. -/
def Owed (s : Server) (a r : String) : Prop :=
  ((s.sockets a).connected ∧ r ∈ (s.sockets a).rooms ∧ r ≠ a) ∨
    ∃ l ∈ s.leaves, l.target = (a, r) ∧ l.phase = .leaving

/-- What the handlers keep to while rooms are left last. -/
structure Orderly (s : Server) : Prop where
  present : ∀ r a, (s.keys.room r).Present a → s.Owed a r
  pending : ∀ j ∈ s.joins, j.unregistered → s.Owed j.socketId j.roomId
  gone : ∀ l ∈ s.leaves, (s.sockets l.socketId).connected = false
  absent : ∀ j ∈ s.joins, j.unregistered → ¬ (s.keys.room j.roomId).Present j.socketId
  single : ∀ j ∈ s.joins, ∀ j' ∈ s.joins, j.unregistered → j'.unregistered →
    j.socketId = j'.socketId → j.roomId = j'.roomId → j = j'

theorem Owed.congr (h : s.Owed a r) (hsockets : t.sockets a = s.sockets a)
    (hleaves : ∀ l ∈ s.leaves, l.target = (a, r) → l.phase = .leaving → l ∈ t.leaves) :
    t.Owed a r := by
  rcases h with h | ⟨l, hl, htarget, hphase⟩
  · exact Or.inl (by rwa [hsockets])
  · exact Or.inr ⟨l, hleaves l hl htarget hphase, htarget, hphase⟩

/-- A socket that is not in the room, or would not be taken out of it, is neither present nor about
to be. -/
theorem Orderly.not_owed (h : s.Orderly) (hconnected : (s.sockets a).connected)
    (hroom : r ∉ (s.sockets a).rooms) : ¬ s.Owed a r := by
  rintro (⟨-, hmem, -⟩ | ⟨l, hl, htarget, -⟩)
  · exact hroom hmem
  · obtain ⟨rfl, rfl⟩ := Prod.mk.inj htarget
    rw [h.gone l hl] at hconnected
    cases hconnected

/-! ## Steps -/

/-- Nobody registers or starts to: what is present was present, what is pending was pending, and
what is owed for these still is. -/
theorem Orderly.retain (h : s.Orderly)
    (hpresent : ∀ r a, (t.keys.room r).Present a → (s.keys.room r).Present a)
    (hjoins : ∀ j ∈ t.joins, j.unregistered →
      ∃ phase, { j with phase } ∈ s.joins ∧ JoinCall.unregistered { j with phase })
    (howed : ∀ r a, s.Owed a r →
      ((t.keys.room r).Present a ∨ ∃ j ∈ t.joins, j.unregistered ∧ j.socketId = a ∧ j.roomId = r) →
        t.Owed a r)
    (hgone : ∀ l ∈ t.leaves, (t.sockets l.socketId).connected = false) : t.Orderly where
  present r a ha := howed r a (h.present r a (hpresent r a ha)) (Or.inl ha)
  pending j hj hphase := by
    obtain ⟨phase, hj₀, hphase₀⟩ := hjoins j hj hphase
    exact howed _ _ (h.pending { j with phase } hj₀ hphase₀) (Or.inr ⟨j, hj, hphase, rfl, rfl⟩)
  gone := hgone
  absent j hj hphase ha := by
    obtain ⟨phase, hj₀, hphase₀⟩ := hjoins j hj hphase
    exact h.absent _ hj₀ hphase₀ (hpresent _ _ ha)
  single j hj j' hj' hphase hphase' hsocket hroom := by
    obtain ⟨phase, hj₀, hphase₀⟩ := hjoins j hj hphase
    obtain ⟨phase', hj₀', hphase₀'⟩ := hjoins j' hj' hphase'
    have heq := h.single _ hj₀ _ hj₀' hphase₀ hphase₀' hsocket hroom
    have hid : j.id = j'.id := (JoinCall.mk.inj heq).1
    exact Table.eq_of_key_eq (t := t.joins) hj hj' hid

theorem unregistered_of_finish (hjoins : t.joins = (s.finish j).joins) :
    ∀ j ∈ t.joins, j.unregistered →
      ∃ phase, { j with phase } ∈ s.joins ∧ JoinCall.unregistered { j with phase } := by
  intro j' hj' hphase'
  rw [hjoins, mem_joins_finish] at hj'
  exact ⟨j'.phase, hj'.1, hphase'⟩

theorem Orderly.joinRoom {id : ℕ} {username : String} {userId : Option String} (h : s.Orderly)
    (hok : s.Settles (.joinRoom id a r username userId))
    (hconnected : (s.sockets a).connected) : (s.joinRoom id a r username userId).Orderly := by
  have hroom : r ∉ (s.sockets a).rooms := fun hmem ↦ hok.2 (hok.1.2 hmem)
  have hnot : ¬ s.Owed a r := h.not_owed hconnected hroom
  have howed : ∀ a' r', s.Owed a' r' → (s.joinRoom id a r username userId).Owed a' r' := by
    rintro a' r' (⟨hc, hmem, hne⟩ | hl)
    · exact Or.inl ⟨connected_joinRoom.trans hc, mem_rooms_joinRoom.mpr (Or.inr hmem), hne⟩
    · exact Or.inr hl
  have hnew : (s.joinRoom id a r username userId).Owed a r := Or.inl
    ⟨connected_joinRoom.trans hconnected, mem_rooms_joinRoom.mpr (Or.inl ⟨rfl, rfl⟩), hok.2⟩
  have hjoins : ∀ j, j ∈ (s.joinRoom id a r username userId).joins →
      j ∈ s.joins ∨ j.socketId = a ∧ j.roomId = r := by
    intro j hj
    rcases Table.mem_insertIgnore.mp hj with hj | ⟨rfl, -⟩
    · exact Or.inl hj
    · exact Or.inr ⟨rfl, rfl⟩
  -- a handler that was there is not for the room that is entered
  have hother : ∀ j ∈ s.joins, j.unregistered → j.socketId = a → j.roomId = r → False := by
    rintro j hj hphase rfl rfl
    exact hnot (h.pending j hj hphase)
  refine ⟨fun r' a' ha' ↦ howed _ _ (h.present r' a' ha'), fun j hj hphase ↦ ?_, fun l hl ↦ ?_,
    fun j hj hphase ↦ ?_, fun j hj j' hj' hphase hphase' hsocket hroomId ↦ ?_⟩
  · rcases hjoins j hj with hj | ⟨rfl, rfl⟩
    · exact howed _ _ (h.pending j hj hphase)
    · exact hnew
  · exact connected_joinRoom.trans (h.gone l hl)
  · rcases hjoins j hj with hj | ⟨rfl, rfl⟩
    · exact h.absent j hj hphase
    · exact fun ha ↦ hnot (h.present _ _ ha)
  · rcases Table.mem_insertIgnore.mp hj with hj | ⟨rfl, -⟩
    · rcases Table.mem_insertIgnore.mp hj' with hj' | ⟨rfl, -⟩
      · exact h.single j hj j' hj' hphase hphase' hsocket hroomId
      · exact (hother j hj hphase hsocket hroomId).elim
    · rcases Table.mem_insertIgnore.mp hj' with hj' | ⟨rfl, -⟩
      · exact (hother j' hj' hphase' hsocket.symm hroomId.symm).elim
      · rfl

theorem Orderly.join {now : ℕ} (h : s.Orderly) (hj : j ∈ s.joins)
    (hphase : j.phase = .registering c) :
    (s.join j c now .resolved).Orderly := by
  have hunregistered : j.unregistered := by rw [JoinCall.unregistered, hphase]
  have howed : ∀ a' r', s.Owed a' r' → (s.join j c now .resolved).Owed a' r' := fun _ _ ↦ id
  have hjoins : ∀ j' ∈ (s.join j c now .resolved).joins, j'.unregistered →
      j' ∈ s.joins ∧ j'.id ≠ j.id := by
    intro j' hj' hphase'
    rcases mem_joins_await.mp hj' with rfl | hj'
    · cases hphase'
    · exact hj'
  have hpresent : ∀ r' a', ((s.join j c now .resolved).keys.room r').Present a' →
      (r' = j.roomId ∧ a' = j.socketId) ∨ (s.keys.room r').Present a' := fun _ _ ha' ↦
    Keyspace.present_join.mp ha'
  refine ⟨fun r' a' ha' ↦ ?_, fun j' hj' hphase' ↦ ?_, h.gone, fun j' hj' hphase' ha' ↦ ?_,
    fun j' hj' j'' hj'' hphase' hphase'' hsocket hroom ↦ ?_⟩
  · rcases hpresent r' a' ha' with ⟨rfl, rfl⟩ | ha'
    · exact howed _ _ (h.pending j hj hunregistered)
    · exact howed _ _ (h.present r' a' ha')
  · exact howed _ _ (h.pending j' (hjoins j' hj' hphase').1 hphase')
  · obtain ⟨hj', hne⟩ := hjoins j' hj' hphase'
    rcases hpresent _ _ ha' with ⟨hroom, hsocket⟩ | ha'
    · exact hne (congrArg JoinCall.id (h.single j' hj' j hj hphase' hunregistered hsocket hroom))
    · exact h.absent j' hj' hphase' ha'
  · exact h.single j' (hjoins j' hj' hphase').1 j'' (hjoins j'' hj'' hphase'').1 hphase' hphase''
      hsocket hroom

theorem Orderly.owed_disconnecting (h : s.Orderly) (hconnected : (s.sockets c).connected)
    (howed : s.Owed a r) : (s.disconnecting c).Owed a r := by
  -- nothing is left yet, or the socket would be gone
  have hfresh : ∀ l ∈ s.leaves, l.socketId ≠ c := by
    rintro l hl rfl
    rw [h.gone l hl] at hconnected
    cases hconnected
  by_cases ha : a = c
  · subst ha
    rcases howed with ⟨-, hmem, hne⟩ | ⟨l, hl, htarget, -⟩
    · refine Or.inr ⟨⟨a, r, .leaving⟩, Table.mem_insertAll_of_determined ?_ ?_, rfl, rfl⟩
      · exact List.mem_map.mpr ⟨r, List.mem_filter.mpr ⟨hmem, decide_eq_true hne⟩, rfl⟩
      · rintro l (hl | hl) htarget
        · exact absurd (congrArg Prod.fst htarget) (hfresh l hl)
        · obtain ⟨roomId, -, rfl⟩ := List.mem_map.mp hl
          obtain rfl : roomId = r := congrArg Prod.snd htarget
          rfl
    · exact absurd (congrArg Prod.fst htarget) (hfresh l hl)
  · exact howed.congr (sockets_disconnecting_of_ne ha) fun l hl _ _ ↦ Table.mem_insertAll_of_mem hl

theorem Owed.leave (howed : s.Owed a r) (hne : l.target ≠ (a, r)) :
    (s.leave l .resolved).Owed a r :=
  howed.congr rfl fun _ hl' htarget _ ↦
    Table.mem_put.mpr (Or.inr ⟨hl', fun heq ↦ hne (heq.symm.trans htarget)⟩)

theorem Owed.notify {members : List User} (howed : s.Owed a r) (hl : l ∈ s.leaves)
    (hphase : l.phase = .notifying members) :
    Owed { s.finishLeave l with received := s.emitTo l.roomId (.usersUpdate members) } a r := by
  refine howed.congr rfl fun l' hl' _ hphase' ↦ Table.mem_deleteWhere.mpr ⟨hl', ?_⟩
  refine decide_eq_false fun htarget ↦ ?_
  obtain rfl : l' = l := Table.eq_of_key_eq (t := s.leaves) hl' hl htarget
  rw [hphase] at hphase'
  cases hphase'

theorem Orderly.step (h : s.Orderly) (hok : s.Settles e) (hs : s.step e = some t) : t.Orderly := by
  have hgone := gone_step h.gone hs
  -- the handlers of a step that is none of a join-room handler
  have hjoins : ∀ j ∈ s.joins, j.unregistered →
      ∃ phase, { j with phase } ∈ s.joins ∧ JoinCall.unregistered { j with phase } :=
    fun j hj hphase ↦ ⟨j.phase, hj, hphase⟩
  cases Step.of_step hs with
  | joinRoom id socketId roomId username userId hconnected hid => exact h.joinRoom hok hconnected
  | allocateColor j outcome hj hphase =>
    obtain rfl : outcome = .resolved := of_decide_eq_true hok.1.1
    refine h.retain (fun r a ha ↦ Keyspace.present_allocateColor.mp ha) (fun j' hj' hphase' ↦ ?_)
      (fun _ _ howed _ ↦ howed) hgone
    rcases mem_joins_await.mp hj' with rfl | ⟨hj', -⟩
    · exact ⟨j.phase, hj, by rw [JoinCall.unregistered, hphase]⟩
    · exact hjoins j' hj' hphase'
  | join j cursorColor now outcome hj hphase =>
    obtain rfl : outcome = .resolved := of_decide_eq_true hok.1.1
    exact h.join hj hphase
  | loadForJoin j members history hj hphase =>
    cases history <;>
      exact h.retain (fun _ _ ↦ id) (unregistered_of_finish rfl) (fun _ _ howed _ ↦ howed) hgone
  | cursorMove socketId roomId x y now =>
    exact h.retain (fun r a ha ↦ Keyspace.present_updateCursor.mp ha) hjoins
      (fun _ _ howed _ ↦ howed) hgone
  | disconnecting socketId hconnected =>
    exact h.retain (fun _ _ ↦ id) hjoins (fun _ _ howed _ ↦ h.owed_disconnecting hconnected howed)
      hgone
  | leave l outcome hl hphase =>
    obtain rfl : outcome = .resolved := of_decide_eq_true hok.1.1
    refine h.retain (fun r a ha ↦ (Keyspace.present_leave.mp ha).1) hjoins
      (fun r a howed hwhy ↦ howed.leave fun htarget ↦ ?_) hgone
    -- whoever has left is not present, nor about to be
    obtain ⟨rfl, rfl⟩ : l.socketId = a ∧ l.roomId = r := Prod.mk.inj htarget
    rcases hwhy with ha | ⟨j, hj, hphase', hsocket, hroom⟩
    · exact (Keyspace.present_leave.mp ha).2 ⟨rfl, rfl⟩
    · rw [hok.2 j (Table.mem_rows.mpr hj) hsocket hroom] at hphase'
      cases hphase'
  | notify l members hl hphase =>
    exact h.retain (fun _ _ ↦ id) hjoins (fun _ _ howed _ ↦ howed.notify hl hphase) hgone
  | sweepRoom roomId cutoff =>
    exact h.retain (fun r a ha ↦ Keyspace.present_of_sweepRoom ha) hjoins
      (fun _ _ howed _ ↦ howed) hgone

theorem orderly_start : start.Orderly where
  present _ _ := fun ⟨_, hu, _⟩ ↦ absurd hu List.not_mem_nil
  pending _ hj := absurd hj List.not_mem_nil
  gone _ hl := absurd hl List.not_mem_nil
  absent _ hj := absurd hj List.not_mem_nil
  single _ hj := absurd hj List.not_mem_nil

/-- No registration overwrites an entry. -/
theorem Orderly.tidy (h : s.Orderly) (hok : s.Settles e) : s.Tidy e := by
  cases e with
  | joinRoom | loadForJoin | cursorMove | disconnecting | leave | notify | sweepRoom => trivial
  | allocateColor id outcome =>
    obtain rfl : outcome = .resolved := of_decide_eq_true hok.1.1
    trivial
  | join id now outcome =>
    obtain rfl : outcome = .resolved := of_decide_eq_true hok.1.1
    rintro j hj - c hc u hu hid
    have hunregistered : j.unregistered := by
      cases hphase : j.phase with
      | loading members =>
        rw [JoinCall.reserved, hphase] at hc
        exact absurd hc List.not_mem_nil
      | allocating | registering cursorColor => rw [JoinCall.unregistered, hphase]
    exact absurd ⟨u, Table.mem_rows.mp hu, hid⟩ (h.absent j (Table.mem_rows.mp hj) hunregistered)

theorem orderly_of_reaches (h : machine.Reaches Settles s) :
    s.Orderly ∧ machine.Reaches Tidy s := by
  obtain ⟨s₀, rfl, hsteps⟩ := h
  obtain ⟨horderly, htidy⟩ : s.Orderly ∧ machine.Steps Tidy start s := hsteps.strengthen
    orderly_start (fun _ _ horderly hok ↦ horderly.tidy hok)
    fun _ _ _ horderly hok hs ↦ horderly.step hok hs
  exact ⟨horderly, start, rfl, htidy⟩

/-- Nobody under this name is a member of the room, and no color of the room is due to it: each is
worn by a member or about to be registered by another socket's handler. -/
structure Forgotten (s : Server) (a r : String) : Prop where
  users : ∀ u ∈ (s.keys.room r).users, u.socketId ≠ a
  seen : ∀ m ∈ (s.keys.room r).seen, m.socketId ≠ a
  colors : ∀ c ∈ (s.keys.room r).colors, (∃ u ∈ (s.keys.room r).users, u.cursorColor = c) ∨
    ∃ j ∈ s.joins, j.socketId ≠ a ∧ j.roomId = r ∧ c ∈ j.reserved

/-- **No ghosts.** While rooms are left last, a socket that is gone, with its handlers done, has
left nothing behind. -/
theorem gone_forgotten (hs : machine.Reaches Settles s)
    (hgone : (s.sockets a).connected = false)
    (hjoined : ∀ j ∈ s.joins, j.socketId = a → j.roomId ≠ r)
    (hleft : ∀ l ∈ s.leaves, l.target ≠ (a, r)) : s.Forgotten a r := by
  obtain ⟨horderly, htidy⟩ := orderly_of_reaches hs
  obtain ⟨calls, hkeys⟩ := exists_keys_eq_after hs
  have habsent : ¬ (s.keys.room r).Present a := by
    intro ha
    rcases horderly.present r a ha with ⟨hconnected, -⟩ | ⟨l, hl, htarget, -⟩
    · rw [hgone] at hconnected
      cases hconnected
    · exact hleft l hl htarget
  refine ⟨fun u hu hid ↦ habsent ⟨u, hu, hid⟩, fun m hm hid ↦ ?_, fun c hc ↦ ?_⟩
  · rw [hkeys] at habsent hm
    exact habsent (((indexed_after calls).2 r).listed a |>.mpr ⟨m, hm, hid⟩)
  · obtain ⟨id | socketId, hholds⟩ := backed_of_reaches htidy r c hc
    · obtain ⟨j, hj, -, hroom, hres⟩ := mem_holds_inl.mp hholds
      exact Or.inr ⟨j, hj, fun hsocket ↦ hjoined j hj hsocket hroom, hroom, hres⟩
    · obtain ⟨u, hu, -, hcolor⟩ := hholds
      exact Or.inl ⟨u, hu, hcolor⟩

/-- A socket joins, disconnects, and its room is left. -/
private def joinThenLeave : List Event :=
  [.joinRoom 0 "a" "board-1" "Al" (some "u-a"), .allocateColor 0 .resolved, .join 0 1000 .resolved,
    .loadForJoin 0 (some { strokes := [] }), .disconnecting "a", .leave "a" "board-1" .resolved,
    .notify "a" "board-1"]

/-- The socket is gone and no handler is under way. -/
private def goneQuietly (s : Server) : Bool :=
  !(s.sockets "a").connected && s.joins.rows.isEmpty && s.leaves.rows.isEmpty

private theorem goneQuietly_iff : goneQuietly s = true ↔ (s.sockets "a").connected = false ∧
    (∀ j, j ∉ s.joins) ∧ ∀ l, l ∉ s.leaves := by
  rw [goneQuietly, Bool.and_eq_true, Bool.and_eq_true, List.isEmpty_iff, List.isEmpty_iff,
    Bool.not_eq_true', and_assoc, List.eq_nil_iff_forall_not_mem, List.eq_nil_iff_forall_not_mem]
  rfl

theorem gone_forgotten_once : ∃ s : Server, (s.sockets "a").connected = false ∧
    s.Forgotten "a" "board-1" := by
  obtain ⟨s, -, hsteps, hp⟩ : ∃ s, machine.exec start joinThenLeave = some s ∧
      machine.Steps Settles start s ∧ goneQuietly s = true :=
    Machine.exists_of_guarded_any start joinThenLeave (by decide +kernel)
  obtain ⟨hgone, hjoins, hleaves⟩ := goneQuietly_iff.mp hp
  exact ⟨s, hgone, gone_forgotten ⟨start, rfl, hsteps⟩ hgone (fun j hj ↦ absurd hj (hjoins j))
    fun l hl ↦ absurd hl (hleaves l)⟩

/-- The disconnecting handler runs as soon as the socket is in the room. -/
private def leaveThenJoin : List Event :=
  [.joinRoom 0 "a" "board-1" "Al" (some "u-a"), .disconnecting "a", .leave "a" "board-1" .resolved,
    .notify "a" "board-1", .allocateColor 0 .resolved, .join 0 1000 .resolved,
    .loadForJoin 0 (some { strokes := [] })]

/-- The socket is gone and still a member. -/
private def haunted (s : Server) : Bool :=
  goneQuietly s && (s.keys.room "board-1").users.rows.any fun u ↦ decide (u.socketId = "a")

/-- A socket disconnects while its join-room handler waits for a color. It is registered afterwards
and stays. -/
theorem ghost_after_disconnect : ¬∀ (s : Server) (a r : String), machine.Reaches JoinsOnce s →
    (s.sockets a).connected = false → (∀ j ∈ s.joins, j.socketId = a → j.roomId ≠ r) →
      (∀ l ∈ s.leaves, l.target ≠ (a, r)) → s.Forgotten a r := by
  intro hclaim
  obtain ⟨s, -, hsteps, hp⟩ : ∃ s, machine.exec start leaveThenJoin = some s ∧
      machine.Steps JoinsOnce start s ∧ haunted s = true :=
    Machine.exists_of_guarded_any start leaveThenJoin (by decide +kernel)
  rw [haunted, Bool.and_eq_true, List.any_eq_true] at hp
  obtain ⟨hquiet, u, hu, hid⟩ := hp
  obtain ⟨hgone, hjoins, hleaves⟩ := goneQuietly_iff.mp hquiet
  have hforgotten := hclaim s "a" "board-1" ⟨start, rfl, hsteps⟩ hgone
    (fun j hj ↦ absurd hj (hjoins j)) fun l hl ↦ absurd hl (hleaves l)
  exact hforgotten.users u hu (of_decide_eq_true hid)

end Server

end Synapse.Presence
