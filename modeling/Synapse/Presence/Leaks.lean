import Synapse.Presence.Handlers
import Synapse.Reservation.Basic

/-!
# Colors lost to the pool

A color is marked when it is allocated and the mark is taken off when the user who has it leaves.
The handler does nothing to take it off in between. So a mark outlives its color when the handler
fails before the user is registered, and when a socket that is registered joins the room again: the
entry is overwritten, with another color, and leaving looks at the entry that is there then.

## When every mark is owed

The marks of a room are a reservation pool, held by the handlers that are to register a color and by
the users who are registered with one. It stays backed through every step that keeps to `Tidy`:
a handler that ends without registering its color, and a registration that overwrites an entry,
leave no marked color behind that nobody else has.
-/

namespace Synapse.Presence

open Keyed Transition Reservation

/-- The color the handler has been allocated and has not registered yet. -/
def JoinCall.reserved (j : JoinCall) : List String :=
  match j.phase with
  | .registering cursorColor => [cursorColor]
  | _ => []

namespace Server

variable {s t : Server} {r c : String} {j : JoinCall}

/-- Who may have a color: a handler or a registered socket. -/
abbrev Holder := ℕ ⊕ String

/-- If the color is marked, somebody other than `h` has it. -/
def OthersHold (s : Server) (r c : String) (h : Holder) : Prop :=
  c ∈ (s.keys.room r).colors →
    (∃ u ∈ (s.keys.room r).users.rows, .inr u.socketId ≠ h ∧ u.cursorColor = c) ∨
      ∃ j ∈ s.joins.rows, .inl j.id ≠ h ∧ j.roomId = r ∧ c ∈ j.reserved

instance (s : Server) (r c : String) (h : Holder) : Decidable (s.OthersHold r c h) :=
  inferInstanceAs (Decidable (_ → _ ∨ _))

/-- Registering overwrites no entry whose color would be lost with it. -/
def OverwritesNone (s : Server) (j : JoinCall) : Prop :=
  ∀ c ∈ j.reserved, ∀ u ∈ (s.keys.room j.roomId).users.rows, u.socketId = j.socketId →
    u.cursorColor = c ∨ s.OthersHold j.roomId u.cursorColor (.inr j.socketId)

/-- The step leaves no marked color behind without anybody who has it. -/
def Tidy (s : Server) : Event → Prop
  | .allocateColor id .lost =>
    ∀ j ∈ s.joins.rows, j.id = id → (s.keys.room j.roomId).Exhausted
  | .join id _ .rejected => ∀ j ∈ s.joins.rows, j.id = id →
    ∀ c ∈ j.reserved, s.OthersHold j.roomId c (.inl id)
  | .join id _ .resolved | .join id _ .lost =>
    ∀ j ∈ s.joins.rows, j.id = id → s.OverwritesNone j
  | _ => True

instance (s : Server) (j : JoinCall) : Decidable (s.OverwritesNone j) :=
  inferInstanceAs (Decidable (∀ c ∈ j.reserved, ∀ u ∈ (s.keys.room j.roomId).users.rows, _ → _))

instance (s : Server) (e : Event) : Decidable (s.Tidy e) :=
  match e with
  | .allocateColor id .lost =>
    inferInstanceAs (Decidable (∀ j ∈ s.joins.rows, j.id = id → _))
  | .join id _ .rejected => inferInstanceAs (Decidable (∀ j ∈ s.joins.rows, j.id = id → _))
  | .join id _ .resolved | .join id _ .lost =>
    inferInstanceAs (Decidable (∀ j ∈ s.joins.rows, j.id = id → _))
  | .allocateColor _ .resolved | .allocateColor _ .rejected | .joinRoom .. | .loadForJoin ..
  | .cursorMove .. | .disconnecting .. | .leave .. | .notify .. | .sweepRoom .. =>
    inferInstanceAs (Decidable True)

/-- The colors of a room, and who has them. -/
def pool (s : Server) (r : String) : Pool Holder String where
  inUse := {c | c ∈ (s.keys.room r).colors}
  holds
    | .inl id => {c | ∃ j ∈ s.joins, j.id = id ∧ j.roomId = r ∧ c ∈ j.reserved}
    | .inr socketId => {c | (s.keys.room r).Wears socketId c}

theorem mem_inUse_pool : c ∈ (s.pool r).inUse ↔ c ∈ (s.keys.room r).colors := Iff.rfl

theorem mem_holds_inl {id : ℕ} : c ∈ (s.pool r).holds (.inl id) ↔
    ∃ j ∈ s.joins, j.id = id ∧ j.roomId = r ∧ c ∈ j.reserved := Iff.rfl

theorem mem_holds_inr {socketId : String} :
    c ∈ (s.pool r).holds (.inr socketId) ↔ (s.keys.room r).Wears socketId c := Iff.rfl

theorem reserved_of_holds {d : String} (hj : j ∈ s.joins)
    (hd : d ∈ (s.pool r).holds (.inl j.id)) : j.roomId = r ∧ d ∈ j.reserved := by
  obtain ⟨j', hj', hid, hr, hres⟩ := mem_holds_inl.mp hd
  obtain rfl : j' = j := Table.eq_of_key_eq (t := s.joins) hj' hj hid
  exact ⟨hr, hres⟩

theorem OthersHold.exists_holds {h : Holder} (hc : s.OthersHold r c h)
    (hmarked : c ∈ (s.pool r).inUse) : ∃ h' ≠ h, c ∈ (s.pool r).holds h' := by
  rcases hc hmarked with ⟨u, hu, hne, rfl⟩ | ⟨j, hj, hne, rfl, hres⟩
  · exact ⟨.inr u.socketId, hne, u, hu, rfl, rfl⟩
  · exact ⟨.inl j.id, hne, j, hj, rfl, rfl, hres⟩

/-! ## Steps -/

theorem backed_mono (hb : (s.pool r).Backed)
    (hcolors : ∀ c ∈ (t.keys.room r).colors, c ∈ (s.keys.room r).colors)
    (hwears : ∀ id c, (s.keys.room r).Wears id c → (t.keys.room r).Wears id c)
    (hjoins : ∀ j ∈ s.joins, j.roomId = r → j.reserved ≠ [] → j ∈ t.joins) :
    (t.pool r).Backed := by
  refine hb.mono hcolors ?_
  rintro (id | socketId) c hc
  · obtain ⟨j, hj, hid, hr, hres⟩ := hc
    exact ⟨j, hjoins j hj hr (List.ne_nil_of_mem hres), hid, hr, hres⟩
  · exact hwears socketId c hc

theorem id_ne_of_reserved (hj : j ∈ s.joins) (h : j.reserved = [] ∨ j.roomId ≠ r) {j' : JoinCall}
    (hj' : j' ∈ s.joins) (hr : j'.roomId = r) (hres : j'.reserved ≠ []) : j'.id ≠ j.id := by
  intro hid
  obtain rfl : j' = j := Table.eq_of_key_eq (t := s.joins) hj' hj hid
  exact h.elim hres fun hne ↦ hne hr

theorem backed_finish (hb : (s.pool r).Backed) (hj : j ∈ s.joins)
    (h : j.reserved = [] ∨ j.roomId ≠ r) (hkeys : t.keys.room r = s.keys.room r)
    (hjoins : t.joins = (s.finish j).joins) : (t.pool r).Backed := by
  refine backed_mono hb (by rw [hkeys]; exact fun _ ↦ id) (by rw [hkeys]; exact fun _ _ ↦ id) ?_
  intro j' hj' hr hres
  rw [hjoins, mem_joins_finish]
  exact ⟨hj', id_ne_of_reserved hj h hj' hr hres⟩

theorem backed_allocateColor {outcome : Outcome} (hb : ∀ r, (s.pool r).Backed) (hj : j ∈ s.joins)
    (hphase : j.phase = .allocating) (hok : s.Tidy (.allocateColor j.id outcome)) (r : String) :
    ((s.allocateColor j outcome).pool r).Backed := by
  have hres : j.reserved = [] := by rw [JoinCall.reserved, hphase]
  have hroom : (s.keys.allocateColor j.roomId).2.room r
      = if r = j.roomId then (s.keys.room j.roomId).allocateColor.2 else s.keys.room r :=
    Keyspace.room_allocateColor
  cases outcome with
  | resolved =>
    have hkeys : (s.allocateColor j .resolved).keys = (s.keys.allocateColor j.roomId).2 := rfl
    have hjoins : ∀ j', j' ∈ (s.allocateColor j .resolved).joins ↔
        j' = { j with phase := .registering (s.keys.allocateColor j.roomId).1 } ∨
          (j' ∈ s.joins ∧ j'.id ≠ j.id) := fun _ ↦ mem_joins_await
    by_cases hr : r = j.roomId
    · have hnone : (s.pool r).SharesBut (.inl j.id) (some (s.keys.allocateColor j.roomId).1) :=
        fun d hd ↦ absurd (hres ▸ (reserved_of_holds hj hd).2) List.not_mem_nil
      refine ((hb r).acquire hnone).mono (fun c hc ↦ ?_) ?_
      · rw [mem_inUse_pool, hkeys, hroom, if_pos hr, RoomKeys.mem_colors_allocateColor] at hc
        rw [hr]
        exact hc
      · rintro (id | socketId) c hc
        · rcases hc with ⟨hid, rfl⟩ | ⟨hne, j', hj', rfl, hroom', hc⟩
          · refine ⟨_, (hjoins _).mpr (Or.inl rfl), (Sum.inl.inj hid).symm, hr.symm, ?_⟩
            exact List.mem_singleton_self _
          · exact ⟨j', (hjoins j').mpr (Or.inr ⟨hj', fun h ↦ hne (congrArg Sum.inl h)⟩), rfl,
              hroom', hc⟩
        · rcases hc with ⟨hid, -⟩ | ⟨-, hc⟩
          · cases hid
          · rw [mem_holds_inr, hkeys, hroom, if_pos hr, RoomKeys.Wears,
              RoomKeys.users_allocateColor, ← hr]
            exact hc
    · rw [if_neg hr] at hroom
      refine backed_mono (hb r) (by rw [hkeys, hroom]; exact fun _ ↦ id)
        (by rw [hkeys, hroom]; exact fun _ _ ↦ id) fun j' hj' hr' hres' ↦ ?_
      exact (hjoins j').mpr (Or.inr ⟨hj', id_ne_of_reserved hj (.inl hres) hj' hr' hres'⟩)
  | rejected => exact backed_finish (hb r) hj (.inl hres) rfl rfl
  | lost =>
    refine backed_finish (hb r) hj (.inl hres) (hroom.trans ?_) rfl
    split_ifs with hr
    · rw [hr, (RoomKeys.allocateColor_of_exhausted (hok j hj rfl)).2]
    · rfl

/-- The script of a registration runs. The handler gives its color to the entry. -/
theorem backed_register {now : ℕ} (hb : ∀ r, (s.pool r).Backed) (hj : j ∈ s.joins)
    (hphase : j.phase = .registering c) (hok : s.OverwritesNone j)
    (hkeys : t.keys = (s.keys.join j.roomId (j.user c) now).2)
    (hjoins : ∀ j' ∈ s.joins, j'.id ≠ j.id → j' ∈ t.joins) (r : String) : (t.pool r).Backed := by
  have hres : j.reserved = [c] := by rw [JoinCall.reserved, hphase]
  have hroom : t.keys.room r
      = if r = j.roomId then (s.keys.room j.roomId).join (j.user c) now else s.keys.room r := by
    rw [hkeys, Keyspace.room_join]
  by_cases hr : r = j.roomId
  · subst hr
    rw [if_pos rfl] at hroom
    -- first the entry takes the color, then the handler is without it
    have hold : (s.pool j.roomId).SharesBut (.inr j.socketId) (some c) := by
      rintro d ⟨u, hu, hid, rfl⟩ hmarked hne
      rcases hok c (hres ▸ List.mem_singleton_self c) u hu hid with heq | hothers
      · exact absurd (congrArg some heq) hne
      · exact hothers.exists_holds hmarked
    have hnew : ((s.pool j.roomId).acquire (.inr j.socketId) c).SharesBut (.inl j.id) none := by
      rintro d (⟨hid, -⟩ | ⟨-, hd⟩) - -
      · cases hid
      · have hdc := (reserved_of_holds hj hd).2
        rw [hres, List.mem_singleton] at hdc
        exact ⟨.inr j.socketId, Sum.inr_ne_inl, Or.inl ⟨rfl, hdc⟩⟩
    refine (((hb j.roomId).acquire hold).forget hnew).mono (fun d hd ↦ ?_) ?_
    · rw [mem_inUse_pool, hroom, RoomKeys.join] at hd
      dsimp only at hd
      split_ifs at hd with hempty
      · exact Or.inr hd
      · exact Finset.mem_insert.mp hd
    · rintro (id | socketId) d ⟨hne, ⟨hid, hd⟩ | ⟨hne', hd⟩⟩
      · cases hid
      · obtain ⟨j', hj', rfl, hroom', hd⟩ := hd
        exact ⟨j', hjoins j' hj' fun h ↦ hne (congrArg Sum.inl h), rfl, hroom', hd⟩
      · rw [mem_holds_inr, hroom, RoomKeys.wears_join]
        exact Or.inl ⟨Sum.inr.inj hid, hd⟩
      · rw [mem_holds_inr, hroom, RoomKeys.wears_join]
        exact Or.inr ⟨fun h ↦ hne' (congrArg Sum.inr h), hd⟩
  · rw [if_neg hr] at hroom
    refine backed_mono (hb r) (by rw [hroom]; exact fun _ ↦ id)
      (by rw [hroom]; exact fun _ _ ↦ id) fun j' hj' hr' hres' ↦ ?_
    exact hjoins j' hj' (id_ne_of_reserved hj (.inr (Ne.symm hr)) hj' hr' hres')

theorem backed_join {outcome : Outcome} {now : ℕ} (hb : ∀ r, (s.pool r).Backed) (hj : j ∈ s.joins)
    (hphase : j.phase = .registering c) (hok : s.Tidy (.join j.id now outcome)) (r : String) :
    ((s.join j c now outcome).pool r).Backed := by
  cases outcome with
  | resolved =>
    exact backed_register (t := s.join j c now .resolved) hb hj hphase (hok j hj rfl) rfl
      (fun j' hj' hne ↦ mem_joins_await.mpr (Or.inr ⟨hj', hne⟩)) r
  | lost =>
    exact backed_register (t := s.join j c now .lost) hb hj hphase (hok j hj rfl) rfl
      (fun j' hj' hne ↦ mem_joins_finish.mpr ⟨hj', hne⟩) r
  | rejected =>
    by_cases hr : j.roomId = r
    · have hshares : (s.pool r).SharesBut (.inl j.id) none := by
        intro d hd hmarked _
        subst hr
        exact (hok j hj rfl d (reserved_of_holds hj hd).2).exists_holds hmarked
      refine ((hb r).forget hshares).mono (fun _ hd ↦ hd) ?_
      rintro (id | socketId) d ⟨hne, hd⟩
      · obtain ⟨j', hj', rfl, hroom', hd⟩ := hd
        exact ⟨j', mem_joins_finish.mpr ⟨hj', fun h ↦ hne (congrArg Sum.inl h)⟩, rfl, hroom', hd⟩
      · exact hd
    · exact backed_finish (hb r) hj (.inr hr) rfl rfl

theorem backed_reap (hb : ∀ r, (s.pool r).Backed) {roomId : String} {ids : List String}
    (hroom : ∀ r, t.keys.room r
      = if r = roomId then (s.keys.room roomId).reap ids else s.keys.room r)
    (hjoins : t.joins = s.joins) (r : String) : (t.pool r).Backed := by
  by_cases hr : r = roomId
  · subst hr
    have hroom := (hroom r).trans (if_pos rfl)
    refine ((hb r).release (G := {h | ∃ id ∈ ids, h = .inr id})).mono (fun d hd ↦ ?_) ?_
    · rw [mem_inUse_pool, hroom, RoomKeys.mem_colors_reap] at hd
      refine ⟨hd.1, ?_⟩
      rintro h ⟨id, hid, rfl⟩ hw
      exact hd.2 id hid hw
    · rintro (id | socketId) d ⟨hnot, hd⟩
      · obtain ⟨j', hj', hrest⟩ := hd
        exact ⟨j', hjoins ▸ hj', hrest⟩
      · rw [mem_holds_inr, hroom, RoomKeys.wears_reap]
        exact ⟨fun hid ↦ hnot ⟨socketId, hid, rfl⟩, hd⟩
  · have hroom := (hroom r).trans (if_neg hr)
    exact backed_mono (hb r) (by rw [hroom]; exact fun _ ↦ id)
      (by rw [hroom]; exact fun _ _ ↦ id) fun j' hj' _ _ ↦ hjoins ▸ hj'

theorem backed_step {e : Event} (hb : ∀ r, (s.pool r).Backed) (hok : s.Tidy e)
    (h : s.step e = some t) (r : String) : (t.pool r).Backed := by
  cases Step.of_step h with
  | joinRoom =>
    exact backed_mono (hb r) (fun _ ↦ id) (fun _ _ ↦ id) fun j' hj' _ _ ↦
      Table.mem_insertIgnore.mpr (Or.inl hj')
  | allocateColor j outcome hj hphase => exact backed_allocateColor hb hj hphase hok r
  | join j cursorColor now outcome hj hphase => exact backed_join hb hj hphase hok r
  | loadForJoin j members history hj hphase =>
    have hres : j.reserved = [] := by rw [JoinCall.reserved, hphase]
    cases history <;> exact backed_finish (hb r) hj (.inl hres) rfl rfl
  | cursorMove socketId roomId x y now =>
    refine backed_mono (hb r) (fun c hc ↦ ?_) (fun id c hw ↦ ?_) fun j' hj' _ _ ↦ hj'
    · rw [Keyspace.room_updateCursor] at hc
      split_ifs at hc with hr
      · rwa [RoomKeys.colors_updateCursor, ← hr] at hc
      · exact hc
    · rw [Keyspace.room_updateCursor]
      split_ifs with hr
      · rwa [RoomKeys.wears_updateCursor, ← hr]
      · exact hw
  | disconnecting socketId => exact hb r
  | leave l outcome hl hphase =>
    cases outcome with
    | resolved =>
      exact backed_reap (t := s.leave l .resolved) hb (fun r ↦ Keyspace.room_leave) rfl r
    | rejected => exact hb r
    | lost => exact backed_reap (t := s.leave l .lost) hb (fun r ↦ Keyspace.room_leave) rfl r
  | notify l members hl hphase => exact hb r
  | sweepRoom roomId cutoff =>
    exact backed_reap (t := { s with keys := (s.keys.sweepRoom roomId cutoff).2 }) hb
      (fun r ↦ Keyspace.room_sweepRoom) rfl r

theorem backed_of_reaches (h : machine.Reaches Tidy s) (r : String) : (s.pool r).Backed := by
  obtain ⟨s₀, rfl, hsteps⟩ := h
  induction hsteps generalizing r with
  | refl => exact fun c hc ↦ absurd hc (Finset.notMem_empty c)
  | tail _ hok hstep ih => exact backed_step ih hok hstep r

/-- **No color leaks.** After a tidy run, once no handler is between its allocation and its end,
every color in use is the color of a user who is present. -/
theorem colors_worn (hs : machine.Reaches Tidy s) (hidle : ∀ j ∈ s.joins, j.phase = .allocating)
    (hc : c ∈ (s.keys.room r).colors) : ∃ u ∈ (s.keys.room r).users, u.cursorColor = c := by
  obtain ⟨id | socketId, hholds⟩ := backed_of_reaches hs r c hc
  · obtain ⟨j, hj, -, -, hres⟩ := mem_holds_inl.mp hholds
    rw [JoinCall.reserved, hidle j hj] at hres
    exact absurd hres List.not_mem_nil
  · obtain ⟨u, hu, -, hcolor⟩ := hholds
    exact ⟨u, hu, hcolor⟩

/-- A handler of socket `a`, from its start to its end. -/
private def joinOnce (id : ℕ) : List Event :=
  [.joinRoom id "a" "board-1" "Al" (some "u-a"), .allocateColor id .resolved,
    .join id 1000 .resolved, .loadForJoin id (some { strokes := [] })]

/-- No handler is under way and the first color of the pool is in use. -/
private def firstInUse (s : Server) : Bool :=
  s.joins.rows.isEmpty && decide ("#f43f5e" ∈ (s.keys.room "board-1").colors)

/-- One user joins, and has the one color in use. -/
theorem colors_worn_one : ∃ s : Server,
    "#f43f5e" ∈ (s.keys.room "board-1").colors ∧
      ∃ u ∈ (s.keys.room "board-1").users, u.cursorColor = "#f43f5e" := by
  obtain ⟨s, hs, hsteps, hp⟩ : ∃ s, machine.exec start (joinOnce 0) = some s ∧
      machine.Steps Tidy start s ∧ firstInUse s = true :=
    Machine.exists_of_guarded_any start (joinOnce 0) (by decide)
  rw [firstInUse, Bool.and_eq_true, List.isEmpty_iff, decide_eq_true_iff] at hp
  refine ⟨s, hp.2, colors_worn ⟨start, rfl, hsteps⟩ (fun j hj ↦ ?_) hp.2⟩
  rw [← Table.mem_rows, hp.1] at hj
  exact absurd hj List.not_mem_nil

/-- The color of an overwritten entry stays in use. -/
private def leaks (s : Server) : Bool :=
  s.joins.rows.isEmpty && decide ("#f43f5e" ∈ (s.keys.room "board-1").colors) &&
    (s.keys.room "board-1").users.rows.all fun u ↦ decide (u.cursorColor ≠ "#f43f5e")

/-- A socket joins the room it is in once more, and its first color is lost to the pool. -/
theorem color_leaked_by_rejoin : ¬∀ (s : Server) (r c : String),
    machine.Reaches Machine.anyStep s → (∀ j ∈ s.joins, j.phase = .allocating) →
      c ∈ (s.keys.room r).colors → ∃ u ∈ (s.keys.room r).users, u.cursorColor = c := by
  intro hclaim
  obtain ⟨s, hs, hsteps, hp⟩ := Machine.exists_of_exec (M := machine) (p := leaks) start
    (joinOnce 0 ++ joinOnce 1) (by decide)
  rw [leaks, Bool.and_eq_true, Bool.and_eq_true, List.isEmpty_iff, decide_eq_true_iff,
    List.all_eq_true] at hp
  obtain ⟨u, hu, hcolor⟩ := hclaim s "board-1" "#f43f5e" ⟨start, rfl, hsteps⟩
    (fun j hj ↦ absurd (hp.1.1 ▸ Table.mem_rows.mpr hj) List.not_mem_nil) hp.1.2
  exact absurd hcolor (of_decide_eq_true (hp.2 u hu))

end Server

end Synapse.Presence
