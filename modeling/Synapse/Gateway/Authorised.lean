import Synapse.Gateway.Actions

/-!
# Acting under one's own authority

What a handler does in a room is covered when the middleware has verified a token for that room
from the packet itself. The middleware reads the room id from a bare string or from the `roomId` of
an object. The schemas accept a room id from the same place, so `draw`, `cursor-move` and `clear`
act in the room that was read. `request-resync` does not read bare strings, and without a `roomId`
it answers for the room the socket has joined. For such a packet the middleware has read nothing, or
another room, and an expired token is as good as any.
-/

namespace Synapse.Gateway

variable {config : AuthGuardConfig} {ctx ctx' : ConnectionContext} {now : ℕ} {event : ActionEvent}
  {args : List (Option Json)} {services : Services} {room : Json}

/-- What a packet of an action leads to: `guard` sees it in the context `ctx`, and the handler runs
in the context `ctx'`. -/
def process (config : AuthGuardConfig) (ctx ctx' : ConnectionContext) (now : ℕ)
    (event : ActionEvent) (args : List (Option Json)) (services : Services) : List Effect :=
  let p : Packet := ⟨.action event, args⟩
  if (guard config ctx now p).1.passes then handle event ctx' services p.data
  else [.error "UNAUTHORIZED" "A valid join token scoped to this room is required"]

/-- The middleware verified a token for the room while it saw the packet. -/
def Covered (config : AuthGuardConfig) (ctx : ConnectionContext) (now : ℕ) (p : Packet)
    (room : Json) : Prop :=
  ∃ roomId token userId, room = .str roomId ∧
    (guard config ctx now p).1 = .authorized (some token) roomId userId ∧
      config.jwt.Grants token now roomId

/-- The packet passes, and is a resync that names no room while the socket has joined one, other
than the one the middleware may have read. -/
def FallsBack (config : AuthGuardConfig) (ctx ctx' : ConnectionContext) (now : ℕ)
    (event : ActionEvent) (args : List (Option Json)) : Prop :=
  let p : Packet := ⟨.action event, args⟩
  event = .requestResync ∧ nonemptyString (Json.prop p.data "roomId") = none ∧
    Json.truthy ctx'.currentRoomId ∧ (guard config ctx now p).1.passes ∧
      ∀ r, extractRoomId p.data = some r → ctx'.currentRoomId ≠ some (.str r)

theorem covered_of_passes (hopen : config.openMode = false) {p : Packet} {r : String}
    (hscoped : p.event.roomScoped) (hread : extractRoomId p.data = some r)
    (hpasses : (guard config ctx now p).1.passes) : Covered config ctx now p (.str r) := by
  obtain ⟨token, userId, hguard, hverify⟩ := authorized_of_passes hscoped hread hpasses
  obtain ⟨t, rfl, hgrants⟩ := grants_of_verifyJoinToken hopen hverify
  exact ⟨r, t, userId, rfl, hguard, hgrants⟩

/-! ## Where a handler takes the room from -/

theorem extractRoomId_of_prop {data : Option Json} {r : String}
    (h : Json.prop data "roomId" = some (.str r) ∧ Schemas.isRoomId r) :
    extractRoomId data = some r :=
  extractRoomId_eq_some.mpr ⟨Or.inr h.1, Schemas.ne_empty_of_isRoomId h.2⟩

theorem extractRoomId_of_draw {raw : Option Json} {e : Effect} (he : e ∈ draw ctx services raw)
    (hroom : e.roomId = some room) : ∃ r, room = .str r ∧ extractRoomId raw = some r := by
  unfold draw at he
  split_ifs at he
  · cases List.mem_singleton.mp he
    cases hroom
  · split at he
    · cases List.mem_singleton.mp he
      cases hroom
    · next r stroke hparse =>
      have hread := extractRoomId_of_prop (Schemas.roomId_of_draw hparse)
      split_ifs at he
      · exact absurd he List.not_mem_nil
      · refine ⟨r, ?_, hread⟩
        rcases List.mem_cons.mp he with rfl | he
        · exact (Option.some.inj hroom).symm
        · split at he
          · exact absurd he List.not_mem_nil
          · rcases List.mem_pair.mp he with rfl | rfl <;> exact (Option.some.inj hroom).symm

theorem extractRoomId_of_cursorMove {data : Option Json} {e : Effect}
    (he : e ∈ cursorMove ctx services data) (hroom : e.roomId = some room) :
    ∃ r, room = .str r ∧ extractRoomId data = some r := by
  unfold cursorMove at he
  split_ifs at he
  · exact absurd he List.not_mem_nil
  · split at he
    · cases List.mem_singleton.mp he
      cases hroom
    · next r x y hparse =>
      have hread := extractRoomId_of_prop (Schemas.roomId_of_cursorMove hparse)
      split_ifs at he
      · exact absurd he List.not_mem_nil
      · refine ⟨r, ?_, hread⟩
        rcases List.mem_pair.mp he with rfl | rfl <;> exact (Option.some.inj hroom).symm

theorem extractRoomId_of_clear {data : Option Json} {e : Effect} (he : e ∈ clear ctx data)
    (hroom : e.roomId = some room) : ∃ r, room = .str r ∧ extractRoomId data = some r := by
  unfold clear at he
  split at he
  · cases List.mem_singleton.mp he
    cases hroom
  · next r hparse =>
    split_ifs at he
    · exact absurd he List.not_mem_nil
    · cases List.mem_singleton.mp he
      obtain ⟨hprop, hid⟩ := Schemas.roomId_of_clear hparse
      refine ⟨r, (Option.some.inj hroom).symm, ?_⟩
      unfold clearPayload at hprop
      split at hprop
      · -- a bare string was wrapped in an object, and the middleware reads it as it is
        next s =>
        have hs : s = r := by simpa [Json.prop] using hprop
        exact extractRoomId_eq_some.mpr ⟨Or.inl (by rw [hs]), Schemas.ne_empty_of_isRoomId hid⟩
      · exact extractRoomId_of_prop ⟨hprop, hid⟩

theorem resyncRoomId_of_resync {data : Option Json} {e : Effect}
    (he : e ∈ resync ctx services data) (hroom : e.roomId = some room) :
    resyncRoomId ctx data = some room ∧ Json.truthy (resyncRoomId ctx data) := by
  unfold resync at he
  split_ifs at he with htruthy
  · cases List.mem_singleton.mp he
    cases hroom
  · refine ⟨?_, by simpa using htruthy⟩
    split at he
    · exact absurd he List.not_mem_nil
    · next room' hroom' =>
      -- whatever is loaded, the one effect is an error or the history of `room'`
      dsimp only at he
      rw [hroom']
      split at he
      · cases List.mem_singleton.mp he
        cases hroom
      · split_ifs at he
        · cases List.mem_singleton.mp he
          exact hroom
        · split at he <;> cases List.mem_singleton.mp he
          · cases hroom
          · exact hroom

theorem extractRoomId_of_resync {data : Option Json} {e : Effect}
    (he : e ∈ resync ctx services data) (hroom : e.roomId = some room)
    (hcurrent : nonemptyString (Json.prop data "roomId") = none → Json.truthy ctx.currentRoomId →
      ∃ r, extractRoomId data = some r ∧ ctx.currentRoomId = some (.str r)) :
    ∃ r, room = .str r ∧ extractRoomId data = some r := by
  obtain ⟨hresync, htruthy⟩ := resyncRoomId_of_resync he hroom
  cases hprop : nonemptyString (Json.prop data "roomId") with
  | some r =>
    obtain ⟨hprop', hne⟩ := nonemptyString_eq_some.mp hprop
    rw [resyncRoomId, hprop] at hresync
    exact ⟨r, (Option.some.inj hresync).symm, extractRoomId_eq_some.mpr ⟨Or.inr hprop', hne⟩⟩
  | none =>
    rw [resyncRoomId, hprop] at hresync htruthy
    obtain ⟨r, hread, hjoined⟩ := hcurrent hprop htruthy
    exact ⟨r, Option.some.inj (hresync.symm.trans hjoined), hread⟩

/-- Whatever the histories loaded, a resync of a joined room sends one. -/
theorem history_mem_resync {data : Option Json} {roomId : Json} (history : RoomHistory)
    (hroom : resyncRoomId ctx data = some roomId) (htruthy : Json.truthy (some roomId)) :
    .history roomId history ∈ resync ctx ⟨true, none, fun _ _ ↦ some history⟩ data := by
  unfold resync
  rw [hroom, htruthy]
  simp

/-! ## When every action is covered -/

/-- **Acting under one's own authority.** Outside OPEN_MODE, whatever the services answer, every
effect in a room is covered by the packet itself, unless the packet falls back to the joined
room. -/
theorem effects_covered_iff (hopen : config.openMode = false) :
    (∀ services, ∀ e ∈ process config ctx ctx' now event args services, ∀ room,
      e.roomId = some room → Covered config ctx now ⟨.action event, args⟩ room) ↔
        ¬FallsBack config ctx ctx' now event args := by
  constructor
  · rintro hall ⟨rfl, hnone, htruthy, hpasses, hother⟩
    obtain ⟨room, hroom⟩ : ∃ room, ctx'.currentRoomId = some room := by
      cases h : ctx'.currentRoomId with
      | none =>
        rw [h] at htruthy
        cases htruthy
      | some room => exact ⟨room, rfl⟩
    have hresync : resyncRoomId ctx' (Packet.data ⟨.action .requestResync, args⟩) = some room := by
      rw [resyncRoomId, hnone, hroom]
    have hmem := history_mem_resync { strokes := [] } hresync (hroom ▸ htruthy)
    obtain ⟨r, token, userId, rfl, hguard, -⟩ :=
      hall ⟨true, none, fun _ _ ↦ some { strokes := [] }⟩ _ (by rwa [process, if_pos hpasses]) _ rfl
    exact hother r (extractRoomId_of_authorized hguard).1 hroom
  · intro hfalls services e he room hroom
    by_cases hpasses : (guard config ctx now ⟨.action event, args⟩).1.passes = true
    · rw [process, if_pos hpasses] at he
      have hread : ∃ r, room = .str r ∧
          extractRoomId (Packet.data ⟨.action event, args⟩) = some r := by
        cases event with
        | draw => exact extractRoomId_of_draw he hroom
        | cursorMove => exact extractRoomId_of_cursorMove he hroom
        | clear => exact extractRoomId_of_clear he hroom
        | requestResync =>
          refine extractRoomId_of_resync he hroom fun hprop htruthy ↦ ?_
          -- the joined room is answered for, so it must be the bare string that was read
          by_contra hno
          exact hfalls ⟨rfl, hprop, htruthy, hpasses, fun r hr hcurrent ↦ hno ⟨r, hr, hcurrent⟩⟩
      obtain ⟨r, rfl, hread⟩ := hread
      exact covered_of_passes hopen rfl hread hpasses
    · rw [process, if_neg hpasses] at he
      cases List.mem_singleton.mp he
      cases hroom

/-- A token for one room, good for five minutes. -/
private def boardConfig : AuthGuardConfig where
  jwt := .single "token-1" (.obj [("roomId", .str "board-1"), ("userId", .str "u-1")]) 300000
  openMode := false

/-- A connection that joined the room with the token of its handshake. -/
private def joined : ConnectionContext :=
  { socketId := "s-1", token := some "token-1", userId := some "u-1"
    currentRoomId := some (.str "board-1") }

/-- A resync that names its room is covered. -/
theorem effects_covered_named : Covered boardConfig joined 1000
    ⟨.action .requestResync, [some (.obj [("roomId", .str "board-1")])]⟩ (.str "board-1") := by
  have hnamed : ¬FallsBack boardConfig joined joined 1000 .requestResync
      [some (.obj [("roomId", .str "board-1")])] := fun h ↦ absurd h.2.1 (by decide)
  exact (effects_covered_iff rfl).mpr hnamed ⟨true, none, fun _ _ ↦ some { strokes := [] }⟩
    (.history (.str "board-1") { strokes := [] }) (by decide) _ rfl

/-- Ten minutes later the token has expired, and a resync without a room is answered for the joined
room all the same. -/
theorem resync_uncovered : ¬∀ (config : AuthGuardConfig) (ctx ctx' : ConnectionContext) (now : ℕ)
    (event : ActionEvent) (args : List (Option Json)) (services : Services) (e : Effect)
    (room : Json), config.openMode = false → e ∈ process config ctx ctx' now event args services →
      e.roomId = some room → Covered config ctx now ⟨.action event, args⟩ room := by
  intro hclaim
  obtain ⟨r, token, userId, -, hguard, -⟩ := hclaim boardConfig joined joined 600000 .requestResync
    [some (.obj [])] ⟨true, none, fun _ _ ↦ some { strokes := [] }⟩
    (.history (.str "board-1") { strokes := [] }) (.str "board-1") rfl (by decide) rfl
  cases hguard

end Synapse.Gateway
