import Synapse.Presence.Service

/-!
# Distinct cursor colors

The color set of a room says which colors are in use and not by how many users. Up to the size of
the pool that is enough as long as every color in use is used once. A room that grows past the pool
breaks this: the allocation then hands out a color that someone has. When either of the two leaves,
`SREM` releases the color under the other, and the next user to join is given it again, however few
users are left by then.

## When colors are distinct

The discipline `Orderly` is about the calls that go wrong. Nobody is removed whose color is also
that of a user who stays or of a join under way; and when a room holds no more users than the pool
has colors once a user has joined, that user was not handed a color from an exhausted pool, nor was
anyone present with the same color. In such runs the color set covers every color in use, and the
colors that were reserved for somebody are pairwise distinct (`Service.Sound`).
-/

namespace Synapse.Presence

open Keyed Transition Reservation

namespace Service

variable {s t : Service} {roomId socketId r c : String} {user v : User} {now : ℕ}

/-- Removing the sockets in `ids` from the room takes no color from a user who stays, nor from a
join under way. -/
def Spares (s : Service) (roomId : String) (ids : List String) : Prop :=
  ∀ u ∈ (s.keys.room roomId).users.rows, u.socketId ∈ ids →
    (∀ v ∈ (s.keys.room roomId).users.rows, v.socketId ∉ ids → v.cursorColor ≠ u.cursorColor) ∧
      ∀ a ∈ s.allocated.rows, a.roomId = roomId → a.cursorColor ≠ u.cursorColor

/-- Once the user has joined the room holds more users than the pool has colors, or neither the
user nor anyone present with that color was handed it from an exhausted pool. -/
def HandedAlone (s : Service) (roomId : String) (user : User) : Prop :=
  colorPoolSize ≤ (s.keys.room roomId).users.rows.length ∨
    ((roomId, user.socketId) ∉ s.overflowed ∧ ∀ v ∈ (s.keys.room roomId).users.rows,
      v.cursorColor = user.cursorColor → (roomId, v.socketId) ∉ s.overflowed)

/-- The call does not put the color set at odds with the colors in use. -/
def Orderly (s : Service) : Call → Prop
  | .leave roomId socketId => s.Spares roomId [socketId]
  | .sweepRoom roomId cutoff => s.Spares roomId ((s.keys.room roomId).stale cutoff)
  | .join roomId user _ => s.HandedAlone roomId user
  | _ => True

instance (s : Service) (roomId : String) (ids : List String) : Decidable (s.Spares roomId ids) :=
  inferInstanceAs (Decidable (∀ u ∈ (s.keys.room roomId).users.rows, _ → _ ∧ _))

instance (s : Service) (roomId : String) (user : User) : Decidable (s.HandedAlone roomId user) :=
  inferInstanceAs (Decidable (_ ∨ _))

instance (s : Service) (a : Call) : Decidable (s.Orderly a) :=
  match a with
  | .leave roomId socketId => inferInstanceAs (Decidable (s.Spares roomId [socketId]))
  | .sweepRoom roomId cutoff =>
    inferInstanceAs (Decidable (s.Spares roomId ((s.keys.room roomId).stale cutoff)))
  | .join roomId user _ => inferInstanceAs (Decidable (s.HandedAlone roomId user))
  | .allocateColor .. | .updateCursor .. | .heartbeat .. => inferInstanceAs (Decidable True)

/-- What the color sets owe to the users. -/
structure Sound (s : Service) : Prop where
  /-- Who is about to join a room is not in it. -/
  apart : ∀ a ∈ s.allocated, ∀ u ∈ (s.keys.room a.roomId).users, u.socketId ≠ a.socketId
  /-- Every color in use is marked. -/
  covered : ∀ r, (s.pool r).Covered
  /-- The colors reserved for somebody are distinct. -/
  exclusive : ∀ r, (s.pool r).Exclusive (s.firm r)

theorem Sound.start : start.Sound where
  apart := fun _ ha ↦ (List.not_mem_nil ha).elim
  covered := fun _ _ _ hc ↦ hc.elim (fun ha ↦ (List.not_mem_nil ha).elim)
    fun ⟨_, hu, _⟩ ↦ (List.not_mem_nil hu).elim
  exclusive := fun _ _ _ _ _ _ hc ↦ hc.elim (fun ha ↦ (List.not_mem_nil ha).elim)
    fun ⟨_, hu, _⟩ ↦ (List.not_mem_nil hu).elim

/-! ## Steps -/

/-- A call about one room keeps the color sets sound if it does so in that room. -/
theorem Sound.of_room (hs : s.Sound) (hroom : ∀ r ≠ roomId, t.keys.room r = s.keys.room r)
    (hallocated : ∀ a : Allocation, a.roomId ≠ roomId → (a ∈ t.allocated ↔ a ∈ s.allocated))
    (hfirm : ∀ r ≠ roomId, ∀ id ∈ t.firm r, id ∈ s.firm r)
    (hapart : ∀ a ∈ t.allocated, a.roomId = roomId →
      ∀ u ∈ (t.keys.room roomId).users, u.socketId ≠ a.socketId)
    (hcovered : (t.pool roomId).Covered)
    (hexclusive : (t.pool roomId).Exclusive (t.firm roomId)) : t.Sound := by
  have hpool : ∀ r ≠ roomId, t.pool r = s.pool r := fun r hr ↦
    pool_eq_of_room_eq (hroom r hr) fun _ _ ↦ hallocated _ hr
  refine ⟨fun a ha u hu ↦ ?_, fun r ↦ ?_, fun r ↦ ?_⟩
  · by_cases hr : a.roomId = roomId
    · exact hapart a ha hr u (hr ▸ hu)
    · rw [hroom _ hr] at hu
      exact hs.apart a ((hallocated a hr).mp ha) u hu
  · by_cases hr : r = roomId
    · rw [hr]
      exact hcovered
    · rw [hpool r hr]
      exact hs.covered r
  · by_cases hr : r = roomId
    · rw [hr]
      exact hexclusive
    · rw [hpool r hr]
      exact (hs.exclusive r).mono (hfirm r hr)

theorem mem_firm_of_allocateColor {id : String} (hne : (r, id) ≠ (roomId, socketId))
    (hid : id ∈ (s.allocateColor roomId socketId).firm r) : id ∈ s.firm r := by
  refine fun hmem ↦ hid ?_
  rw [Service.allocateColor, overflow]
  split_ifs
  · exact Finset.mem_insert_of_mem hmem
  · exact Finset.mem_erase.mpr ⟨hne, hmem⟩

theorem Sound.allocateColor (hs : s.Sound) (hmay : s.MayJoin roomId socketId) :
    (s.allocateColor roomId socketId).Sound := by
  have habsent := Table.get?_eq_none.mp hmay.1
  refine hs.of_room (fun r hr ↦ Keyspace.room_allocateColor.trans (if_neg hr))
    (fun a ha ↦ ?_) (fun r hr id hid ↦ ?_) (fun a ha hr u hu ↦ ?_) ?_ ?_
  · rw [mem_allocated_allocateColor hmay]
    exact or_iff_left fun heq ↦ ha (congrArg Allocation.roomId heq)
  · exact mem_firm_of_allocateColor (fun heq ↦ hr (congrArg Prod.fst heq)) hid
  · rw [Service.allocateColor, Keyspace.room_allocateColor, if_pos rfl,
      RoomKeys.users_allocateColor] at hu
    rcases (mem_allocated_allocateColor hmay).mp ha with ha | rfl
    · exact hs.apart a ha u (hr ▸ hu)
    · exact habsent u hu
  · rw [pool_allocateColor hmay]
    exact (hs.covered roomId).acquire
  · rw [pool_allocateColor hmay]
    by_cases hex : (s.keys.room roomId).Exhausted
    · -- the color is somebody's, so the socket does not count among those with their own
      refine (hs.exclusive roomId).acquire_marked.mono fun id hid ↦ ?_
      have hne : id ≠ socketId := by
        rintro rfl
        rw [mem_firm, Service.allocateColor, overflow, if_pos hex] at hid
        exact hid (Finset.mem_insert_self _ _)
      exact ⟨mem_firm_of_allocateColor (fun heq ↦ hne (congrArg Prod.snd heq)) hid, hne⟩
    · have hunmarked := (RoomKeys.allocateColor_of_not_exhausted hex).1
      refine ((hs.exclusive roomId).acquire_unmarked (hs.covered roomId) hunmarked).mono
        fun id hid ↦ ?_
      by_cases heq : id = socketId
      · exact Or.inl heq
      · exact Or.inr (mem_firm_of_allocateColor (fun h ↦ heq (congrArg Prod.snd h)) hid)

theorem Sound.join (hs : s.Sound)
    (hmem : (⟨roomId, user.socketId, user.cursorColor⟩ : Allocation) ∈ s.allocated) :
    (s.join roomId user now).Sound := by
  have hheld : user.cursorColor ∈ (s.pool roomId).holds user.socketId := Or.inl hmem
  have hpool : (s.join roomId user now).pool roomId
      = (s.pool roomId).acquire user.socketId user.cursorColor :=
    pool_join (hs.covered roomId _ hheld)
  refine hs.of_room (fun r hr ↦ Keyspace.room_join.trans (if_neg hr))
    (fun a ha ↦ ?_) (fun r _ id hid ↦ hid) (fun a ha hr u hu ↦ ?_) ?_ ?_
  · rw [mem_allocated_join]
    exact and_iff_left fun heq ↦ ha (congrArg Prod.fst heq)
  · obtain ⟨ha, hcall⟩ := mem_allocated_join.mp ha
    rw [Service.join, Keyspace.room_join, if_pos rfl, RoomKeys.mem_users_join] at hu
    rcases hu with rfl | ⟨hu, -⟩
    · exact fun heq ↦ hcall (Prod.ext hr heq.symm)
    · exact hs.apart a ha u (hr ▸ hu)
  · rw [hpool]
    exact (hs.covered roomId).acquire
  · rw [hpool]
    exact (hs.exclusive roomId).acquire_held hheld

theorem Sound.reap (hs : s.Sound) {ids : List String} (hspares : s.Spares roomId ids)
    {keys : Keyspace}
    (hroom : ∀ r, keys.room r
      = if r = roomId then (s.keys.room roomId).reap ids else s.keys.room r) :
    ({ s with keys := keys } : Service).Sound := by
  have hself := (hroom roomId).trans (if_pos rfl)
  have hpool := pool_reap (t := { s with keys := keys }) hs.apart hself rfl
  have hsp : (s.pool roomId).Spares {id | id ∈ ids ∧ ∃ c, (s.keys.room roomId).Wears id c} := by
    rintro id ⟨hid, d, u, hu, rfl, rfl⟩ id' hid' c hc hc'
    have hcu : c = u.cursorColor := by
      rcases hc with ha | hw
      · exact absurd rfl (hs.apart _ ha u hu)
      · exact hw.unique ⟨u, hu, rfl, rfl⟩
    obtain ⟨hstay, hjoining⟩ := hspares u hu hid
    rcases hc' with ha | ⟨v, hv, rfl, hvc⟩
    · exact hjoining _ ha rfl hcu
    · exact hstay v hv (fun h ↦ hid' ⟨h, _, v, hv, rfl, rfl⟩) (hvc.trans hcu)
  refine hs.of_room (fun r hr ↦ (hroom r).trans (if_neg hr)) (fun _ _ ↦ Iff.rfl)
    (fun _ _ _ hid ↦ hid) (fun a ha hr u hu ↦ ?_) ?_ ?_
  · rw [hself] at hu
    exact hs.apart a ha u (hr ▸ (RoomKeys.mem_users_reap.mp hu).1)
  · rw [hpool]
    exact (hs.covered roomId).release hsp
  · rw [hpool]
    exact (hs.exclusive roomId).release

theorem Sound.refresh (hs : s.Sound) {keys : Keyspace} {room : RoomKeys}
    (hroom : ∀ r, keys.room r = if r = roomId then room else s.keys.room r)
    (hcolors : room.colors = (s.keys.room roomId).colors)
    (hwears : ∀ id c, room.Wears id c ↔ (s.keys.room roomId).Wears id c) :
    ({ s with keys := keys } : Service).Sound := by
  have hself := (hroom roomId).trans (if_pos rfl)
  have hpool : ({ s with keys := keys } : Service).pool roomId = s.pool roomId :=
    pool_congr (by rw [hself, hcolors]) (fun id c ↦ by rw [hself, hwears]) fun _ _ ↦ Iff.rfl
  refine hs.of_room (fun r hr ↦ (hroom r).trans (if_neg hr)) (fun _ _ ↦ Iff.rfl)
    (fun _ _ _ hid ↦ hid) (fun a ha hr u hu ↦ ?_) (hpool ▸ hs.covered _) (hpool ▸ hs.exclusive _)
  rw [hself] at hu
  obtain ⟨v, hv, hid, -⟩ := (hwears u.socketId u.cursorColor).mp ⟨u, hu, rfl, rfl⟩
  exact hid ▸ hs.apart a ha v (hr ▸ hv)

theorem Sound.step {a : Call} (hs : s.Sound) (hok : s.Orderly a) (h : s.step a = some t) :
    t.Sound := by
  cases a with
  | allocateColor roomId socketId =>
    by_cases hmay : s.MayJoin roomId socketId
    · obtain rfl := Option.some.inj ((if_pos hmay).symm.trans h)
      exact hs.allocateColor hmay
    · exact absurd ((if_neg hmay).symm.trans h) (by simp)
  | join roomId user now =>
    by_cases hmem : (⟨roomId, user.socketId, user.cursorColor⟩ : Allocation) ∈ s.allocated
    · obtain rfl := Option.some.inj ((if_pos hmem).symm.trans h)
      exact hs.join hmem
    · exact absurd ((if_neg hmem).symm.trans h) (by simp)
  | leave roomId socketId =>
    obtain rfl := Option.some.inj h
    exact hs.reap hok fun r ↦ Keyspace.room_leave
  | sweepRoom roomId cutoff =>
    obtain rfl := Option.some.inj h
    exact hs.reap hok fun r ↦ Keyspace.room_sweepRoom
  | updateCursor roomId socketId x y now =>
    obtain rfl := Option.some.inj h
    exact hs.refresh (fun r ↦ Keyspace.room_updateCursor) RoomKeys.colors_updateCursor
      fun _ _ ↦ RoomKeys.wears_updateCursor
  | heartbeat roomId socketId now =>
    obtain rfl := Option.some.inj h
    refine hs.refresh (fun r ↦ Keyspace.room_heartbeat) RoomKeys.colors_heartbeat fun _ _ ↦ ?_
    rw [RoomKeys.Wears, RoomKeys.users_heartbeat]
    rfl

theorem Sound.of_reaches (h : machine.Reaches Orderly s) : s.Sound := by
  obtain ⟨s₀, rfl, hsteps⟩ := h
  induction hsteps with
  | refl => exact Sound.start
  | tail _ hok hstep ih => exact ih.step hok hstep

/-- **Distinct cursor colors.** In an orderly run the color of a user who joins is nobody else's,
whenever the room then holds at most as many users as the pool has colors. -/
theorem joined_color_distinct (hs : machine.Reaches Orderly s)
    (hok : s.Orderly (.join roomId user now)) (hstep : s.step (.join roomId user now) = some t)
    (hle : (t.keys.room roomId).users.rows.length ≤ colorPoolSize)
    (hv : v ∈ (t.keys.room roomId).users) (hne : v.socketId ≠ user.socketId) :
    v.cursorColor ≠ user.cursorColor := by
  have hsound := Sound.of_reaches hs
  by_cases hmem : (⟨roomId, user.socketId, user.cursorColor⟩ : Allocation) ∈ s.allocated
  · obtain rfl := Option.some.inj ((if_pos hmem).symm.trans hstep)
    have hroom : (s.join roomId user now).keys.room roomId
        = (s.keys.room roomId).join user now := Keyspace.room_setRoom_self
    have habsent : (s.keys.room roomId).users.get? user.socketId = none :=
      Table.get?_eq_none.mpr fun u hu ↦ hsound.apart _ hmem u hu
    rw [hroom, RoomKeys.length_users_join habsent] at hle
    rw [hroom, RoomKeys.mem_users_join] at hv
    obtain ⟨hv, -⟩ := hv.resolve_left fun heq ↦ hne (by rw [heq])
    obtain ⟨hfirm, hothers⟩ := hok.resolve_left (by omega)
    -- both colors were reserved, so one user would be the other
    intro hcolor
    exact hne (hsound.exclusive roomId _ (hothers v hv hcolor) _ hfirm user.cursorColor
      (Or.inr ⟨v, hv, rfl, hcolor⟩) (Or.inl hmem))
  · exact absurd ((if_neg hmem).symm.trans hstep) (by simp)

/-- Two users are allocated a color, and one of them is registered. -/
private def pairRun : List Call :=
  [.allocateColor "board-1" "a", .allocateColor "board-1" "b",
    .join "board-1" ⟨"a", "u-a", "Al", "#f43f5e", none⟩ 0]

private def second : User := ⟨"b", "u-b", "Bo", "#3b82f6", none⟩

/-- The other may be registered too. -/
private def secondMayJoin (s : Service) : Bool :=
  decide (s.Orderly (.join "board-1" second 0)) &&
    (s.step (.join "board-1" second 0)).any fun t ↦
      decide ((t.keys.room "board-1").users.rows.length ≤ colorPoolSize)

/-- A room of two is joined in an orderly way. -/
theorem joined_color_distinct_pair : ∃ s t : Service, s.step (.join "board-1" second 0) = some t ∧
    ∀ v ∈ (t.keys.room "board-1").users, v.socketId ≠ second.socketId →
      v.cursorColor ≠ second.cursorColor := by
  obtain ⟨s, hs, hsteps, hp⟩ : ∃ s, machine.exec start pairRun = some s ∧
      machine.Steps Orderly start s ∧ secondMayJoin s = true :=
    Machine.exists_of_guarded_any start pairRun (by decide)
  rw [secondMayJoin, Bool.and_eq_true, decide_eq_true_iff] at hp
  obtain ⟨t, ht, hle⟩ := (Option.any_eq_true _ _).mp hp.2
  exact ⟨s, t, ht, fun v hv hne ↦
    joined_color_distinct ⟨start, rfl, hsteps⟩ hp.1 ht (of_decide_eq_true hle) hv hne⟩

/-- The sockets of a room that outgrows the pool by one. -/
private def crowd : List String :=
  ["a", "b", "c", "d", "e", "f", "g", "h", "i", "j", "k", "l", "m", "n", "o", "p", "q", "r", "s",
    "t", "u"]

/-- Everyone joins, one after the other, and the first two leave. The last socket of the crowd has
the color of the first, which is then released under it. -/
private def crowdedRun : List Call :=
  ((crowd.zip (cursorColors ++ ["#f43f5e"])).flatMap fun p ↦
    [.allocateColor "board-1" p.1, .join "board-1" ⟨p.1, p.1, p.1, p.2, none⟩ 0]) ++
  [.leave "board-1" "a", .leave "board-1" "b", .allocateColor "board-1" "v"]

/-- The next to join makes twenty users, two of them in one color. -/
private def clashes (s : Service) : Bool :=
  (s.step (.join "board-1" ⟨"v", "v", "v", "#f43f5e", none⟩ 0)).any fun t ↦
    decide ((t.keys.room "board-1").users.rows.length ≤ colorPoolSize) &&
      decide (⟨"u", "u", "u", "#f43f5e", none⟩ ∈ (t.keys.room "board-1").users)

/-- A room that has outgrown the pool hands out a color that is worn, once it has shrunk again. -/
theorem color_shared_after_overflow : ¬∀ (s t : Service) (roomId : String) (user v : User)
    (now : ℕ), machine.Reaches Machine.anyStep s → s.step (.join roomId user now) = some t →
      (t.keys.room roomId).users.rows.length ≤ colorPoolSize →
      v ∈ (t.keys.room roomId).users → v.socketId ≠ user.socketId →
      v.cursorColor ≠ user.cursorColor := by
  intro hclaim
  obtain ⟨s, hs, hsteps, hp⟩ :=
    Machine.exists_of_exec (M := machine) (p := clashes) start crowdedRun (by decide +kernel)
  obtain ⟨t, ht, hp⟩ := (Option.any_eq_true _ _).mp hp
  rw [Bool.and_eq_true, decide_eq_true_iff, decide_eq_true_iff] at hp
  exact hclaim s t "board-1" _ _ 0 ⟨start, rfl, hsteps⟩ ht hp.1 hp.2 (by decide) rfl

end Service

end Synapse.Presence
