import Synapse.Room.Screened

/-!
# Clears and draws on every screen

The server relays a clear between two strokes, so it orders the clears among the draws, and two
screens agree once both have applied them in this order. A screen departs from it in two ways. A
stroke is added to a scene whose client has cleared it, although the clear comes after the stroke or
has yet to reach the server. And a clear that arrives takes a segment that the client has drawn
itself and whose draw the server handles after the clear. No number on the clear tells the client,
and neither loss is made up for later.

`InTurn` excludes both. In a run of such steps the scene of a client shows the strokes above its
`base`, and once everything is delivered every base is the number of the latest clear.
-/

namespace Synapse

open Transition

theorem highestSeq_mono_of_subset {strokes strokes' : List PersistedStroke}
    (h : strokes ⊆ strokes') : highestSeq strokes 0 ≤ highestSeq strokes' 0 := by
  by_contra hlt
  obtain ⟨hpos, hall⟩ := highestSeq_lt_iff.mp (not_le.mp hlt)
  exact lt_irrefl _ (highestSeq_lt_iff.mpr ⟨hpos, fun k hk ↦ hall k (h hk)⟩)

/-- Whether the call is one of `append`. -/
def Caller.appends : Caller → Bool
  | .append _ _ _ => true
  | _ => false

namespace Whiteboard

variable {κ : Type*} [DecidableEq κ]

/-- Whether nobody joins or is lost, no draw is rejected and nothing fails in the step, and the
server is done with all it has received before it handles a clear. -/
def orderly (w : Whiteboard κ) : WhiteboardAction κ → Bool
  | .room (.connect _) => false
  | .room a => w.room.calm a
  | .relay _ => (w.room.board.insts ()).callers.all fun c ↦ !c.appends
  | _ => true

/-- Whether the step does to a scene what the order of the server asks for. -/
def InTurn (w : Whiteboard κ) : WhiteboardAction κ → Prop
  -- what is added to a scene comes after all the clears it has seen
  | .room (.deliver i) =>
    ∀ k ∈ w.room.adds i, (w.screens i).clearsUp = [] ∧ (w.screens i).base < k.seq
  -- a clear takes none of the client's own segments that come after it
  | .wipe i => ∀ c ∈ (w.screens i).clearsDown.head?, ∀ n seg, .drawn n seg ∈ w.scene i →
      ¬ w.room.Underway i n ∧ ∀ k, ⟨i, n, k⟩ ∈ w.room.issued → k.seq ≤ c.upTo
  | _ => True

/-- The steps that keep the screens in agreement. -/
def Commuting (cfg : Config) (w : Whiteboard κ) (a : WhiteboardAction κ) : Prop :=
  w.orderly a ∧ w.InTurn a ∧ ∀ b, a = .room b → w.room.Serves cfg b

/-- Nothing is on its way, and no handler is at work. -/
structure Quiescent (w : Whiteboard κ) : Prop where
  room : w.room.Quiescent
  up : ∀ i, (w.screens i).clearsUp = []
  down : ∀ i, (w.screens i).clearsDown = []

end Whiteboard

namespace Whiteboard

open Room (joinRun replyRun drawRun sampleUser)

variable {κ : Type*} [DecidableEq κ] {cfg : Config} {userOf : κ → String} {w w' : Whiteboard κ}
  {i j : κ}

/-- What makes the screens agree. -/
structure Agreeing (w : Whiteboard κ) : Prop where
  supplied : w.room.Supplied
  numbered : w.room.Numbered
  joined : ∀ i, (w.room.sockets i).inRoom
  last : w.last ≤ w.top
  screened : ∀ i, w.room.Screened i (w.screens i)
  upTo : ∀ i, (w.screens i).UpTo w.last

theorem screens_handleClear : (w.handleClear i).screens j = if j = i then
      ((w.screens i).clearBoard (w.room.sessions i).scene.length).emit (w.room.sockets i).up.length
    else w.screens j := by
  rw [handleClear]
  simp only [screens_setScreen, clearBoard, if_true]
  split_ifs <;> rfl

theorem screens_wipe {c : RelayedClear} {rest : List RelayedClear} :
    (w.wipe i c rest).screens j = if j = i then
      (((w.screens i).clearBoard (w.room.sessions i).scene.length).setClearsDown rest).setBase
        (max (w.screens i).base c.upTo)
    else w.screens j := by
  rw [wipe]
  simp only [screens_setScreen, clearBoard, if_true]
  split_ifs <;> rfl

theorem screens_relay {rest : List ℕ} (hroom : ∀ i, (w.room.sockets i).inRoom) :
    (w.relay i rest).screens j = if j = i then ((w.screens i).setClearsUp rest).setBase w.top
    else (w.screens j).send ⟨(w.room.sockets j).down.length, w.top⟩ := by
  rw [relay, if_pos (hroom i)]
  change (if (w.room.sockets j).inRoom && !decide (j = i) then (Screen.send _ _) else _) = _
  rw [hroom j, screens_setScreen]
  by_cases hj : j = i
  · simp [hj]
  · simp [hj]
    rfl

theorem room_relay {rest : List ℕ} : (w.relay i rest).room = w.room := by
  rw [relay]
  split_ifs <;> rfl

theorem last_relay {rest : List ℕ} (hroom : (w.room.sockets i).inRoom) :
    (w.relay i rest).last = w.top := by
  rw [relay, if_pos hroom]
  rfl

/-! ## The steps of a whiteboard -/

theorem Agreeing.room_step (hw : w.Agreeing) {a : RoomAction κ} {r' : Room κ}
    (hok : w.Commuting cfg (.room a)) (hunblocked : w.unblocked a)
    (h : Room.Step cfg userOf w.room a r') : (w.follow a r').Agreeing := by
  obtain ⟨-, hinTurn, hserves⟩ := hok
  have hserves := hserves a rfl
  have hcalm := hserves.1
  have hr' := hw.supplied.step hserves h
  have hmeets : ∀ i, w.room.Meets a i (w.screens i) := by
    intro i
    refine ⟨hcalm, ?_, ?_, ?_⟩
    · rintro l rfl
      exact of_decide_eq_true hunblocked
    · rintro rfl
      exact of_decide_eq_true hunblocked
    · rintro rfl
      exact hinTurn
  refine ⟨hr', hw.numbered.step hw.supplied.genuine hw.supplied.drawn h hcalm,
    fun i ↦ h.joined hcalm (hw.joined i), ?_, fun i ↦ ?_,
    fun i ↦ Room.upTo_follow (hw.upTo i) hcalm⟩
  · exact hw.last.trans (highestSeq_mono_of_subset h.accepted_subset)
  · exact (hw.screened i).step hw.supplied hr' hw.numbered h (hmeets i)
      ((hw.upTo i).base.trans hw.last)

theorem Agreeing.handleClear (hw : w.Agreeing) (i : κ) : (w.handleClear i).Agreeing where
  supplied := hw.supplied
  numbered := hw.numbered
  joined := hw.joined
  last := hw.last
  screened j := by
    rw [screens_handleClear]
    split_ifs with hj
    · exact hj ▸ (hw.screened j).handleClear
    · exact hw.screened j
  upTo j := by
    rw [screens_handleClear]
    split_ifs with hj
    · exact hj ▸ ⟨(hw.upTo j).base, (hw.upTo j).down, (hw.upTo j).latest⟩
    · exact hw.upTo j

theorem Agreeing.relay (hw : w.Agreeing) {rest : List ℕ}
    (hclears : (w.screens i).clearsUp = 0 :: rest)
    (hdone : ∀ call userId seg, .append call userId seg ∉ (w.room.board.insts ()).callers) :
    (w.relay i rest).Agreeing := by
  have hgenuine := hw.supplied.genuine
  constructor
  · exact room_relay (w := w) ▸ hw.supplied
  · exact room_relay (w := w) ▸ hw.numbered
  · exact room_relay (w := w) ▸ hw.joined
  · rw [last_relay (hw.joined i), top, top, room_relay]
  · intro j
    rw [room_relay, screens_relay hw.joined]
    split_ifs with hj
    · exact hj ▸ (hw.screened i).relay hgenuine hclears hdone
    · exact (hw.screened j).send hgenuine
  · intro j
    rw [last_relay (hw.joined i), screens_relay hw.joined]
    split_ifs with hj
    · exact (hw.upTo i).relay hw.last rest
    · exact (hw.upTo j).send hw.last _

theorem Agreeing.wipe (hw : w.Agreeing) {c : RelayedClear} {rest : List RelayedClear}
    (hclears : (w.screens i).clearsDown = c :: rest) (hok : w.InTurn (.wipe i)) :
    (w.wipe i c rest).Agreeing where
  supplied := hw.supplied
  numbered := hw.numbered
  joined := hw.joined
  last := hw.last
  screened j := by
    rw [screens_wipe]
    split_ifs with hj
    · exact hj ▸ (hw.screened i).wipe hclears (hok c (by simp [hclears]))
    · exact hw.screened j
  upTo j := by
    rw [screens_wipe]
    split_ifs with hj
    · exact (hw.upTo i).wipe hclears _
    · exact hw.upTo j

theorem exists_of_relay (h : w.step cfg userOf (.relay i) = some w') :
    ∃ rest, (w.screens i).clearsUp = 0 :: rest ∧ w' = w.relay i rest := by
  simp only [step] at h
  split at h <;> cases h
  next rest hclears => exact ⟨rest, hclears, rfl⟩

theorem exists_of_wipe (h : w.step cfg userOf (.wipe i) = some w') :
    ∃ c rest, (w.screens i).clearsDown = c :: rest ∧ w' = w.wipe i c rest := by
  simp only [step] at h
  split at h <;> cases h
  next upTo rest hclears => exact ⟨_, rest, hclears, rfl⟩

/-- **A step in turn keeps the screens in agreement.** -/
theorem Agreeing.step (hw : w.Agreeing) {a : WhiteboardAction κ} (hok : w.Commuting cfg a)
    (h : w.step cfg userOf a = some w') : w'.Agreeing := by
  cases a with
  | room a =>
    obtain ⟨hunblocked, h⟩ := Option.ite_none_right_eq_some.mp h
    obtain ⟨r', hr', rfl⟩ := Option.map_eq_some_iff.mp h
    exact hw.room_step hok hunblocked (.of_step hr')
  | clear i =>
    cases h
    exact hw.handleClear i
  | relay i =>
    obtain ⟨rest, hclears, rfl⟩ := exists_of_relay h
    refine hw.relay hclears fun call userId seg hcall ↦ ?_
    have hnone := List.all_eq_true.mp hok.1 _ hcall
    cases hnone
  | wipe i =>
    obtain ⟨c, rest, hclears, rfl⟩ := exists_of_wipe h
    exact hw.wipe hclears hok.2.1

theorem Agreeing.of_opened (h : Opened cfg userOf w) : w.Agreeing := by
  obtain ⟨hw, hjoined, hsettled, r₀, h₀, hpos, hsteps⟩ := h
  have hroom : w.room.Supplied ∧ w.room.Numbered := by
    refine hsteps.invariant (P := fun r ↦ r.Supplied ∧ r.Numbered)
      ⟨.of_init h₀ hpos, .of_init h₀⟩ fun r a r' hr hok hs ↦ ?_
    have hs := Room.Step.of_step hs
    exact ⟨hr.1.step hok hs, hr.2.step hr.1.genuine hr.1.drawn hs hok.1⟩
  have hscreen : ∀ i, w.screens i = {} := fun i ↦ congrFun (congrArg screens hw) i
  have hlast : w.last = 0 := congrArg Whiteboard.last hw
  refine ⟨hroom.1, hroom.2, hjoined, hlast ▸ Nat.zero_le _, fun i ↦ ?_, fun i ↦ ?_⟩
  · rw [hscreen i]
    refine ⟨Nat.zero_le _, Nat.zero_le _, fun s hs k hk ↦ ?_, by simp [Screen.gone],
      by simp [Screen.gone], fun hne ↦ absurd rfl hne, fun hne ↦ absurd rfl hne,
      by simp [Screen.fence], by simp [Screen.gone], by simp⟩
    have haccepted := hroom.1.genuine.accepted_of_depicts (List.mem_of_mem_drop hs) hk
    exact hroom.1.positive.accepted k haccepted
  · rw [hscreen i, hlast]
    exact ⟨le_rfl, by simp, Or.inl rfl⟩

omit [DecidableEq κ] in
/-- Once everything is delivered, a screen shows what comes after the latest clear. -/
theorem Agreeing.shown_eq (hw : w.Agreeing) (hq : w.Quiescent) (i : κ) :
    w.shown i = {k | k ∈ w.room.board.log.accepted ∧ w.last < k.seq} := by
  have hs := hw.screened i
  have hbase : (w.screens i).base = w.last := by
    refine (hw.upTo i).latest.resolve_right ?_
    simp [hq.down i]
  have hshown : ∀ k ∈ w.room.board.log.accepted, w.room.Shown i k := fun k hk ↦
    (hw.supplied.covers i (hw.joined i) k hk).shown_of_quiescent hq.room
  ext k
  constructor
  · rintro ⟨s, hleft, hk⟩
    have haccepted := hw.supplied.genuine.accepted_of_depicts (List.mem_of_mem_drop hleft) hk
    exact ⟨haccepted, hbase ▸ hs.above s hleft k hk⟩
  · rintro ⟨haccepted, hlt⟩
    obtain ⟨s, hadded, hk⟩ := hshown k haccepted
    rcases Screen.gone_or_scene hadded with hgone | hleft
    · have hle := hs.below (hq.up i) s hgone k hk
      omega
    · exact ⟨s, hleft, hk⟩

/-- **Clears and draws on every screen.** In every run over a board that everyone has joined, whose
steps are in turn, all screens show the same strokes whenever nothing is on its way, and nothing
but strokes. -/
theorem same_of_commuting (h : (machine cfg userOf).Reaches (Commuting cfg) w)
    (hq : w.Quiescent) (i j : κ) : w.shown i = w.shown j ∧
      ∀ s ∈ w.scene i, ∃ k ∈ w.shown i, w.room.Depicts i s k := by
  have hw : w.Agreeing :=
    h.invariant (fun _ ho ↦ .of_opened ho) fun u a v hu hok hs ↦ hu.step hok hs
  refine ⟨(hw.shown_eq hq i).trans (hw.shown_eq hq j).symm, fun s hs ↦ ?_⟩
  obtain ⟨k, -, hk⟩ := hw.supplied.drawn.depicts_of_quiescent hw.supplied.genuine hq.room s
    (List.mem_of_mem_drop hs)
  exact ⟨k, ⟨s, hs, hk⟩, hk⟩

/-! ## A board to clear -/

/-- The room of an empty board that two clients have joined. -/
def joinedRoom : Room Bool :=
  ((Room.machine (sampleConfig 9 9) sampleUser).exec (Room.start Bool sampleStore)
    (joinRun false 0 ++ replyRun false 0 ++ joinRun true 1 ++ replyRun true 1)).getD
      (Room.start Bool sampleStore)

theorem opened_joinedRoom : Opened (sampleConfig 9 9) sampleUser { room := joinedRoom } where
  uncleared := rfl
  joined := by decide
  settled := by
    refine ⟨by decide, by decide, by decide, fun l ↦ ?_, fun call userId seg hcall ↦ ?_⟩
    · rcases l with _ | _ | l <;> rfl
    · cases hcall
  served := by
    obtain ⟨r, hr, hsteps⟩ := Machine.exists_of_guarded (Room.start Bool sampleStore)
      (M := Room.machine (sampleConfig 9 9) sampleUser)
      (joinRun false 0 ++ replyRun false 0 ++ joinRun true 1 ++ replyRun true 1)
      (show Option.isSome (((Room.machine (sampleConfig 9 9) sampleUser).guarded fun r a ↦
        r.calm a ∧ r.still (sampleConfig 9 9) a).exec _ _) = true by decide)
    have hserves := hsteps.mono fun r a h ↦ Room.serves_of_still h.1 h.2
    refine ⟨_, Room.init_start Bool sampleStore, ?_, ?_⟩
    · intro k hk
      cases hk
    · rwa [joinedRoom, hr]

/-- Whether the step moves nothing between the buffer and the rows. -/
def still (cfg : Config) (w : Whiteboard κ) : WhiteboardAction κ → Bool
  | .room a => w.room.still cfg a
  | _ => true

omit [DecidableEq κ] in
theorem commuting_of_still {a : WhiteboardAction κ} (horderly : w.orderly a) (hinTurn : w.InTurn a)
    (hstill : w.still cfg a) : w.Commuting cfg a := by
  refine ⟨horderly, hinTurn, ?_⟩
  rintro b rfl
  refine Room.serves_of_still ?_ hstill
  cases b with
  | connect => cases horderly
  | _ => exact horderly

/-- A simple case of `InTurn`: a delivery behind no clear of the client, and a clear that finds no
segment of the client's own which is not a stroke yet. -/
def plainly (w : Whiteboard κ) : WhiteboardAction κ → Bool
  | .room (.deliver i) => (w.room.adds i).all fun k ↦
      (w.screens i).clearsUp.isEmpty && decide ((w.screens i).base < k.seq)
  | .wipe i => (w.room.sockets i).up.isEmpty && (w.room.board.insts ()).callers.isEmpty &&
      (w.screens i).clearsDown.head?.all fun c ↦
        w.room.issued.all fun x ↦ decide (x.stroke.seq ≤ c.upTo)
  | _ => true

omit [DecidableEq κ] in
theorem inTurn_of_plainly {a : WhiteboardAction κ} (h : w.plainly a) : w.InTurn a := by
  cases a with
  | room a =>
    cases a with
    | deliver i =>
      intro k hk
      have hplain := List.all_eq_true.mp h k hk
      rw [Bool.and_eq_true, List.isEmpty_iff, decide_eq_true_eq] at hplain
      exact hplain
    | _ => trivial
  | wipe i =>
    intro c hc n seg _
    simp only [plainly, Bool.and_eq_true, List.isEmpty_iff] at h
    obtain ⟨⟨hup, hcallers⟩, hissued⟩ := h
    constructor
    · rintro (⟨seg', hsent⟩ | ⟨call, userId, seg', attached, hcall, -⟩)
      · rw [hup] at hsent
        cases hsent
      · rw [hcallers] at hcall
        cases hcall
    · intro k hk
      rw [Option.mem_def.mp hc, Option.all_some] at hissued
      exact of_decide_eq_true (List.all_eq_true.mp hissued _ hk)
  | _ => trivial

/-- The first client draws a stroke, the second clears the board once it has it, and the first draws
another. -/
def clearRun : List (WhiteboardAction Bool) :=
  drawRun.map .room ++ [.room (.deliver true), .clear true, .relay true, .wipe false,
    .room (.draw false sampleSegment), .room (.receive false 6), .room (.resume "b" 6 0),
    .room (.deliver true)]

theorem same_after_clearRun : ∃ w, (machine (sampleConfig 9 9) sampleUser).exec
      { room := joinedRoom } clearRun = some w ∧
    w.shown false = w.shown true ∧
      ∀ s ∈ w.scene false, ∃ k ∈ w.shown false, w.room.Depicts false s k := by
  obtain ⟨w, hw, hsteps⟩ := Machine.exists_of_guarded { room := joinedRoom }
    (M := machine (sampleConfig 9 9) sampleUser) clearRun
    (show Option.isSome (((machine (sampleConfig 9 9) sampleUser).guarded fun w a ↦
      w.orderly a ∧ w.plainly a ∧ w.still (sampleConfig 9 9) a).exec _ _) = true by decide)
  have hcommuting := hsteps.mono fun w a h ↦
    commuting_of_still h.1 (inTurn_of_plainly h.2.1) h.2.2
  cases hw
  refine ⟨_, rfl, same_of_commuting ⟨_, opened_joinedRoom, hcommuting⟩
    ⟨⟨by decide, by decide, by decide, fun l ↦ ?_, fun call userId seg hcall ↦ ?_⟩,
      by decide, by decide⟩ false true⟩
  · rcases l with _ | _ | l <;> rfl
  · cases hcall

/-- The second client clears the board while the first stroke is on its way to it. -/
def raceRun : List (WhiteboardAction Bool) :=
  drawRun.map .room ++ [.clear true, .room (.deliver true), .relay true, .wipe false]

/-- Everything has been delivered, and only the client that cleared the board shows the stroke. -/
theorem stroke_outlives_clear : Opened (sampleConfig 9 9) sampleUser { room := joinedRoom } ∧
    ∃ w, ((machine (sampleConfig 9 9) sampleUser).guarded fun w a ↦
        w.orderly a ∧ w.still (sampleConfig 9 9) a).exec { room := joinedRoom } raceRun = some w ∧
      w.Quiescent ∧ w.shown false ≠ w.shown true := by
  refine ⟨opened_joinedRoom, _, rfl,
    ⟨⟨by decide, by decide, by decide, fun l ↦ ?_, fun call userId seg hcall ↦ ?_⟩,
      by decide, by decide⟩, fun heq ↦ ?_⟩
  · rcases l with _ | _ | l <;> rfl
  · cases hcall
  · obtain ⟨s, hs, -⟩ := (Set.ext_iff.mp heq ⟨sampleSegment, "a", 1, "ada", 5⟩).mpr
      ⟨.received _, .head _, rfl⟩
    cases hs

end Whiteboard

end Synapse
