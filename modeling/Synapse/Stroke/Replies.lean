import Synapse.Stroke.Boards
import Synapse.Stroke.History

/-!
# The shape of a history reply

Whether a reply of `loadForJoin` is complete depends on the interleaving (`Synapse.Stroke.History`).
Its shape does not: the strokes of every reply are ascending and above the bound of the call, each
of them was accepted, and the baseline comes along exactly when the caller is behind it.

The rows are read in order. The merge sorts whenever it adds a stroke, whatever the order of the
buffer, and what it adds is above the bound and carries none of the numbers of the rows. So the
order only rests on the numbers in the buffer being distinct.
-/

namespace Synapse

open Keyed Transition

/-! ## The merge and the baseline -/

theorem lt_of_mem_mergeBufferedStrokes {persisted buffer : List PersistedStroke} {n : ℕ}
    (hrows : ∀ k ∈ persisted, n < k.seq) :
    ∀ k ∈ mergeBufferedStrokes persisted buffer n, n < k.seq := fun k hk ↦
  (mem_mergeBufferedStrokes.mp hk).elim (hrows k) fun h ↦ h.2.1

theorem includeSnapshot_eq_true {sinceSeq : Option ℕ} {snapshotSeq : ℕ} :
    includeSnapshot sinceSeq snapshotSeq = true ↔
      0 < snapshotSeq ∧ (sinceSeq = none ∨ ∃ n, sinceSeq = some n ∧ n < snapshotSeq) := by
  cases sinceSeq <;> simp [includeSnapshot]

theorem isSome_snapshot_joinHistory {boardId : String} {sinceSeq : Option ℕ} {snapshotSeq : ℕ}
    {persisted buffer : List PersistedStroke} {now : ℕ} :
    (joinHistory boardId sinceSeq snapshotSeq persisted buffer now).snapshot.isSome ↔
      0 < snapshotSeq ∧ (sinceSeq = none ∨ ∃ n, sinceSeq = some n ∧ n < snapshotSeq) := by
  rw [← includeSnapshot_eq_true, joinHistory]
  cases includeSnapshot sinceSeq snapshotSeq <;> simp

namespace World

variable {cfg : Config} {w w' : World Unit}

/-! ## The invariant -/

/-- Strokes in order, above the bound `n`, each of them accepted. -/
structure WellFormed (log : BoardLog) (n : ℕ) (strokes : List PersistedStroke) : Prop where
  ascending : Ascending PersistedStroke.seq strokes
  accepted : strokes ⊆ log.accepted
  above : ∀ k ∈ strokes, n < k.seq

theorem WellFormed.mono {log log' : BoardLog} {n : ℕ} {strokes : List PersistedStroke}
    (h : WellFormed log n strokes) (haccepted : log.accepted ⊆ log'.accepted) :
    WellFormed log' n strokes :=
  ⟨h.ascending, List.Subset.trans h.accepted haccepted, h.above⟩

theorem Owned.wellFormed_loadSince (hw : w.Owned) (n : ℕ) :
    WellFormed w.log n (w.log.store.loadSince n) where
  ascending := w.log.store.ascending_loadSince n
  accepted k hk :=
    hw.accounted.sound.accepted_of_stored k (Or.inl (BoardStore.mem_loadSince.mp hk).1)
  above _ hk := (BoardStore.mem_loadSince.mp hk).2

/-- **A merge of well-formed rows with any buffer is well-formed.** -/
theorem Owned.wellFormed_merge (hw : w.Owned) {n : ℕ} {persisted : List PersistedStroke}
    (h : WellFormed w.log n persisted) :
    WellFormed w.log n (mergeBufferedStrokes persisted (w.insts ()).buffer n) :=
  ⟨ascending_mergeBufferedStrokes n h.ascending hw.nodup_seq_buffer,
    (genuine_merge hw h.accepted h.ascending.nodup_keys n).1,
    lt_of_mem_mergeBufferedStrokes h.above⟩

/-- What a load has read, and what it replies. -/
def Replies (log : BoardLog) (load : Load) : Prop :=
  match load.phase with
  | .rowsRead snapshotSeq persisted => WellFormed log (fromSeq load.sinceSeq snapshotSeq) persisted
  | .resolved snapshotSeq history =>
    WellFormed log (fromSeq load.sinceSeq snapshotSeq) history.strokes ∧
      (history.snapshot.isSome ↔ 0 < snapshotSeq ∧
        (load.sinceSeq = none ∨ ∃ n, load.sinceSeq = some n ∧ n < snapshotSeq))
  | _ => True

theorem Replies.mono {log log' : BoardLog} {load : Load} (h : Replies log load)
    (haccepted : log.accepted ⊆ log'.accepted) : Replies log' load := by
  unfold Replies at h ⊢
  split <;> rename_i hphase <;> simp only [hphase] at h
  · exact h.mono haccepted
  · exact ⟨h.1.mono haccepted, h.2⟩
  · trivial

theorem Replies.step {a : Unit × Action} (hw : w.Owned) (h : w.step (fun _ ↦ cfg) a = some w')
    (hinv : ∀ l, ∀ load ∈ (w.insts ()).loads l, Replies w.log load) :
    ∀ l, ∀ load ∈ (w'.insts ()).loads l, Replies w'.log load := by
  intro l load hload
  have haccepted : w.log.accepted ⊆ w'.log.accepted := (hw.moves h).prefix_accepted.subset
  obtain ⟨i, a⟩ := a
  obtain ⟨log, inst, hstep, rfl⟩ := step_eq_some.mp h
  have hmove := (Instance.Step.of_step hstep).loadMove l
  rw [put_insts_self, Option.mem_def] at hload
  rw [hload] at hmove
  generalize hold : (w.insts ()).loads l = old at hmove
  cases hmove with
  | stay => exact (hinv l load hold).mono haccepted
  | readRows load snapshotSeq => exact (hw.wellFormed_loadSince _).mono haccepted
  | resolve load snapshotSeq persisted hphase now =>
    have hbefore := hinv l load hold
    rw [Replies, hphase] at hbefore
    exact ⟨(hw.wellFormed_merge hbefore).mono haccepted, isSome_snapshot_joinHistory⟩
  | call | readSnapshotSeq | fail => trivial

theorem replies_of_reaches {ok : World Unit → Unit × Action → Prop}
    (h : (machine fun _ ↦ cfg).Reaches ok w) :
    ∀ l, ∀ load ∈ (w.insts ()).loads l, Replies w.log load := by
  have hinv := h.invariant
    (P := fun w ↦ w.Owned ∧ ∀ l, ∀ load ∈ (w.insts ()).loads l, Replies w.log load)
    (fun w hi ↦ ⟨.of_init hi, fun l load hl ↦ ?_⟩) fun u a v hu _ hs ↦
      ⟨hu.1.step hs, Replies.step hu.1 hs hu.2⟩
  · exact hinv.2
  · rw [hi.2.2] at hl
    cases hl

end World

namespace StrokeService

variable {cfg : Config} {s : StrokeService} {b : String}

/-- **Every history reply is well-formed**, in every interleaving: its strokes are ascending, each
was accepted for the board and is above the bound of the call, and the baseline is there exactly if
there is one and the caller is behind it. -/
theorem history_reply_wellFormed (h : (machine cfg).Reaches Machine.anyStep s) {l : ℕ} {load : Load}
    (hload : (s.entry b).loads l = some load) {snapshotSeq : ℕ} {history : RoomHistory}
    (hphase : load.phase = .resolved snapshotSeq history) :
    World.WellFormed (s.log b) (fromSeq load.sinceSeq snapshotSeq) history.strokes ∧
      (history.snapshot.isSome ↔ 0 < snapshotSeq ∧
        (load.sinceSeq = none ∨ ∃ n, load.sinceSeq = some n ∧ n < snapshotSeq)) := by
  have hreplies := World.replies_of_reaches (reaches_boards h b) l load hload
  rwa [World.Replies, hphase] at hreplies

/-- A batch of two is inserted and put back when its `touch` fails, and a third stroke waits behind
it when the rows arrive. -/
def rebufferedRun : List ServiceAction :=
  onBoard "board-1" (sampleRestore ++ [.resume "a" 5 0, .append 1 "ada" sampleSegment,
    .resume "b" 6 0, .drain 0 .insert, .append 2 "ada" sampleSegment, .resume "c" 7 1,
    .drain 0 .fail, .loadForJoin 0 (some 1), .load 0 .readSnapshotSeq, .load 0 .readRows,
    .load 0 (.resolve 8)])

private def repliedTail (s : StrokeService) : Bool :=
  match (s.entry "board-1").loads 0 with
  | some ⟨_, _, .resolved 0 history⟩ => decide (history.strokes.map PersistedStroke.seq = [2, 3])
  | _ => false

/-- The reply has what is above the bound, in order and once. -/
theorem history_reply_wellFormed_rebuffered : ∃ s load history,
    (machine (sampleConfig 2 9)).exec start rebufferedRun = some s ∧
      (s.entry "board-1").loads 0 = some load ∧ load.phase = .resolved 0 history ∧
      history.strokes.map PersistedStroke.seq = [2, 3] ∧
      World.WellFormed (s.log "board-1") (fromSeq load.sinceSeq 0) history.strokes := by
  obtain ⟨s, hexec, hsteps, hp⟩ := Machine.exists_of_exec start rebufferedRun
    (M := machine (sampleConfig 2 9)) (p := repliedTail) (by decide +kernel)
  unfold repliedTail at hp
  split at hp
  · next hload =>
    refine ⟨s, _, _, hexec, hload, rfl, of_decide_eq_true hp, ?_⟩
    exact (history_reply_wellFormed ⟨_, init_startOver _, hsteps⟩ hload rfl).1
  · cases hp

end StrokeService

end Synapse
