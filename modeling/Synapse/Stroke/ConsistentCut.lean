import Synapse.Stroke.Compaction

/-!
# A history reply during a compaction

`loadForJoin` reads the baseline and the rows in two queries. A compaction that moves the baseline
and deletes in between leaves the reply with the old base and the new rows, and nothing in the
payload tells. The reply is a consistent cut as long as the rows above its lower bound are still
there when they are read.
-/

namespace Synapse

open Keyed Transition

/-- The number a reply counts from: its baseline, or what the client reported. -/
def RoomHistory.base (history : RoomHistory) (sinceSeq : Option ℕ) : ℕ :=
  match history.snapshot with
  | some snapshot => snapshot.snapshotSeq
  | none => sinceSeq.getD 0

theorem base_joinHistory (boardId : String) (sinceSeq : Option ℕ) (snapshotSeq : ℕ)
    (persisted buffer : List PersistedStroke) (now : ℕ) :
    (joinHistory boardId sinceSeq snapshotSeq persisted buffer now).base sinceSeq
      = fromSeq sinceSeq snapshotSeq := by
  unfold joinHistory RoomHistory.base includeSnapshot fromSeq
  cases sinceSeq with
  | none =>
    by_cases hpos : 0 < snapshotSeq
    · simp [hpos]
    · simp [Nat.eq_zero_of_not_pos hpos]
  | some n =>
    by_cases hlt : n < snapshotSeq
    · have hpos : 0 < snapshotSeq := by omega
      simp [hpos, hlt, hlt.le]
    · simp [hlt, not_lt.mp hlt]

/-- The reply holds exactly the strokes after its base, up to `highest` and without a gap. -/
def RoomHistory.Consistent (history : RoomHistory) (sinceSeq : Option ℕ) (highest : ℕ) : Prop :=
  history.strokes.map PersistedStroke.seq
    = List.range' (history.base sinceSeq + 1) (highest - history.base sinceSeq)

/-- The rows above the baseline are numbered without a gap up to `highest`. -/
def BoardStore.Contiguous (store : BoardStore) (highest : ℕ) : Prop :=
  ∀ n, store.getSnapshotSeq < n → ((∃ r ∈ store.strokes, r.seq = n) ↔ n ≤ highest)

/-- When no row above `n` has gone, a read of the rows above `n` has no gap. -/
theorem BoardStore.Contiguous.loadSince {before store : BoardStore} {highest n : ℕ}
    (h : before.Contiguous highest) (hn : before.getSnapshotSeq ≤ n)
    (hsub : ∀ r ∈ store.strokes, r ∈ before.strokes)
    (hintact : ∀ r ∈ before.strokes, n < r.seq → r ∈ store.strokes) :
    (store.loadSince n).map PersistedStroke.seq = List.range' (n + 1) (highest - n) := by
  have hasc : ((store.loadSince n).map PersistedStroke.seq).Pairwise (· < ·) := by
    rw [List.pairwise_map]
    exact store.ascending_loadSince n
  refine hasc.eq_of_mem_iff (List.pairwise_lt_range' _) fun m ↦ ?_
  rw [List.mem_map, List.mem_range'_1]
  constructor
  · rintro ⟨r, hr, rfl⟩
    obtain ⟨hrow, hlt⟩ := BoardStore.mem_loadSince.mp hr
    have := (h r.seq (hn.trans_lt hlt)).mp ⟨r, hsub r hrow, rfl⟩
    omega
  · rintro ⟨hlow, hhigh⟩
    have hlt : n < m := by omega
    obtain ⟨r, hr, rfl⟩ := (h m (hn.trans_lt hlt)).mpr (by omega)
    exact ⟨r, BoardStore.mem_loadSince.mpr ⟨hintact r hr hlt, hlt⟩, rfl⟩

/-- Whether the action is a step of load `l`, and does not fail. -/
def Action.ofLoad (l : ℕ) : Action → Bool
  | .loadForJoin m _ => m == l
  | .load m r => m == l && r != .fail
  | _ => false

namespace Instance

variable {cfg : Config} {before : BoardStore} {log log' : BoardLog} {inst inst' : Instance}
  {a : Action} {c l : ℕ} {buffer : List PersistedStroke}

theorem Stage.of_load (hst : Stage cfg c before buffer log inst)
    (h : Step cfg log inst a log' inst') (ha : a.ofLoad l) :
    Stage cfg c before buffer log' inst' := by
  have hg := hst.grounded.step h
  cases h with
  | loadForJoin | loadSnapshot | loadRows | loadResolves | loadFails =>
    exact ⟨hg, hst.buffer, hst.awaits, hst.unguarded, hst.done⟩
  | _ => cases ha

theorem Stage.snapshot_le (hst : Stage cfg c before buffer log inst) :
    before.getSnapshotSeq ≤ log.store.getSnapshotSeq := by
  have hdone := hst.done
  have hcut := before.le_cut cfg
  have houtcome : Outcome cfg before log.store → before.getSnapshotSeq
      ≤ log.store.getSnapshotSeq := by
    intro h
    unfold Outcome at h
    split_ifs at h
    · exact h.snapshot.ge
    · exact hcut.trans h.snapshot.ge
  rcases hphase : inst.compactions c with _ | phase <;> rw [hphase] at hdone
  · exact hdone.snapshot.ge
  · cases phase with
    | initializing | counting => exact hdone.snapshot.ge
    | counted | readingSnapshot | readingTail | settingSnapshot => exact hdone.1.snapshot.ge
    | deleting cut =>
      obtain ⟨-, rfl, hat⟩ := hdone
      exact hcut.trans hat.snapshot.ge
    | deleted => exact hcut.trans hdone.2.snapshot.ge
    | resolved => exact houtcome hdone
    | rejected => cases hdone

/-- Whether the rows above its lower bound are all there when a load reads them. -/
def readsIntact (log : BoardLog) (inst : Instance) : Action → Bool
  | .load l .readRows =>
    match inst.loads l with
    | some ⟨sinceSeq, _, .readingRows snapshotSeq⟩ =>
      log.pruned.all fun k ↦ decide (k.seq ≤ fromSeq sinceSeq snapshotSeq)
    | _ => true
  | _ => true

theorem le_of_readsIntact {load : Load} {snapshotSeq : ℕ}
    (h : inst.readsIntact log (.load l .readRows)) (hload : inst.loads l = some load)
    (hphase : load.phase = .readingRows snapshotSeq) :
    ∀ k ∈ log.pruned, k.seq ≤ fromSeq load.sinceSeq snapshotSeq := by
  obtain ⟨sinceSeq, accepted, phase⟩ := load
  obtain rfl : phase = .readingRows snapshotSeq := hphase
  simpa [readsIntact, hload] using h

theorem Effect.rows (h : Effect cfg log inst a log' inst') (ha : a.ofCompaction c ∨ a.ofLoad l) :
    (∀ r ∈ log'.store.strokes, r ∈ log.store.strokes) ∧
      ∀ r, r ∈ log.store.strokes ∨ r ∈ log.pruned →
        r ∈ log'.store.strokes ∨ r ∈ log'.pruned := by
  cases h with
  | insert => rcases ha with ha | ha <;> cases ha
  | prune _ _ victims =>
    refine ⟨fun r hr ↦ (BoardStore.mem_deleteRows.mp hr).1, fun r hr ↦ ?_⟩
    rcases hr with hr | hr
    · by_cases hvictim : r.seq ∈ victims
      · exact Or.inr (List.mem_append_right _ (BoardStore.mem_deletedRows.mpr ⟨hr, hvictim⟩))
      · exact Or.inl (BoardStore.mem_deleteRows.mpr ⟨hr, hvictim⟩)
    · exact Or.inr (List.mem_append_left _ hr)
  | _ => exact ⟨fun _ hr ↦ hr, fun _ hr ↦ hr⟩

end Instance

namespace World

variable {cfg : Config} {w w' : World Unit} {c l highest : ℕ}

/-- Compaction `c` and load `l` take turns, and the load reads the rows while those above its lower
bound are all there. -/
def Interleaves (c l : ℕ) (w : World Unit) (a : Unit × Action) : Prop :=
  (a.2.ofCompaction c ∨ a.2.ofLoad l) ∧ (w.insts ()).readsIntact w.log a.2

instance (c l : ℕ) (w : World Unit) (a : Unit × Action) : Decidable (Interleaves c l w a) :=
  inferInstanceAs (Decidable (_ ∧ _))

/-- Every accepted stroke is a row, those above the baseline are numbered without a gap up to
`highest`, and neither `c` nor `l` has been called. -/
structure Persisted (w : World Unit) (c l highest : ℕ) : Prop where
  rest : w.AtRest
  buffer : (w.insts ()).buffer = []
  contiguous : w.log.store.Contiguous highest
  compaction : (w.insts ()).compactions c = none
  load : (w.insts ()).loads l = none

/-- What is known of a load that has come as far as `phase`. -/
def ReadsCut (before : BoardStore) (highest : ℕ) (sinceSeq : Option ℕ) : LoadPhase → Prop
  | .readingSnapshot | .rejected => True
  | .readingRows snapshotSeq => before.getSnapshotSeq ≤ snapshotSeq
  | .rowsRead snapshotSeq persisted => persisted.map PersistedStroke.seq
      = List.range' (fromSeq sinceSeq snapshotSeq + 1) (highest - fromSeq sinceSeq snapshotSeq)
  | .resolved _ history => history.Consistent sinceSeq highest

/-- What holds while the two take turns. -/
structure Overlap (cfg : Config) (before : BoardStore) (c l highest : ℕ) (w : World Unit) :
    Prop where
  stage : (w.insts ()).Stage cfg c before [] w.log
  rows : ∀ r ∈ w.log.store.strokes, r ∈ before.strokes
  kept : ∀ r ∈ before.strokes, r ∈ w.log.store.strokes ∨ r ∈ w.log.pruned
  load : ∀ load ∈ (w.insts ()).loads l, ReadsCut before highest load.sinceSeq load.phase

theorem le_fromSeq (sinceSeq : Option ℕ) (snapshotSeq : ℕ) :
    snapshotSeq ≤ fromSeq sinceSeq snapshotSeq := by
  cases sinceSeq with
  | none => exact le_rfl
  | some n => exact le_max_right _ _

theorem Overlap.step {before : BoardStore} (hcont : before.Contiguous highest) {a : Unit × Action}
    (hw : w.Overlap cfg before c l highest) (hok : Interleaves c l w a)
    (h : w.step (fun _ ↦ cfg) a = some w') : w'.Overlap cfg before c l highest := by
  obtain ⟨i, a⟩ := a
  obtain ⟨log, inst, hs, rfl⟩ := step_eq_some.mp h
  have hstep := Instance.Step.of_step hs
  obtain ⟨hrows, hkept⟩ := hstep.effect.rows hok.1
  refine ⟨?_, fun r hr ↦ hw.rows r (hrows r hr), fun r hr ↦ hkept r (hw.kept r hr),
    fun load hload ↦ ?_⟩
  · rcases hok.1 with ha | ha
    · exact hw.stage.step hstep ha
    · exact hw.stage.of_load hstep ha
  · have hmove := hstep.loadMove l
    rw [put_insts_self, Option.mem_def] at hload
    rw [hload] at hmove
    generalize hold : (w.insts ()).loads l = old at hmove
    cases hmove with
    | stay => exact hw.load load hold
    | call => trivial
    | fail => trivial
    | readSnapshotSeq => exact hw.stage.snapshot_le
    | readRows load snapshotSeq hphase ha =>
      have hle := hw.load load hold
      rw [hphase] at hle
      have hpruned := Instance.le_of_readsIntact (ha ▸ hok.2) hold hphase
      -- a row above the bound has not been deleted, so it is still in the table
      refine hcont.loadSince (hle.trans (le_fromSeq _ _)) hw.rows fun r hr hlt ↦ ?_
      exact (hw.kept r hr).resolve_right fun hgone ↦ absurd (hpruned r hgone) (not_le.mpr hlt)
    | resolve load snapshotSeq persisted hphase now =>
      have hread := hw.load load hold
      rw [hphase] at hread
      -- with nothing in the buffer the reply is the rows that were read
      have hmerge : ∀ n, mergeBufferedStrokes persisted [] n = persisted := fun n ↦ rfl
      have hbuffer : (w.insts ()).buffer = [] := hw.stage.buffer
      change RoomHistory.Consistent _ _ _
      rw [RoomHistory.Consistent, base_joinHistory, joinHistory, hbuffer, hmerge]
      exact hread

/-- **A history reply is a consistent cut** when the rows above its lower bound are all there when
they are read. -/
theorem consistent_of_interleaves (hw : w.Persisted c l highest)
    (h : (machine fun _ ↦ cfg).Steps (Interleaves c l) w w') {load : Load}
    (hload : (w'.insts ()).loads l = some load) {snapshotSeq : ℕ} {history : RoomHistory}
    (hphase : load.phase = .resolved snapshotSeq history) :
    history.Consistent load.sinceSeq highest := by
  have hbegin : w.Overlap cfg w.log.store c l highest := by
    refine ⟨hw.buffer ▸ hw.rest.stage hw.compaction, fun r hr ↦ hr, fun r hr ↦ Or.inl hr, ?_⟩
    intro load hl
    rw [hw.load] at hl
    cases hl
  have hend := h.invariant (P := fun u ↦ u.Overlap cfg w.log.store c l highest) hbegin
    fun _ _ _ hu ha hs ↦ hu.step hw.contiguous ha hs
  have hcut := hend.load load hload
  rw [hphase] at hcut
  exact hcut

/-! ## Four rows, two of them above the cap -/

theorem persisted_start : (start Unit (sampleStoreOf 4)).Persisted 0 0 4 := by
  refine ⟨atRest_start _, rfl, fun n hn ↦ ?_, rfl, rfl⟩
  have hrows : (sampleStoreOf 4).strokes.rows.map PersistedStroke.seq = List.range' 1 4 := by decide
  have hmem : (∃ r ∈ (sampleStoreOf 4).strokes, r.seq = n) ↔ n ∈ List.range' 1 4 := by
    rw [← hrows, List.mem_map]
    rfl
  have hpos : 0 < n := hn
  rw [List.mem_range'_1] at hmem
  refine hmem.trans ⟨fun h ↦ by omega, fun h ↦ ⟨hpos, by omega⟩⟩

/-- The compaction has written the baseline `3` and not deleted anything. -/
def baselineRun : List Action :=
  [.maybeCompact 0, .restore .ensure, .restore .readSnapshotSeq, .restore .readTail,
    .restore .finish, .resume "" 0 0, .compact 0 .count, .compact 0 .proceed,
    .compact 0 .readSnapshotSeq, .compact 0 .readTail, .compact 0 .setSnapshot]

theorem consistent_after_baselineRun : ∃ w history,
    (machine fun _ ↦ sampleConfig 9 2).exec (start Unit (sampleStoreOf 4))
      (overLone (.loadForJoin 0 none :: baselineRun ++ [.load 0 .readSnapshotSeq,
        .compact 0 (.deleteRows [1, 2, 3]), .load 0 .readRows, .load 0 (.resolve 8)])) = some w ∧
    ((w.insts ()).loads 0).map Load.phase = some (.resolved 3 history) ∧
    history.Consistent none 4 := by
  obtain ⟨w, hw, hsteps⟩ := Machine.exists_of_guarded (start Unit (sampleStoreOf 4))
    (M := machine fun _ ↦ sampleConfig 9 2)
    (overLone (.loadForJoin 0 none :: baselineRun ++ [.load 0 .readSnapshotSeq,
      .compact 0 (.deleteRows [1, 2, 3]), .load 0 .readRows, .load 0 (.resolve 8)]))
    (show Option.isSome (((machine fun _ ↦ sampleConfig 9 2).guarded
      (Interleaves 0 0)).exec _ _) = true by decide)
  cases hw
  exact ⟨_, _, rfl, rfl, consistent_of_interleaves persisted_start hsteps (l := 0) rfl rfl⟩

/-- The load reads the baseline before the compaction writes it, and the rows after it has deleted:
the reply carries no baseline and begins with stroke `4`. -/
theorem torn_reply : ∃ w history,
    (machine fun _ ↦ sampleConfig 9 2).exec (start Unit (sampleStoreOf 4))
      (overLone ([.loadForJoin 0 none, .load 0 .readSnapshotSeq] ++ baselineRun
        ++ [.compact 0 (.deleteRows [1, 2, 3]), .load 0 .readRows, .load 0 (.resolve 8)]))
      = some w ∧
    ((w.insts ()).loads 0).map Load.phase = some (.resolved 0 history) ∧
    history.snapshot = none ∧ history.strokes.map PersistedStroke.seq = [4] ∧
    ¬ history.Consistent none 4 := by
  refine ⟨_, _, rfl, rfl, rfl, rfl, ?_⟩
  unfold RoomHistory.Consistent
  decide

end World

end Synapse
