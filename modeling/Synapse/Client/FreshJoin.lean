import Synapse.Client.Session
import Synapse.Stroke.Compaction

/-!
# What a fresh client sees

A client that joins for the first time shows the strokes of its `room-history` payload, and nothing
else: its listener ignores the snapshot, which carries no image. A compaction keeps the strokes
above the cut and moves the baseline there, so the strokes between the old baseline and the cut are
gone from the canvas of everyone who joins afterwards.
-/

namespace Synapse

open Keyed Transition

namespace World

variable {cfg : Config} {w w' : World Unit}

/-- The reply of a `loadForJoin` that nothing interferes with. -/
def loadForJoin (w : World Unit) (sinceSeq : Option ℕ) (now : ℕ) : RoomHistory :=
  joinHistory w.log.store.boardId sinceSeq w.log.store.getSnapshotSeq
    (w.log.store.loadSince (fromSeq sinceSeq w.log.store.getSnapshotSeq)) (w.insts ()).buffer now

/-- A `loadForJoin` that nothing interferes with. -/
def loadAlone (l : ℕ) (sinceSeq : Option ℕ) (now : ℕ) : List Action :=
  [.loadForJoin l sinceSeq, .load l .readSnapshotSeq, .load l .readRows, .load l (.resolve now)]

/-- Run step by step, the call resolves to that reply. -/
theorem exec_loadAlone (l : ℕ) (hl : (w.insts ()).loads l = none) (sinceSeq : Option ℕ) (now : ℕ) :
    ∃ w', (machine fun _ ↦ cfg).exec w (overLone (loadAlone l sinceSeq now)) = some w' ∧
      ∃ load ∈ (w'.insts ()).loads l,
        load.phase = .resolved w.log.store.getSnapshotSeq (w.loadForJoin sinceSeq now) := by
  simp [overLone, loadAlone, machine, step, Instance.step, Instance.loadStep, Instance.setLoad, hl,
    loadForJoin, Instance.buffer, Instance.board]

/-- The scene of a session that has joined for the first time. -/
def freshScene (w : World Unit) (now : ℕ) : SceneStore :=
  (({} : Session).roomHistory (w.loadForJoin none now)).scene

/-- What it paints. -/
def freshSegments (w : World Unit) (now : ℕ) : List StrokeSegment :=
  (w.freshScene now).map SceneSegment.segment

theorem freshSegments_eq (now : ℕ) : w.freshSegments now
    = (mergeBufferedStrokes (w.log.store.loadSince w.log.store.getSnapshotSeq) (w.insts ()).buffer
        w.log.store.getSnapshotSeq).map PersistedStroke.toStrokeSegment := by
  rw [freshSegments, freshScene, Session.scene_roomHistory, List.nil_append, List.map_map]
  rfl

end World

/-! ## Raising the baseline -/

/-- The buffered strokes a merge adds. -/
def bufferedAbove (persisted buffer : List PersistedStroke) (fromSeq : ℕ) : List PersistedStroke :=
  buffer.filter fun k ↦ decide (fromSeq < k.seq ∧ k.seq ∉ persisted.map PersistedStroke.seq)

theorem length_mergeBufferedStrokes (persisted buffer : List PersistedStroke) (fromSeq : ℕ) :
    (mergeBufferedStrokes persisted buffer fromSeq).length
      = persisted.length + (bufferedAbove persisted buffer fromSeq).length := by
  unfold mergeBufferedStrokes bufferedAbove
  dsimp only
  split_ifs with hnil
  · rw [hnil, List.length_nil, Nat.add_zero]
  · rw [length_sortByKey, List.length_append]

theorem length_bufferedAbove_le (store : BoardStore) (buffer : List PersistedStroke) {m n : ℕ}
    (hle : m ≤ n) : (bufferedAbove (store.loadSince n) buffer n).length
      ≤ (bufferedAbove (store.loadSince m) buffer m).length := by
  refine List.Sublist.length_le (List.monotone_filter_right _ fun k hk ↦ ?_)
  simp only [decide_eq_true_iff] at hk ⊢
  refine ⟨hle.trans_lt hk.1, fun hmem ↦ hk.2 ?_⟩
  obtain ⟨r, hr, hseq⟩ := List.mem_map.mp hmem
  refine List.mem_map.mpr ⟨r, BoardStore.mem_loadSince.mpr ⟨(BoardStore.mem_loadSince.mp hr).1, ?_⟩,
    hseq⟩
  rw [hseq]
  exact hk.1

theorem length_merge_lt {store : BoardStore} (buffer : List PersistedStroke) {m n : ℕ}
    {r : PersistedStroke} (hr : r ∈ store.strokes) (hm : m < r.seq) (hn : r.seq ≤ n) :
    (mergeBufferedStrokes (store.loadSince n) buffer n).length
      < (mergeBufferedStrokes (store.loadSince m) buffer m).length := by
  rw [length_mergeBufferedStrokes, length_mergeBufferedStrokes]
  exact Nat.add_lt_add_of_lt_of_le (Table.length_above_lt hr hm hn)
    (length_bufferedAbove_le store buffer (hm.le.trans hn))

/-! ## Compactions -/

/-- A compaction has nothing to cut. -/
def Uncut (cfg : Config) (store : BoardStore) : Prop :=
  store.count ≤ cfg.strokeCap ∨ (store.loadSince store.getSnapshotSeq).length ≤ keepTail cfg

theorem Outcome.of_uncut {cfg : Config} {before store : BoardStore} (h : Outcome cfg before store)
    (huncut : Uncut cfg before) : store.getSnapshotSeq = before.getSnapshotSeq ∧
      store.loadSince before.getSnapshotSeq = before.loadSince before.getSnapshotSeq ∧
      Uncut cfg store := by
  unfold Outcome at h
  split_ifs at h with hcap
  · have hrows : store.loadSince before.getSnapshotSeq
        = before.loadSince before.getSnapshotSeq := by
      rw [BoardStore.loadSince, h.rows]
      rfl
    refine ⟨h.snapshot, hrows, Or.inl ?_⟩
    rw [BoardStore.count, h.rows]
    exact hcap
  · have htail := huncut.resolve_left hcap
    have hcut : before.cut cfg = before.getSnapshotSeq := by
      rcases cutSeq_cases cfg before.getSnapshotSeq (before.loadSince before.getSnapshotSeq)
        with ⟨-, hcut⟩ | ⟨hlt, -⟩
      · exact hcut
      · omega
    rw [hcut] at h
    refine ⟨h.snapshot, h.rows, Or.inr ?_⟩
    rw [h.snapshot, h.rows]
    exact htail

namespace World

variable {cfg : Config} {w w' : World Unit}

theorem length_freshSegments (now : ℕ) : (w.freshSegments now).length
    = (mergeBufferedStrokes (w.log.store.loadSince w.log.store.getSnapshotSeq) (w.insts ()).buffer
        w.log.store.getSnapshotSeq).length := by
  rw [freshSegments_eq, List.length_map]

/-- A compaction that has nothing to cut changes nothing, and leaves nothing to cut. -/
theorem CompactsTo.freshSegments_eq (h : CompactsTo cfg w w') (hw : w.AtRest)
    (huncut : Uncut cfg w.log.store) (now now' : ℕ) :
    w'.freshSegments now' = w.freshSegments now ∧ Uncut cfg w'.log.store := by
  obtain ⟨-, hbuffer, houtcome⟩ := h.outcome hw
  obtain ⟨hsnapshot, hrows, hafter⟩ := houtcome.of_uncut huncut
  refine ⟨?_, hafter⟩
  rw [World.freshSegments_eq, World.freshSegments_eq, hbuffer, hsnapshot, hrows]

/-- No compaction adds to what a fresh client sees, and one that has something to cut takes from
it. -/
theorem CompactsTo.length_le (h : CompactsTo cfg w w') (hw : w.AtRest) (now now' : ℕ) :
    (w'.freshSegments now').length ≤ (w.freshSegments now).length ∧
      (¬ Uncut cfg w.log.store →
        (w'.freshSegments now').length < (w.freshSegments now).length) := by
  by_cases huncut : Uncut cfg w.log.store
  · rw [(h.freshSegments_eq hw huncut now now').1]
    exact ⟨le_rfl, fun hcut ↦ absurd huncut hcut⟩
  · obtain ⟨-, hbuffer, houtcome⟩ := h.outcome hw
    obtain ⟨hcap, htail⟩ := not_or.mp huncut
    rw [Outcome, if_neg hcap] at houtcome
    obtain ⟨r, hr, hcut⟩ := ((cutSeq_cases cfg _ _).resolve_left fun hle ↦ htail hle.1).2
    obtain ⟨hrow, habove⟩ := BoardStore.mem_loadSince.mp hr
    have hlt := length_merge_lt (n := w.log.store.cut cfg) (w.insts ()).buffer hrow habove hcut.ge
    rw [← houtcome.rows, ← houtcome.snapshot, ← hbuffer] at hlt
    rw [length_freshSegments, length_freshSegments, ← hbuffer]
    exact ⟨hlt.le, fun _ ↦ hlt⟩

theorem CompactsTimes.uncut {n : ℕ} (h : CompactsTimes cfg n w w') (hw : w.AtRest)
    (huncut : Uncut cfg w.log.store) (now now' : ℕ) :
    w'.freshSegments now' = w.freshSegments now := by
  induction n generalizing w with
  | zero =>
    rw [show w' = w from h, World.freshSegments_eq, World.freshSegments_eq]
  | succ n ih =>
    obtain ⟨u, hu, hrest⟩ := h
    obtain ⟨hsame, hafter⟩ := hu.freshSegments_eq hw huncut now now
    rw [← hsame]
    exact ih hrest (hu.outcome hw).1 hafter

theorem CompactsTimes.length_le {n : ℕ} (h : CompactsTimes cfg n w w') (hw : w.AtRest)
    (now now' : ℕ) : (w'.freshSegments now').length ≤ (w.freshSegments now).length := by
  induction n generalizing w with
  | zero =>
    rw [show w' = w from h, length_freshSegments, length_freshSegments]
  | succ n ih =>
    obtain ⟨u, hu, hrest⟩ := h
    exact (ih hrest (hu.outcome hw).1).trans (hu.length_le hw now now).1

/-- **What a fresh client sees survives compactions exactly when there is nothing to cut.** -/
theorem freshSegments_compact_iff {n : ℕ} (hw : w.AtRest) (h : CompactsTimes cfg (n + 1) w w')
    (now now' : ℕ) :
    w'.freshSegments now' = w.freshSegments now ↔ Uncut cfg w.log.store := by
  constructor
  · intro heq
    by_contra hcut
    obtain ⟨u, hu, hrest⟩ := h
    have hless := (hu.length_le hw now now).2 hcut
    have hrest := hrest.length_le (hu.outcome hw).1 now now'
    rw [heq] at hrest
    omega
  · intro huncut
    exact h.uncut hw huncut now now'

theorem freshSegments_within_cap : ∃ w,
    (machine fun _ ↦ sampleConfig 9 9).exec (start Unit (sampleStoreOf 3))
      (overLone compactOpening) = some w ∧
    w.freshSegments 8 = (start Unit (sampleStoreOf 3)).freshSegments 7 := by
  obtain ⟨w, hw, hsteps⟩ := Machine.exists_of_guarded (start Unit (sampleStoreOf 3))
    (M := machine fun _ ↦ sampleConfig 9 9) (overLone compactOpening)
    (show Option.isSome (((machine fun _ ↦ sampleConfig 9 9).guarded
      fun _ a ↦ a.2.ofCompaction 0).exec _ _) = true by decide)
  cases hw
  have hcompacts : CompactsTimes (sampleConfig 9 9) 1 (start Unit (sampleStoreOf 3)) _ :=
    ⟨_, ⟨0, rfl, hsteps, rfl⟩, rfl⟩
  exact ⟨_, rfl, (freshSegments_compact_iff (atRest_start _) hcompacts 7 8).mpr
    (Or.inl (by decide))⟩

/-- With one row more than the cap, the compaction goes on to cut. -/
def cuttingRun : List Action :=
  compactOpening ++ [.compact 0 .readSnapshotSeq, .compact 0 .readTail, .compact 0 .setSnapshot,
    .compact 0 (.deleteRows [1, 2]), .compact 0 .finish]

/-- A fresh client sees three segments before the compaction, and one after it. -/
theorem cutting_loses_segments : ∃ w,
    CompactsTo (sampleConfig 9 2) (start Unit (sampleStoreOf 3)) w ∧
    ((start Unit (sampleStoreOf 3)).freshSegments 7).length = 3 ∧
    (w.freshSegments 8).length = 1 := by
  obtain ⟨w, hw, hsteps⟩ := Machine.exists_of_guarded (start Unit (sampleStoreOf 3))
    (M := machine fun _ ↦ sampleConfig 9 2) (overLone cuttingRun)
    (show Option.isSome (((machine fun _ ↦ sampleConfig 9 2).guarded
      fun _ a ↦ a.2.ofCompaction 0).exec _ _) = true by decide)
  cases hw
  exact ⟨_, ⟨0, rfl, hsteps, rfl⟩, by decide, by decide⟩

end World

end Synapse
