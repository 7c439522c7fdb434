import Synapse.Client.FreshJoin
import Synapse.Room.Model
import Synapse.Stroke.Sequencing
import Synapse.Wire.Json

/-!
# Coming back to a quiet board

A client that reconnects reports the number it has reached, in `join-room` or in `request-resync`,
and is sent a history. Both handlers normalize the reported value alike, but only the second
compares it with the highest number on the server: a number from beyond that reaches
`loadForJoin` as it is when it comes with a join, and the reply is empty.

Nothing else goes on here. What a reply holds is then a matter of the baseline, the strokes the
board has (`World.Has`) and their highest number (`World.highest`).
-/

namespace Synapse

open Keyed Transition

namespace World

/-- No flush and no compaction is under way, and no number is in the buffer twice. -/
structure Quiescent (w : World Unit) : Prop where
  flushed : ∀ d, (w.insts ()).batch d = []
  compacted : ∀ c phase, (w.insts ()).compactions c = some phase → phase.underway = false
  buffer : ((w.insts ()).buffer.map PersistedStroke.seq).Nodup

/-- The board has the stroke: as a row, or in the buffer under a number no row has. -/
def Has (w : World Unit) (k : PersistedStroke) : Prop :=
  k ∈ w.log.store.strokes ∨
    (k ∈ (w.insts ()).buffer ∧ ∀ r ∈ w.log.store.strokes, r.seq ≠ k.seq)

instance (w : World Unit) (k : PersistedStroke) : Decidable (w.Has k) :=
  inferInstanceAs (Decidable (_ ∨ (_ ∧ ∀ r ∈ w.log.store.strokes.rows, _)))

/-- The highest number of a stroke the board has, or the baseline if none exceeds it. -/
def highest (w : World Unit) : ℕ :=
  ((w.insts ()).buffer.map PersistedStroke.seq).foldr max w.log.store.highest

/-- The `room-history` of a `join-room` that nothing interferes with. -/
def joinReply (w : World Unit) (raw : Option Json) (now : ℕ) : RoomHistory :=
  w.loadForJoin (Wire.normalizeSinceSeq raw) now

/-- The `room-history` of a `request-resync` that nothing interferes with; `now` and `now'` are the
times at which its two loads reply. -/
def resyncReply (w : World Unit) (raw : Option Json) (now now' : ℕ) : RoomHistory :=
  let sinceSeq := Wire.normalizeSinceSeq raw
  let baseline := w.loadForJoin none now
  if reloadFromBaseline sinceSeq baseline then baseline else w.loadForJoin sinceSeq now'

end World

/-! ## The handlers, run alone -/

/-- What a client reports is normalized like any other value. -/
theorem normalizeSinceSeq_wire (n : ℕ) :
    Wire.normalizeSinceSeq (some (.num (.finite n))) = normalizeSinceSeq n := by
  unfold normalizeSinceSeq
  split_ifs with h
  · subst h
    decide
  · exact Wire.normalizeSinceSeq_eq_some.mpr ⟨rfl, Nat.pos_of_ne_zero h⟩

namespace Room

variable {κ : Type*} [DecidableEq κ] {r : Room κ} {cfg : Config} {userOf : κ → String}

/-- Load `l` runs to its reply, and a resync calls load `m` if it needs another. -/
def loadRun (l now m : ℕ) : List (RoomAction κ) :=
  [.service (.load l .readSnapshotSeq), .service (.load l .readRows), .resolve l now m]

/-- The room with load `l` of the instance set, and all else as it is. -/
private def withLoad (r : Room κ) (l : ℕ) (load : Load) : Room κ :=
  r.setBoard (r.board.put () (r.board.log, (r.board.insts ()).setLoad l load))

omit [DecidableEq κ] in
private theorem withLoad_withLoad (l : ℕ) (load load' : Load) :
    (r.withLoad l load).withLoad l load' = r.withLoad l load' := by
  simp [withLoad, setBoard, World.put, Instance.setLoad]

omit [DecidableEq κ] in
private theorem loads_withLoad (l m : ℕ) (load : Load) :
    ((r.withLoad l load).board.insts ()).loads m
      = if m = l then some load else (r.board.insts ()).loads m := by
  simp [withLoad, setBoard, World.put, Instance.setLoad, Function.update_apply]

omit [DecidableEq κ] in
private theorem onBoard_loadForJoin {l : ℕ} (hl : (r.board.insts ()).loads l = none)
    (sinceSeq : Option ℕ) : r.onBoard cfg (.loadForJoin l sinceSeq)
      = some (r.withLoad l ⟨sinceSeq, r.board.log.accepted, .readingSnapshot⟩) := by
  simp [onBoard, World.step, Instance.step, hl, withLoad]

omit [DecidableEq κ] in
private theorem onBoard_load {l : ℕ} {load load' : Load} {a : LoadAction}
    (h : ((r.board.insts ()).setLoad l load).loadStep r.board.log l a
      = some (r.board.log, ((r.board.insts ()).setLoad l load).setLoad l load')) :
    (r.withLoad l load).onBoard cfg (.load l a) = some (r.withLoad l load') := by
  rw [← withLoad_withLoad l load load']
  simp only [onBoard, World.step, Instance.step, withLoad, setBoard, World.put,
    Function.update_self, h, Option.map_some]

/-- A load that has been called runs to its reply, and its handler goes on. -/
private theorem exec_loadRun (cfg : Config) (userOf : κ → String) {i : κ} {request : Request}
    {l : ℕ} (hrequest : r.requests l = some (i, request)) (sinceSeq : Option ℕ)
    (before : List PersistedStroke) (now m : ℕ) :
    ∃ load, (machine cfg userOf).exec (r.withLoad l ⟨sinceSeq, before, .readingSnapshot⟩)
      (loadRun l now m) = (r.withLoad l load).respond cfg l i request
        (r.board.loadForJoin sinceSeq now) m := by
  let snapshotSeq := r.board.log.store.getSnapshotSeq
  let rows := r.board.log.store.loadSince (fromSeq sinceSeq snapshotSeq)
  let resolved : Load :=
    ⟨sinceSeq, before, .resolved snapshotSeq (r.board.loadForJoin sinceSeq now)⟩
  have hsnapshot : (r.withLoad l ⟨sinceSeq, before, .readingSnapshot⟩).onBoard cfg
      (.load l .readSnapshotSeq)
        = some (r.withLoad l ⟨sinceSeq, before, .readingRows snapshotSeq⟩) :=
    onBoard_load (by simp [Instance.loadStep, Instance.setLoad, snapshotSeq])
  have hrows : (r.withLoad l ⟨sinceSeq, before, .readingRows snapshotSeq⟩).onBoard cfg
      (.load l .readRows) = some (r.withLoad l ⟨sinceSeq, before, .rowsRead snapshotSeq rows⟩) :=
    onBoard_load (by simp [Instance.loadStep, Instance.setLoad, rows])
  have hresolve : (r.withLoad l ⟨sinceSeq, before, .rowsRead snapshotSeq rows⟩).onBoard cfg
      (.load l (.resolve now)) = some (r.withLoad l resolved) := by
    refine onBoard_load ?_
    simp [Instance.loadStep, Instance.setLoad, resolved, World.loadForJoin, Instance.buffer,
      Instance.board, rows, snapshotSeq]
  have hreply : (r.withLoad l resolved).reply l = some (r.board.loadForJoin sinceSeq now) := by
    rw [reply, loads_withLoad, if_pos rfl]
    rfl
  have hrequest' : (r.withLoad l resolved).requests l = some (i, request) := hrequest
  refine ⟨resolved, ?_⟩
  have hlast : (r.withLoad l ⟨sinceSeq, before, .rowsRead snapshotSeq rows⟩).resolve cfg l now m
      = (r.withLoad l resolved).respond cfg l i request (r.board.loadForJoin sinceSeq now) m := by
    rw [resolve, hresolve, Option.bind_some, hrequest', hreply]
  simp only [loadRun, Machine.exec_cons, Machine.exec_nil, machine, step, Action.internal, if_true,
    hsnapshot, hrows, hlast, Option.bind_some, Option.bind_fun_some]

/-- The room with a handler that awaited load `l` gone, and its reply sent. -/
private def answered (r : Room κ) (l : ℕ) (i : κ) (history : RoomHistory) : Room κ :=
  (r.setRequest l none).setSocket i ((r.sockets i).send (.roomHistory history))

private theorem down_answered (l : ℕ) (i : κ) (history : RoomHistory) :
    ((r.answered l i history).sockets i).down = (r.sockets i).down ++ [.roomHistory history] := by
  rw [answered, sockets_setSocket, if_pos rfl]
  rfl

/-- Run step by step, the `join-room` handler sends its reply. -/
theorem exec_joinAlone {i : κ} {n l : ℕ} {up : List ClientMessage}
    (hup : (r.sockets i).up = .joinRoom n :: up) (hl : (r.board.insts ()).loads l = none)
    (now m : ℕ) : ∃ r', (machine cfg userOf).exec r
      ([.receive i l, .presence i (normalizeSinceSeq n) l] ++ loadRun l now m) = some r' ∧
      (r'.sockets i).down = (r.sockets i).down ++
        [.roomHistory (r.board.joinReply (some (.num (.finite n))) now)] := by
  rw [World.joinReply, normalizeSinceSeq_wire]
  let joined := r.setSocket i (((r.sockets i).setUp up).join n)
  let waiting := (joined.setSocket i ((joined.sockets i).arrive (normalizeSinceSeq n))).setRequest l
    (some (i, .join))
  have hreceive : (machine cfg userOf).step r (.receive i l) = some joined := by
    simp only [machine, step, receive, hup, joined]
  have hpresence : (machine cfg userOf).step joined (.presence i (normalizeSinceSeq n) l)
      = some (waiting.withLoad l
          ⟨normalizeSinceSeq n, r.board.log.accepted, .readingSnapshot⟩) := by
    have harriving : normalizeSinceSeq n ∈ (joined.sockets i).arriving := by
      simp [joined, setSocket, Socket.join]
    simp only [machine, step, if_pos harriving]
    exact onBoard_loadForJoin (r := waiting) hl _
  have hrequest : waiting.requests l = some (i, .join) := by simp [waiting, setRequest]
  obtain ⟨load, hrun⟩ := exec_loadRun cfg userOf hrequest (normalizeSinceSeq n)
    r.board.log.accepted now m
  refine ⟨(waiting.withLoad l load).answered l i (r.board.loadForJoin (normalizeSinceSeq n) now),
    ?_, ?_⟩
  · rw [Machine.exec_append, Machine.exec_cons, hreceive, Option.bind_some, Machine.exec_cons,
      hpresence, Option.bind_some, Machine.exec_nil, Option.bind_some, hrun]
    rfl
  · have hdown : ((waiting.withLoad l load).sockets i).down = (r.sockets i).down := by
      simp [waiting, joined, withLoad, setSocket, setRequest, setBoard, Socket.join, Socket.arrive,
        Socket.setUp]
    rw [down_answered, hdown]

/-- Run step by step, the `request-resync` handler sends its reply. -/
theorem exec_resyncAlone {i : κ} {n l m : ℕ} {up : List ClientMessage}
    (hup : (r.sockets i).up = .requestResync n :: up) (hl : (r.board.insts ()).loads l = none)
    (hm : (r.board.insts ()).loads m = none) (hlm : m ≠ l) (now now' : ℕ) :
    ∃ r', (machine cfg userOf).exec r ([.receive i l] ++ loadRun l now m ++
      (if reloadFromBaseline (normalizeSinceSeq n) (r.board.loadForJoin none now) then []
        else loadRun m now' l)) = some r' ∧
      (r'.sockets i).down = (r.sockets i).down ++
        [.roomHistory (r.board.resyncReply (some (.num (.finite n))) now now')] := by
  rw [World.resyncReply, normalizeSinceSeq_wire]
  let probing := (r.setSocket i ((r.sockets i).setUp up)).setRequest l
    (some (i, .probe (normalizeSinceSeq n)))
  have hreceive : (machine cfg userOf).step r (.receive i l)
      = some (probing.withLoad l ⟨none, r.board.log.accepted, .readingSnapshot⟩) := by
    simp only [machine, step, receive, hup]
    exact onBoard_loadForJoin (r := probing) hl _
  have hrequest : probing.requests l = some (i, .probe (normalizeSinceSeq n)) := by
    simp [probing, setRequest]
  have hdown : (probing.sockets i).down = (r.sockets i).down := by
    simp [probing, setSocket, setRequest, Socket.setUp]
  obtain ⟨load, hrun⟩ := exec_loadRun cfg userOf hrequest none
    r.board.log.accepted now m
  have hprobe : (machine cfg userOf).exec r ([.receive i l] ++ loadRun l now m)
      = (probing.withLoad l load).respond cfg l i (.probe (normalizeSinceSeq n))
          (r.board.loadForJoin none now) m := by
    rw [Machine.exec_append, Machine.exec_cons, hreceive, Option.bind_some, Machine.exec_nil,
      Option.bind_some, hrun]
    rfl
  rw [Machine.exec_append, hprobe]
  cases hreload : reloadFromBaseline (normalizeSinceSeq n) (r.board.loadForJoin none now) with
  | true =>
    refine ⟨(probing.withLoad l load).answered l i (r.board.loadForJoin none now), ?_, ?_⟩
    · simp only [respond, hreload, if_true, Option.bind_some, Machine.exec_nil]
      rfl
    · rw [down_answered, ← hdown]
      rfl
  | false =>
    -- the delta is a load of its own
    let loading := ((probing.withLoad l load).setRequest l none).setRequest m (some (i, .delta))
    have hcall : (probing.withLoad l load).respond cfg l i (.probe (normalizeSinceSeq n))
        (r.board.loadForJoin none now) m = some (loading.withLoad m
          ⟨normalizeSinceSeq n, r.board.log.accepted, .readingSnapshot⟩) := by
      simp only [respond, hreload, Bool.false_eq_true, if_false]
      refine onBoard_loadForJoin (r := loading) ?_ _
      exact (loads_withLoad l m load).trans ((if_neg hlm).trans hm)
    have hrequest' : loading.requests m = some (i, .delta) := by simp [loading, setRequest]
    obtain ⟨load', hrun'⟩ := exec_loadRun cfg userOf hrequest'
      (normalizeSinceSeq n) r.board.log.accepted now' l
    refine ⟨(loading.withLoad m load').answered m i
      (r.board.loadForJoin (normalizeSinceSeq n) now'), ?_, ?_⟩
    · rw [hcall, Option.bind_some, if_neg Bool.false_ne_true, hrun']
      rfl
    · rw [down_answered, if_neg Bool.false_ne_true, ← hdown]
      rfl

end Room

namespace World

variable {w : World Unit}

/-! ## What the board has -/

theorem le_highest_iff {n : ℕ} :
    n ≤ w.highest ↔ n ≤ w.log.store.getSnapshotSeq ∨ ∃ k, w.Has k ∧ n ≤ k.seq := by
  rw [highest, le_foldr_max, BoardStore.le_highest_iff, or_assoc]
  refine or_congr_right ⟨?_, ?_⟩
  · rintro (⟨r, hr, hle⟩ | ⟨m, hm, hle⟩)
    · exact ⟨r, Or.inl hr, hle⟩
    · obtain ⟨k, hk, rfl⟩ := List.mem_map.mp hm
      by_cases hrow : ∃ r ∈ w.log.store.strokes, r.seq = k.seq
      · obtain ⟨r, hr, hseq⟩ := hrow
        exact ⟨r, Or.inl hr, hseq ▸ hle⟩
      · exact ⟨k, Or.inr ⟨hk, fun r hr hseq ↦ hrow ⟨r, hr, hseq⟩⟩, hle⟩
  · rintro ⟨k, hk | ⟨hk, -⟩, hle⟩
    · exact Or.inl ⟨k, hk, hle⟩
    · exact Or.inr ⟨k.seq, List.mem_map_of_mem hk, hle⟩

/-! ## One load -/

/-- A load replies with what the board has above the bound. -/
theorem mem_loadForJoin {sinceSeq : Option ℕ} {now : ℕ} {k : PersistedStroke} :
    k ∈ (w.loadForJoin sinceSeq now).strokes ↔
      w.Has k ∧ fromSeq sinceSeq w.log.store.getSnapshotSeq < k.seq := by
  rw [loadForJoin, joinHistory, mem_mergeBufferedStrokes, BoardStore.mem_loadSince]
  constructor
  · rintro (⟨hrow, hlt⟩ | ⟨hbuffer, hlt, hseen⟩)
    · exact ⟨Or.inl hrow, hlt⟩
    · refine ⟨Or.inr ⟨hbuffer, fun r hr hseq ↦ hseen ?_⟩, hlt⟩
      exact List.mem_map.mpr ⟨r, BoardStore.mem_loadSince.mpr ⟨hr, hseq ▸ hlt⟩, hseq⟩
  · rintro ⟨hrow | ⟨hbuffer, hfree⟩, hlt⟩
    · exact Or.inl ⟨hrow, hlt⟩
    · refine Or.inr ⟨hbuffer, hlt, fun hseen ↦ ?_⟩
      obtain ⟨r, hr, hseq⟩ := List.mem_map.mp hseen
      exact hfree r (BoardStore.mem_loadSince.mp hr).1 hseq

theorem Quiescent.ascending_loadForJoin (hw : w.Quiescent) (sinceSeq : Option ℕ) (now : ℕ) :
    Ascending PersistedStroke.seq (w.loadForJoin sinceSeq now).strokes :=
  ascending_mergeBufferedStrokes _ (BoardStore.ascending_loadSince _ _) hw.buffer

theorem snapshotSeq_loadForJoin (sinceSeq : Option ℕ) (now : ℕ) :
    (w.loadForJoin sinceSeq now).snapshot.map BoardSnapshot.snapshotSeq
      = if includeSnapshot sinceSeq w.log.store.getSnapshotSeq then
          some w.log.store.getSnapshotSeq
        else none := by
  rw [loadForJoin, joinHistory]
  split_ifs <;> rfl

theorem getD_snapshotSeq_loadForJoin (now : ℕ) :
    ((w.loadForJoin none now).snapshot.map BoardSnapshot.snapshotSeq).getD 0
      = w.log.store.getSnapshotSeq := by
  rw [snapshotSeq_loadForJoin, includeSnapshot, Option.all_none, Bool.and_true]
  simp only [decide_eq_true_iff]
  split_ifs with h
  · rfl
  · exact (Nat.eq_zero_of_not_pos h).symm

theorem Quiescent.getD_getLast_loadForJoin (hw : w.Quiescent) (now : ℕ) :
    ((w.loadForJoin none now).strokes.getLast?.map PersistedStroke.seq).getD
      w.log.store.getSnapshotSeq = w.highest := by
  have hasc := hw.ascending_loadForJoin none now
  have hmem : ∀ k, k ∈ (w.loadForJoin none now).strokes ↔
      w.Has k ∧ w.log.store.getSnapshotSeq < k.seq := fun k ↦ mem_loadForJoin
  generalize (w.loadForJoin none now).strokes = strokes at hasc hmem
  rcases eq_or_ne strokes [] with rfl | hne
  · refine le_antisymm (le_highest_iff.mpr (Or.inl le_rfl)) ?_
    rcases le_highest_iff.mp (le_refl w.highest) with hle | ⟨k, hk, hle⟩
    · exact hle
    · by_contra hlt
      exact List.not_mem_nil ((hmem k).mpr ⟨hk, (not_le.mp hlt).trans_le hle⟩)
  · rw [List.getLast?_eq_some_getLast hne, Option.map_some, Option.getD_some]
    obtain ⟨hlast, habove⟩ := (hmem _).mp (List.getLast_mem hne)
    refine le_antisymm (le_highest_iff.mpr (Or.inr ⟨_, hlast, le_rfl⟩)) ?_
    rcases le_highest_iff.mp (le_refl w.highest) with hle | ⟨k, hk, hle⟩
    · exact hle.trans habove.le
    · by_cases hk' : w.log.store.getSnapshotSeq < k.seq
      · exact hle.trans (hasc.key_le_getLast hne ((hmem k).mpr ⟨hk, hk'⟩))
      · omega

/-! ## The reply to a resync -/

/-- The reported value is a position above the baseline that the server has reached. -/
def Within (w : World Unit) (raw : Option Json) (n : ℕ) : Prop :=
  Wire.Reports raw n ∧ w.log.store.getSnapshotSeq ≤ n ∧ n ≤ w.highest

theorem Quiescent.reloadFromBaseline_iff (hw : w.Quiescent) (sinceSeq : Option ℕ) (now : ℕ) :
    reloadFromBaseline sinceSeq (w.loadForJoin none now) = true ↔
      ∀ n ∈ sinceSeq, n < w.log.store.getSnapshotSeq ∨ w.highest < n := by
  unfold reloadFromBaseline
  dsimp only
  rw [getD_snapshotSeq_loadForJoin, hw.getD_getLast_loadForJoin]
  cases sinceSeq <;> simp

theorem Quiescent.resyncReply_of_within (hw : w.Quiescent) {raw : Option Json} {n : ℕ}
    (h : w.Within raw n) (now now' : ℕ) :
    w.resyncReply raw now now' = w.loadForJoin (some n) now' := by
  obtain ⟨hraw, hle, hle'⟩ := h
  unfold resyncReply
  dsimp only
  rw [Wire.normalizeSinceSeq_eq_some.mpr hraw, if_neg]
  rw [hw.reloadFromBaseline_iff]
  intro hall
  rcases hall n rfl with hlt | hlt <;> omega

theorem Quiescent.resyncReply_of_not_within (hw : w.Quiescent) {raw : Option Json}
    (h : ∀ n, ¬ w.Within raw n) (now now' : ℕ) :
    w.resyncReply raw now now' = w.loadForJoin none now := by
  unfold resyncReply
  dsimp only
  rw [if_pos]
  rw [hw.reloadFromBaseline_iff]
  intro n hn
  have := h n
  have hraw := Wire.normalizeSinceSeq_eq_some.mp hn
  rw [Within] at this
  by_contra hnot
  exact this ⟨hraw, by omega, by omega⟩

/-- **What a resync is answered with.** A position the server has reached gets the strokes above
it; any other value gets the baseline and the strokes above that. -/
theorem resync_reply (hw : w.Quiescent) (raw : Option Json) (now now' : ℕ) :
    (∀ n, w.Within raw n → (w.resyncReply raw now now').snapshot = none ∧
      ∀ k, k ∈ (w.resyncReply raw now now').strokes ↔ w.Has k ∧ n < k.seq) ∧
    ((∀ n, ¬ w.Within raw n) →
      ((w.resyncReply raw now now').snapshot.map BoardSnapshot.snapshotSeq
        = if 0 < w.log.store.getSnapshotSeq then some w.log.store.getSnapshotSeq else none) ∧
      ∀ k, k ∈ (w.resyncReply raw now now').strokes ↔
        w.Has k ∧ w.log.store.getSnapshotSeq < k.seq) ∧
    Ascending PersistedStroke.seq (w.resyncReply raw now now').strokes := by
  refine ⟨fun n hn ↦ ?_, fun hnone ↦ ?_, ?_⟩
  · rw [hw.resyncReply_of_within hn]
    have hsnapshot := snapshotSeq_loadForJoin (w := w) (some n) now'
    have hinclude : includeSnapshot (some n) w.log.store.getSnapshotSeq = false := by
      simp [includeSnapshot, hn.2.1]
    rw [hinclude, if_neg Bool.false_ne_true, Option.map_eq_none_iff] at hsnapshot
    refine ⟨hsnapshot, fun k ↦ ?_⟩
    rw [mem_loadForJoin, fromSeq, max_eq_left hn.2.1]
  · rw [hw.resyncReply_of_not_within hnone]
    refine ⟨?_, fun k ↦ mem_loadForJoin⟩
    rw [snapshotSeq_loadForJoin]
    simp [includeSnapshot]
  · by_cases h : ∃ n, w.Within raw n
    · obtain ⟨n, hn⟩ := h
      rw [hw.resyncReply_of_within hn]
      exact hw.ascending_loadForJoin _ _
    · rw [hw.resyncReply_of_not_within (not_exists.mp h)]
      exact hw.ascending_loadForJoin _ _

/-! ## A board with leftovers -/

/-- The baseline is 2, the first two rows are left over from a compaction, and stroke 4 is both a
row and, after a failed `touch`, in the buffer again. -/
def sampleQuiet : World Unit where
  log := ⟨{ sampleStoreOf 4 with boardRow := some 2 }, [], []⟩
  insts _ := { state := some { buffer := [sampleStroke 4, sampleStroke 5], nextSeq := 6 } }

theorem quiescent_sampleQuiet : sampleQuiet.Quiescent :=
  ⟨fun _ ↦ rfl, fun _ _ h ↦ (by cases h), by decide⟩

/-- A client at 3 is sent the strokes 4 and 5. -/
theorem resync_reply_sampleQuiet :
    sampleQuiet.Within (some (.num (.finite (3 : ℕ)))) 3 ∧
    ((sampleQuiet.resyncReply (some (.num (.finite (3 : ℕ)))) 7 8).strokes.map
      PersistedStroke.seq) = [4, 5] ∧
    (∀ k, k ∈ (sampleQuiet.resyncReply (some (.num (.finite (3 : ℕ)))) 7 8).strokes ↔
      sampleQuiet.Has k ∧ 3 < k.seq) := by
  have hwithin : sampleQuiet.Within (some (.num (.finite (3 : ℕ)))) 3 :=
    ⟨⟨rfl, by decide⟩, by decide, by decide⟩
  have hreply :=
    (resync_reply quiescent_sampleQuiet (some (.num (.finite (3 : ℕ)))) 7 8).1 3 hwithin
  refine ⟨hwithin, ?_, hreply.2⟩
  rw [quiescent_sampleQuiet.resyncReply_of_within hwithin]
  decide

/-! ## The reply to a join -/

/-- The histories hold the same strokes and the same baseline, or none. -/
def Agree (history history' : RoomHistory) : Prop :=
  history.strokes = history'.strokes ∧
    history.snapshot.map BoardSnapshot.snapshotSeq
      = history'.snapshot.map BoardSnapshot.snapshotSeq

instance (history history' : RoomHistory) : Decidable (Agree history history') :=
  inferInstanceAs (Decidable (_ ∧ _))

/-- What a load replies depends on the baseline, its bound and whether it carries the baseline. -/
theorem agree_loadForJoin {sinceSeq sinceSeq' : Option ℕ}
    (hfrom : fromSeq sinceSeq w.log.store.getSnapshotSeq
      = fromSeq sinceSeq' w.log.store.getSnapshotSeq)
    (hinclude : includeSnapshot sinceSeq w.log.store.getSnapshotSeq
      = includeSnapshot sinceSeq' w.log.store.getSnapshotSeq) (now now' : ℕ) :
    Agree (w.loadForJoin sinceSeq now) (w.loadForJoin sinceSeq' now') := by
  refine ⟨?_, ?_⟩
  · rw [loadForJoin, loadForJoin, hfrom, joinHistory, joinHistory, hfrom]
  · rw [snapshotSeq_loadForJoin, snapshotSeq_loadForJoin, hinclude]

theorem loadForJoin_beyond {n : ℕ} (h : w.highest < n) (now : ℕ) :
    (w.loadForJoin (some n) now).strokes = [] ∧
      (w.loadForJoin (some n) now).snapshot.map BoardSnapshot.snapshotSeq = none := by
  have hbase : w.log.store.getSnapshotSeq ≤ w.highest := le_highest_iff.mpr (Or.inl le_rfl)
  refine ⟨List.eq_nil_iff_forall_not_mem.mpr fun k hk ↦ ?_, ?_⟩
  · obtain ⟨hhas, hlt⟩ := mem_loadForJoin.mp hk
    have hle : k.seq ≤ w.highest := le_highest_iff.mpr (Or.inr ⟨k, hhas, le_rfl⟩)
    rw [fromSeq, max_eq_left (by omega)] at hlt
    omega
  · have hinclude : includeSnapshot (some n) w.log.store.getSnapshotSeq = false := by
      simp [includeSnapshot, hbase.trans h.le]
    rw [snapshotSeq_loadForJoin, hinclude, if_neg Bool.false_ne_true]

/-- A probe sends nothing at all exactly when the board is empty and has never been compacted. -/
theorem probe_empty_iff (now : ℕ) : ((w.loadForJoin none now).strokes = [] ∧
    (w.loadForJoin none now).snapshot.map BoardSnapshot.snapshotSeq = none) ↔ w.highest = 0 := by
  have hmem : ∀ k, k ∈ (w.loadForJoin none now).strokes ↔
      w.Has k ∧ w.log.store.getSnapshotSeq < k.seq := fun k ↦ mem_loadForJoin
  have hsnapshot : (w.loadForJoin none now).snapshot.map BoardSnapshot.snapshotSeq = none ↔
      w.log.store.getSnapshotSeq = 0 := by
    simp [snapshotSeq_loadForJoin, includeSnapshot]
  rw [hsnapshot]
  constructor
  · rintro ⟨hnil, hzero⟩
    rcases le_highest_iff.mp (le_refl w.highest) with hle | ⟨k, hk, hle⟩
    · omega
    · have hnot : ¬ w.log.store.getSnapshotSeq < k.seq := fun hlt ↦ by
        have := (hmem k).mpr ⟨hk, hlt⟩
        rw [hnil] at this
        cases this
      omega
  · intro hzero
    have hbase : w.log.store.getSnapshotSeq ≤ w.highest := le_highest_iff.mpr (Or.inl le_rfl)
    refine ⟨List.eq_nil_iff_forall_not_mem.mpr fun k hk ↦ ?_, by omega⟩
    obtain ⟨hhas, hlt⟩ := (hmem k).mp hk
    have hle : k.seq ≤ w.highest := le_highest_iff.mpr (Or.inr ⟨k, hhas, le_rfl⟩)
    omega

/-- **The two entry points agree on every value but the numbers beyond the highest**, and on those
only when there is nothing to send anyway. -/
theorem joinReply_agrees_iff (hw : w.Quiescent) (raw : Option Json) (now now' now'' : ℕ) :
    Agree (w.joinReply raw now) (w.resyncReply raw now' now'') ↔
      ∀ n, Wire.Reports raw n → n ≤ w.highest ∨ w.highest = 0 := by
  have hbase : w.log.store.getSnapshotSeq ≤ w.highest := le_highest_iff.mpr (Or.inl le_rfl)
  rw [joinReply]
  cases hsince : Wire.normalizeSinceSeq raw with
  | none =>
    have hnone := Wire.normalizeSinceSeq_eq_none.mp hsince
    rw [hw.resyncReply_of_not_within fun n hn ↦ hnone n hn.1]
    exact iff_of_true (agree_loadForJoin rfl rfl _ _) fun n hn ↦ absurd hn (hnone n)
  | some n =>
    have hraw := Wire.normalizeSinceSeq_eq_some.mp hsince
    have honly : ∀ m, Wire.Reports raw m → m = n := fun m hm ↦ by
      rw [Wire.normalizeSinceSeq_eq_some.mpr hm] at hsince
      exact Option.some_inj.mp hsince
    have hiff : (∀ m, Wire.Reports raw m → m ≤ w.highest ∨ w.highest = 0) ↔
        n ≤ w.highest ∨ w.highest = 0 :=
      ⟨fun h ↦ h n hraw, fun h m hm ↦ honly m hm ▸ h⟩
    rw [hiff]
    by_cases hle : n ≤ w.highest
    · refine iff_of_true ?_ (Or.inl hle)
      by_cases hbelow : n < w.log.store.getSnapshotSeq
      · -- below the baseline a load ignores the position by itself
        rw [hw.resyncReply_of_not_within fun m hm ↦ by
          have := honly m hm.1
          have := hm.2.1
          omega]
        have hfrom : fromSeq (some n) w.log.store.getSnapshotSeq
            = fromSeq none w.log.store.getSnapshotSeq := max_eq_right hbelow.le
        refine agree_loadForJoin hfrom ?_ _ _
        simp [includeSnapshot, hbelow]
      · rw [hw.resyncReply_of_within ⟨hraw, by omega, hle⟩]
        exact agree_loadForJoin rfl rfl _ _
    · rw [hw.resyncReply_of_not_within fun m hm ↦ hle (honly m hm.1 ▸ hm.2.2),
        ← probe_empty_iff now', Agree, (loadForJoin_beyond (not_le.mp hle) now).1,
        (loadForJoin_beyond (not_le.mp hle) now).2, or_iff_right hle]
      exact and_congr eq_comm eq_comm

/-- A client at 3 is sent the same by either. -/
theorem joinReply_agrees_sampleQuiet :
    Agree (sampleQuiet.joinReply (some (.num (.finite (3 : ℕ)))) 6)
      (sampleQuiet.resyncReply (some (.num (.finite (3 : ℕ)))) 7 8) := by
  refine (joinReply_agrees_iff quiescent_sampleQuiet _ 6 7 8).mpr fun n hn ↦ Or.inl ?_
  have hthree : (3 : ℚ) = n := by
    have := hn.1
    simp only [Option.some_inj, Json.num.injEq, JsNumber.finite.injEq] at this
    exact_mod_cast this
  have hn3 : n = 3 := by exact_mod_cast hthree.symm
  rw [hn3]
  decide

/-- A client at 9, of which the server has lost the last strokes, is sent the strokes above the
baseline by a resync and nothing by a join. -/
theorem join_ahead_of_server :
    (sampleQuiet.joinReply (some (.num (.finite (9 : ℕ)))) 6).strokes = [] ∧
    (sampleQuiet.resyncReply (some (.num (.finite (9 : ℕ)))) 7 8).strokes.map
      PersistedStroke.seq = [3, 4, 5] ∧
    ¬ Agree (sampleQuiet.joinReply (some (.num (.finite (9 : ℕ)))) 6)
      (sampleQuiet.resyncReply (some (.num (.finite (9 : ℕ)))) 7 8) := by
  decide

end World

end Synapse
