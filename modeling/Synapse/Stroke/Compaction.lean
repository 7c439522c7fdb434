import Synapse.Stroke.Baseline

/-!
# One compaction, run alone

On a board where nothing else is going on, a call of `maybeCompact` either does nothing, because
the rows are within the cap, or moves the baseline to the cut and deletes the rows the cut covers.
`Stage` follows the call through its awaits, including the restore it starts on a board not opened
before, and `Outcome` is what it has done when it resolves.
-/

namespace Synapse

open Keyed Transition

theorem cutSeq_cases (cfg : Config) (snapshotSeq : ℕ) (tail : List PersistedStroke) :
    (tail.length ≤ keepTail cfg ∧ cutSeq cfg snapshotSeq tail = snapshotSeq) ∨
      (keepTail cfg < tail.length ∧ ∃ r ∈ tail, cutSeq cfg snapshotSeq tail = r.seq) := by
  unfold cutSeq
  split_ifs with h
  · have hindex : tail.length - keepTail cfg - 1 < tail.length := by omega
    refine Or.inr ⟨h, tail[tail.length - keepTail cfg - 1], List.getElem_mem hindex, ?_⟩
    rw [List.getElem?_eq_getElem hindex, Option.map_some, Option.getD_some]
  · exact Or.inl ⟨not_lt.mp h, rfl⟩

/-- The rows of `store` above the new baseline `cut` are still those of `before`. -/
structure CutAt (before : BoardStore) (cut : ℕ) (store : BoardStore) : Prop where
  snapshot : store.getSnapshotSeq = cut
  rows : store.loadSince cut = before.loadSince cut

/-- The baseline and the rows of `store` are those of `before`. -/
structure Same (before store : BoardStore) : Prop where
  snapshot : store.getSnapshotSeq = before.getSnapshotSeq
  rows : store.strokes = before.strokes

theorem Same.cutAt {before store : BoardStore} (h : Same before store) :
    CutAt before before.getSnapshotSeq store :=
  ⟨h.snapshot, by rw [BoardStore.loadSince, h.rows]; rfl⟩

/-- The cut a compaction of `store` computes. -/
def BoardStore.cut (cfg : Config) (store : BoardStore) : ℕ :=
  cutSeq cfg store.getSnapshotSeq (store.loadSince store.getSnapshotSeq)

theorem BoardStore.cut_eq_of_not_lt {cfg : Config} (store : BoardStore)
    (h : ¬ store.getSnapshotSeq < store.cut cfg) : store.cut cfg = store.getSnapshotSeq := by
  rcases cutSeq_cases cfg store.getSnapshotSeq (store.loadSince store.getSnapshotSeq)
    with ⟨-, hcut⟩ | ⟨-, r, hr, hcut⟩
  · exact hcut
  · have habove := (BoardStore.mem_loadSince.mp hr).2
    rw [cut, hcut] at h
    exact absurd habove h

theorem BoardStore.le_cut (cfg : Config) (store : BoardStore) :
    store.getSnapshotSeq ≤ store.cut cfg := by
  by_contra h
  exact h (store.cut_eq_of_not_lt (by omega)).ge

theorem BoardStore.loadSince_deleteRows {store : BoardStore} {n : ℕ} {victims : List ℕ}
    (h : store.Deletable n victims) : (store.deleteRows victims).loadSince n = store.loadSince n :=
  Table.above_deleteWhere fun _ _ hvictim ↦ h.le (of_decide_eq_true hvictim)

/-- What a compaction that resolves has done. -/
def Outcome (cfg : Config) (before store : BoardStore) : Prop :=
  if before.count ≤ cfg.strokeCap then Same before store else CutAt before (before.cut cfg) store

/-- Whether the action is a step of compaction `c`, or of the restore it awaits, and does not
fail. -/
def Action.ofCompaction (c : ℕ) : Action → Bool
  | .maybeCompact e => e == c
  | .resume _ _ _ => true
  | .restore r => r != .fail
  | .compact e r => e == c && r != .fail
  | _ => false

theorem ofCompaction_compact {c e : ℕ} {r : CompactAction}
    (h : (Action.compact e r).ofCompaction c) : e = c := by
  rw [Action.ofCompaction, Bool.and_eq_true, beq_iff_eq] at h
  exact h.1

namespace Instance

variable {cfg : Config} {before : BoardStore} {log log' : BoardLog} {inst inst' : Instance}
  {a : Action} {c : ℕ}

/-- What has been done to the board when compaction `c` is in a given phase. -/
def Done (cfg : Config) (before store : BoardStore) : Option CompactionPhase → Prop
  | none | some .initializing | some .counting => Same before store
  | some (.counted total) => Same before store ∧ total = before.count
  | some .readingSnapshot => Same before store ∧ cfg.strokeCap < before.count
  | some (.readingTail snapshotSeq) =>
    Same before store ∧ cfg.strokeCap < before.count ∧ snapshotSeq = before.getSnapshotSeq
  | some (.settingSnapshot cut) =>
    Same before store ∧ cfg.strokeCap < before.count ∧ cut = before.cut cfg
  | some (.deleting cut) =>
    cfg.strokeCap < before.count ∧ cut = before.cut cfg ∧ CutAt before cut store
  | some .deleted => cfg.strokeCap < before.count ∧ CutAt before (before.cut cfg) store
  | some .resolved => Outcome cfg before store
  | some .rejected => False

/-- Who awaits the restore when compaction `c` is in a given phase and no other call is under
way. -/
def Awaits (c : ℕ) (inst : Instance) : Option CompactionPhase → Prop
  | none => inst.ready = [] ∧ inst.waiting = [] ∧
      (inst.board.initPromise = none ∨ inst.board.initPromise = some .fulfilled)
  | some .initializing =>
    (inst.board.initPromise ≠ some .fulfilled ∧ inst.ready = [] ∧
      inst.waiting = [.maybeCompact c]) ∨
    (inst.board.initPromise = some .fulfilled ∧ inst.ready = [.maybeCompact c] ∧ inst.waiting = [])
  | _ => inst.board.initPromise = some .fulfilled ∧ inst.ready = [] ∧ inst.waiting = []

/-- Whether the guard is down when compaction `c` is in a given phase. -/
def Unguarded (inst : Instance) (phase : Option CompactionPhase) : Prop :=
  (phase.all fun p ↦ !p.critical) = true → inst.board.compacting = false

/-- How far compaction `c` has come, alone on the board. -/
structure Stage (cfg : Config) (c : ℕ) (before : BoardStore) (buffer : List PersistedStroke)
    (log : BoardLog) (inst : Instance) : Prop where
  grounded : inst.Grounded log
  buffer : inst.buffer = buffer
  awaits : Awaits c inst (inst.compactions c)
  unguarded : Unguarded inst (inst.compactions c)
  done : Done cfg before log.store (inst.compactions c)

variable {buffer : List PersistedStroke}

theorem Awaits.ready {phase : Option CompactionPhase} (h : Awaits c inst phase) :
    inst.ready = [] ∨ (phase = some .initializing ∧ inst.board.initPromise = some .fulfilled ∧
      inst.ready = [.maybeCompact c] ∧ inst.waiting = []) := by
  unfold Awaits at h
  split at h
  · exact Or.inl h.1
  · rcases h with ⟨-, hready, -⟩ | ⟨hp, hready, hwaiting⟩
    · exact Or.inl hready
    · exact Or.inr ⟨rfl, hp, hready, hwaiting⟩
  · exact Or.inl h.2.1

theorem Awaits.restoring {phase : Option CompactionPhase} (h : Awaits c inst phase)
    {promise : InitPromise} (hp : inst.board.initPromise = some promise)
    (hpending : promise ≠ .fulfilled) :
    phase = some .initializing ∧ inst.ready = [] ∧ inst.waiting = [.maybeCompact c] := by
  unfold Awaits at h
  rw [hp] at h
  have hne : some promise ≠ some .fulfilled := fun heq ↦ hpending (Option.some_inj.mp heq)
  split at h
  · exact absurd h.2.2 (by simp [hpending])
  · rcases h with ⟨-, hready, hwaiting⟩ | ⟨hf, -⟩
    · exact ⟨rfl, hready, hwaiting⟩
    · exact absurd hf hne
  · exact absurd h.1 hne

theorem Stage.restore (hst : Stage cfg c before buffer log inst)
    (hphase : inst.compactions c = some .initializing) (hg : inst'.Grounded log')
    (hbuffer : inst'.buffer = inst.buffer) (hcompactions : inst'.compactions = inst.compactions)
    (hguard : inst'.board.compacting = inst.board.compacting)
    (hsnapshot : log'.store.getSnapshotSeq = log.store.getSnapshotSeq)
    (hrows : log'.store.strokes = log.store.strokes)
    (hawaits : Awaits c inst' (some .initializing)) : Stage cfg c before buffer log' inst' := by
  obtain ⟨-, hbuf, -, hung, hdone⟩ := hst
  rw [hphase] at hung hdone
  have hsame : Same before log.store := hdone
  refine ⟨hg, hbuffer.trans hbuf, ?_, ?_, ?_⟩ <;> rw [hcompactions, hphase]
  · exact hawaits
  · exact fun hnot ↦ hguard.trans (hung hnot)
  · exact ⟨hsnapshot.trans hsame.snapshot, hrows.trans hsame.rows⟩

theorem compactions_setCompaction_self (inst : Instance) (c : ℕ) (phase : CompactionPhase) :
    (inst.setCompaction c phase).compactions c = some phase :=
  Function.update_self _ _ _

theorem Stage.quiet (hst : Stage cfg c before buffer log inst) {phase : CompactionPhase}
    (hphase : inst.compactions c = some phase) (hunder : phase.underway) :
    inst.board.initPromise = some .fulfilled ∧ inst.ready = [] ∧ inst.waiting = [] := by
  have hawaits := hst.awaits
  rw [hphase] at hawaits
  cases phase <;> first | exact hawaits | cases hunder

/-- Compaction `c`, past its restore, moves on to `phase`. Of the rest of the instance a step may
change what the calls do not wait for: `base` is the instance before `phase` is set. -/
theorem Stage.advance (hst : Stage cfg c before buffer log inst) {old phase : CompactionPhase}
    {base : Instance} (hold : inst.compactions c = some old) (hunder : old.underway)
    (hg : (base.setCompaction c phase).Grounded log') (hne : phase ≠ .initializing)
    (hbase : base.ready = inst.ready ∧ base.waiting = inst.waiting ∧ base.buffer = inst.buffer ∧
      base.board.initPromise = inst.board.initPromise)
    (hguard : phase.critical = false → base.board.compacting = false)
    (hdone : Done cfg before log'.store (some phase)) :
    Stage cfg c before buffer log' (base.setCompaction c phase) := by
  obtain ⟨hfulfilled, hnone, hnobody⟩ := hst.quiet hold hunder
  obtain ⟨hready, hwaiting, hbuffer, hpromise⟩ := hbase
  refine ⟨hg, hbuffer.trans hst.buffer, ?_, ?_, ?_⟩ <;> rw [compactions_setCompaction_self]
  · have hafter : base.board.initPromise = some .fulfilled ∧ base.ready = [] ∧ base.waiting = [] :=
      ⟨hpromise.trans hfulfilled, hready.trans hnone, hwaiting.trans hnobody⟩
    cases phase <;> first | exact hafter | exact absurd rfl hne
  · exact fun hnot ↦ hguard (by simpa using hnot)
  · exact hdone

/-- The call awaits the restore, unless the board has been restored. -/
theorem Stage.call (hst : Stage cfg c before buffer log inst)
    (h : Step cfg log inst (.maybeCompact c) log' inst') :
    Stage cfg c before buffer log' inst' := by
  have hg := hst.grounded.step h
  have hawaits := hst.awaits
  have hung := hst.unguarded
  have hdone := hst.done
  cases h with
  | maybeCompact _ hidle =>
    rw [hidle] at hawaits hung hdone
    obtain ⟨hready, hwaiting, hpromise⟩ := hawaits
    have hphase : ((inst.setCompaction c .initializing).ensureInitialized
        (.maybeCompact c)).compactions c = some .initializing := by
      rw [compactions_ensureInitialized, compactions_setCompaction_self]
    have hguard : ((inst.setCompaction c .initializing).ensureInitialized
        (.maybeCompact c)).board.compacting = inst.board.compacting :=
      (frame_ensureInitialized _).2.2.2.2
    have hheld : ((inst.setCompaction c .initializing).ensureInitialized (.maybeCompact c)).held
        = inst.held := held_ensureInitialized _
    refine ⟨hg, ?_, ?_, ?_, ?_⟩
    · exact (congrFun hheld none).trans hst.buffer
    · rw [hphase]
      rcases hpromise with hp | hp
      · left
        unfold ensureInitialized
        rw [board_setCompaction, hp]
        exact ⟨by simp [setWaiting, setInitPromise, setBoard, board], hready,
          by simp [setWaiting, setCompaction, hwaiting]⟩
      · right
        unfold ensureInitialized
        rw [board_setCompaction, hp]
        exact ⟨hp, by simp [setReady, setCompaction, hready], hwaiting⟩
    · rw [hphase]
      exact fun _ ↦ hguard.trans (hung rfl)
    · rw [hphase]
      exact hdone

theorem Stage.resumes (hst : Stage cfg c before buffer log inst) {id : String} {ts d : ℕ}
    (h : Step cfg log inst (.resume id ts d) log' inst') :
    Stage cfg c before buffer log' inst' := by
  have hg := hst.grounded.step h
  have hawaits := hst.awaits
  have hung := hst.unguarded
  have hdone := hst.done
  cases h with
  | resumeAppend _ _ _ _ _ _ _ hready =>
    rcases hawaits.ready with hnil | ⟨-, -, hone, -⟩
    · rw [hnil] at hready
      cases hready
    · rw [hone] at hready
      cases hready
  | resumeCompact _ _ _ e ready hready =>
    rcases hawaits.ready with hnil | ⟨hphase, hp, hone, hwaiting⟩
    · rw [hnil] at hready
      cases hready
    · rw [hone] at hready
      cases hready
      rw [hphase] at hung hdone
      -- the guard is down, so the call is the one that counts
      rw [hung rfl] at hg ⊢
      have hafter := compactions_setCompaction_self (inst.setReady []) c .counting
      refine ⟨hg, hst.buffer, ?_, ?_, ?_⟩ <;> rw [if_neg Bool.false_ne_true, hafter]
      · exact ⟨hp, rfl, hwaiting⟩
      · exact fun _ ↦ hung rfl
      · exact hdone

theorem Stage.restore_step (hst : Stage cfg c before buffer log inst) {r : RestoreAction}
    (h : Step cfg log inst (.restore r) log' inst') (hr : r ≠ .fail) :
    Stage cfg c before buffer log' inst' := by
  have hg := hst.grounded.step h
  have hawaits := hst.awaits
  cases h with
  | restoreEnsure hp =>
    obtain ⟨hphase, hready, hwaiting⟩ := hawaits.restoring hp (by simp)
    exact hst.restore hphase hg rfl rfl rfl rfl rfl
      (Or.inl ⟨by simp [setInitPromise], hready, hwaiting⟩)
  | restoreSnapshot hp | restoreTail _ hp =>
    obtain ⟨hphase, hready, hwaiting⟩ := hawaits.restoring hp (by simp)
    exact hst.restore hphase hg rfl rfl rfl rfl rfl
      (Or.inl ⟨by simp [setInitPromise], hready, hwaiting⟩)
  | restoreFinish highest hp =>
    obtain ⟨hphase, hready, hwaiting⟩ := hawaits.restoring hp (by simp)
    refine hst.restore hphase hg rfl rfl rfl rfl rfl (Or.inr ⟨rfl, ?_, rfl⟩)
    simp [finishRestore, hready, hwaiting]
  | restoreFail => exact absurd rfl hr

theorem Stage.compact_step (hst : Stage cfg c before buffer log inst) {r : CompactAction}
    (h : Step cfg log inst (.compact c r) log' inst') (hr : r ≠ .fail) :
    Stage cfg c before buffer log' inst' := by
  have hg := hst.grounded.step h
  have hung := hst.unguarded
  have hdone := hst.done
  cases h with
  | count _ hphase =>
    rw [hphase] at hung hdone
    have hcount : log.store.count = before.count := by
      rw [BoardStore.count, hdone.rows, BoardStore.count]
    exact hst.advance hphase rfl hg (by simp) ⟨rfl, rfl, rfl, rfl⟩ (fun _ ↦ hung rfl)
      ⟨hdone, hcount⟩
  | proceedWithin _ total hphase hcap =>
    rw [hphase] at hung hdone
    obtain ⟨hsame, rfl⟩ := hdone
    refine hst.advance hphase rfl hg (by simp) ⟨rfl, rfl, rfl, rfl⟩ (fun _ ↦ hung rfl) ?_
    rw [Done, Outcome, if_pos hcap]
    exact hsame
  | proceedOver _ total hphase hcap =>
    rw [hphase] at hdone
    obtain ⟨hsame, rfl⟩ := hdone
    exact hst.advance hphase rfl hg (by simp) ⟨rfl, rfl, rfl, rfl⟩
      (fun hnot ↦ by cases hnot) ⟨hsame, hcap⟩
  | compactSnapshot _ hphase =>
    rw [hphase] at hdone
    exact hst.advance hphase rfl hg (by simp) ⟨rfl, rfl, rfl, rfl⟩
      (fun hnot ↦ by cases hnot) ⟨hdone.1, hdone.2, hdone.1.snapshot⟩
  | compactTail _ snapshotSeq cut hphase hcut =>
    rw [hphase] at hdone
    obtain ⟨hsame, hcap, rfl⟩ := hdone
    have htail : log.store.loadSince before.getSnapshotSeq
        = before.loadSince before.getSnapshotSeq := by
      rw [BoardStore.loadSince, hsame.rows]
      rfl
    rw [htail, ← BoardStore.cut] at hcut
    subst hcut
    -- without a row to cut the baseline is not written
    split_ifs at hg ⊢ with hlt
    · exact hst.advance hphase rfl hg (by simp) ⟨rfl, rfl, rfl, rfl⟩
        (fun hnot ↦ by cases hnot) ⟨hsame, hcap, rfl⟩
    · refine hst.advance hphase rfl hg (by simp) ⟨rfl, rfl, rfl, rfl⟩
        (fun hnot ↦ by cases hnot) ⟨hcap, rfl, ?_⟩
      rw [before.cut_eq_of_not_lt hlt]
      exact hsame.cutAt
  | setSnapshot _ cut hphase =>
    have hrow := hst.grounded.underway c _ hphase rfl
    rw [hphase] at hdone
    obtain ⟨hsame, hcap, hcut⟩ := hdone
    refine hst.advance hphase rfl hg (by simp) ⟨rfl, rfl, rfl, rfl⟩
      (fun hnot ↦ by cases hnot) ⟨hcap, hcut, ?_, ?_⟩
    · exact BoardStore.getSnapshotSeq_setSnapshot hrow cut
    · rw [BoardLog.mapStore, BoardStore.loadSince, BoardStore.setSnapshot_strokes, hsame.rows]
      rfl
  | deleteRows _ cut hphase victims hdeletable =>
    rw [hphase] at hdone
    obtain ⟨hcap, rfl, hcutAt⟩ := hdone
    have hafter : CutAt before (before.cut cfg) (log.prune victims).store :=
      ⟨hcutAt.snapshot, (BoardStore.loadSince_deleteRows hdeletable).trans hcutAt.rows⟩
    split_ifs at hg ⊢
    · exact hst.advance hphase rfl hg (by simp) ⟨rfl, rfl, rfl, rfl⟩
        (fun hnot ↦ by cases hnot) ⟨hcap, hafter⟩
    · exact hst.advance hphase rfl hg (by simp) ⟨rfl, rfl, rfl, rfl⟩
        (fun hnot ↦ by cases hnot) ⟨hcap, rfl, hafter⟩
  | compactFinish _ hphase =>
    rw [hphase] at hdone
    refine hst.advance hphase rfl hg (by simp) ⟨rfl, rfl, rfl, rfl⟩ (fun _ ↦ rfl) ?_
    rw [Done, Outcome, if_neg (not_le.mpr hdone.1)]
    exact hdone.2
  | countFails | compactFails => exact absurd rfl hr

/-- **A step of compaction `c` takes it from stage to stage.** -/
theorem Stage.step (hst : Stage cfg c before buffer log inst) (h : Step cfg log inst a log' inst')
    (ha : a.ofCompaction c) : Stage cfg c before buffer log' inst' := by
  cases a with
  | maybeCompact e =>
    obtain rfl : e = c := by simpa [Action.ofCompaction] using ha
    exact hst.call h
  | resume id ts d => exact hst.resumes h
  | restore r => exact hst.restore_step h (by simpa [Action.ofCompaction] using ha)
  | compact e r =>
    obtain rfl := ofCompaction_compact ha
    exact hst.compact_step h (by simpa [Action.ofCompaction] using ha)
  | _ => cases ha

end Instance

namespace World

variable {cfg : Config} {w w' : World Unit} {c : ℕ}

/-- No restore and no compaction is under way. -/
structure AtRest (w : World Unit) : Prop where
  grounded : (w.insts ()).Grounded w.log
  ready : (w.insts ()).ready = []
  waiting : (w.insts ()).waiting = []
  settled : (w.insts ()).board.initPromise = none ∨
    (w.insts ()).board.initPromise = some .fulfilled
  unguarded : (w.insts ()).board.compacting = false

theorem atRest_start (store : BoardStore) : (start Unit store).AtRest :=
  ⟨Instance.grounded_fresh _, rfl, rfl, Or.inl rfl, rfl⟩

/-- A call of `maybeCompact` is made in `w` and resolves in `w'`, and nothing else goes on. -/
def CompactsTo (cfg : Config) (w w' : World Unit) : Prop :=
  ∃ c, (w.insts ()).compactions c = none ∧
    (machine fun _ ↦ cfg).Steps (fun _ a ↦ a.2.ofCompaction c) w w' ∧
    (w'.insts ()).compactions c = some .resolved

theorem AtRest.stage (hw : w.AtRest) (hidle : (w.insts ()).compactions c = none) :
    Instance.Stage cfg c w.log.store (w.insts ()).buffer w.log (w.insts ()) := by
  refine ⟨hw.grounded, rfl, ?_, ?_, ?_⟩ <;> rw [hidle]
  · exact ⟨hw.ready, hw.waiting, hw.settled⟩
  · exact fun _ ↦ hw.unguarded
  · exact ⟨rfl, rfl⟩

/-- What a call has done that resolves. -/
theorem CompactsTo.outcome (h : CompactsTo cfg w w') (hw : w.AtRest) :
    w'.AtRest ∧ (w'.insts ()).buffer = (w.insts ()).buffer ∧
      Outcome cfg w.log.store w'.log.store := by
  obtain ⟨c, hidle, hsteps, hresolved⟩ := h
  have hend := hsteps.invariant
    (P := fun u ↦ Instance.Stage cfg c w.log.store (w.insts ()).buffer u.log (u.insts ()))
    (hw.stage hidle) fun u a v hu ha hs ↦ by
      obtain ⟨i, a⟩ := a
      change u.step (fun _ ↦ cfg) (i, a) = some v at hs
      obtain ⟨log, inst, hstep, rfl⟩ := step_eq_some.mp hs
      exact hu.step (.of_step hstep) ha
  have hawaits := hend.awaits
  have hung := hend.unguarded
  have hdone := hend.done
  rw [hresolved] at hawaits hung hdone
  exact ⟨⟨hend.grounded, hawaits.2.1, hawaits.2.2, Or.inr hawaits.1, hung rfl⟩, hend.buffer, hdone⟩

/-- `n` calls, one after the other. -/
def CompactsTimes (cfg : Config) : ℕ → World Unit → World Unit → Prop
  | 0, w, w' => w' = w
  | n + 1, w, w' => ∃ u, CompactsTo cfg w u ∧ CompactsTimes cfg n u w'

/-- The board is opened for a compaction. -/
def compactOpening : List Action :=
  [.maybeCompact 0, .restore .ensure, .restore .readSnapshotSeq, .restore .readTail,
    .restore .finish, .resume "" 0 0, .compact 0 .count, .compact 0 .proceed]

end World

end Synapse
