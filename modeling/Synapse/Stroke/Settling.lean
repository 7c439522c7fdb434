import Synapse.Stroke.Exclusion
import Synapse.Transition.Inevitable

/-!
# How a compaction ends

The draw handler calls `maybeCompact` and does not wait for it, so a rejection would be nobody's to
handle. The `try` block begins after the count: what fails inside it is logged, and the flag is
lowered by the `finally` block. The restore a call awaits first and the count itself are outside,
and a failure of either rejects the promise.

`Spares` excludes these two failures and no other. In the runs that keep to it no call is rejected,
and a call is bound to resolve by the steps it waits for, whichever of them fail. A call waits for
the restore (`Queues`), then for its turn among the calls the restore has released, then for its own
statements; `rank` counts what is left.
-/

namespace Synapse

open Transition

/-- Whether the call is a compaction. -/
def Caller.compacts : Caller → Bool
  | .append _ _ _ => false
  | .maybeCompact _ => true

namespace Instance

variable {cfg : Config} {log log' : BoardLog} {inst inst' : Instance} {a : Action} {c : ℕ}

/-! ## The failures outside the `try` block -/

/-- Neither the restore of a waiting compaction nor a count fails. -/
def Spares (inst : Instance) : Action → Prop
  | .restore .fail => ∀ caller ∈ inst.waiting, caller.compacts = false
  | .compact c .fail => inst.compactions c ≠ some .counting
  | _ => True

instance (inst : Instance) (a : Action) : Decidable (inst.Spares a) := by
  unfold Spares
  split <;> infer_instance

/-- No compaction has been rejected. -/
def Unrejected (inst : Instance) : Prop := ∀ c, inst.compactions c ≠ some .rejected

theorem unrejected_fresh : Unrejected {} := fun _ h ↦ by cases h

theorem Unrejected.setBoard (h : inst.Unrejected) (state : BoardState) :
    (inst.setBoard state).Unrejected := h

theorem Unrejected.setCompaction (h : inst.Unrejected) {phase : CompactionPhase}
    (hphase : phase ≠ .rejected) (c : ℕ) : (inst.setCompaction c phase).Unrejected := by
  intro e
  rw [compactions_setCompaction]
  split_ifs
  · exact fun hsome ↦ hphase (Option.some.inj hsome)
  · exact h e

theorem Unrejected.step (h : inst.Unrejected) (hs : Step cfg log inst a log' inst')
    (hspares : inst.Spares a) : inst'.Unrejected := by
  cases hs with
  | append =>
    intro c
    rw [compactions_ensureInitialized]
    exact h c
  | maybeCompact e =>
    intro c
    rw [compactions_ensureInitialized]
    exact h.setCompaction (by simp) e c
  | resumeAppend =>
    intro c
    rw [compactions_push]
    exact h c
  | resumeCompact _ _ _ e ready =>
    have hready : (inst.setReady ready).Unrejected := h
    refine hready.setCompaction ?_ e
    split_ifs <;> simp
  | flush | timerFires =>
    intro c
    rw [compactions_flush]
    exact h c
  | restoreFail =>
    intro c
    simp only [failRestore]
    split_ifs with hwaiting
    · exact absurd (hspares _ hwaiting) (by simp [Caller.compacts])
    · exact h c
  | countFails e hphase => exact absurd hphase hspares
  | compactTail e | deleteRows e =>
    refine h.setCompaction ?_ e
    split_ifs <;> simp
  | count e | proceedWithin e | compactSnapshot e | setSnapshot e =>
    exact h.setCompaction (by simp) e
  | proceedOver e | compactFinish e | compactFails e =>
    exact (h.setBoard _).setCompaction (by simp) e
  | _ => exact h

/-- A step that does not spare the compactions rejects one. -/
theorem Step.spares (hs : Step cfg log inst a log' inst') (h' : inst'.Unrejected) :
    inst.Spares a := by
  unfold Spares
  split
  · intro caller hcaller
    cases hs
    rcases caller with _ | c
    · rfl
    · refine absurd ?_ (h' c)
      simp only [failRestore]
      rw [if_pos hcaller]
  · next c =>
    intro hphase
    cases hs with
    | countFails => exact h' c (compactions_setCompaction_self _ _ _)
    | compactFails _ phase hphase' hcritical =>
      rw [hphase] at hphase'
      cases hphase'
      cases hcritical
  · trivial

/-! ## The flag -/

/-- A flag that is up belongs to a compaction in the critical section. -/
def Flagged (inst : Instance) : Prop := inst.board.compacting = true → ∃ c, inst.inCritical c = true

theorem flagged_fresh : Flagged {} := fun h ↦ by cases h

theorem Flagged.step (h : inst.Flagged) (hqueued : inst.QueuedOnce)
    (hs : Step cfg log inst a log' inst') : inst'.Flagged := by
  rcases hs.criticalMove hqueued with ⟨-, hcritical, hflag⟩ | ⟨c, -, -, hcritical, -⟩ |
    ⟨c, -, -, -, hflag⟩
  · rw [Flagged, hcritical, hflag]
    exact h
  · exact fun _ ↦ ⟨c, by rw [hcritical, Function.update_self]⟩
  · intro hup
    rw [hflag] at hup
    cases hup

/-! ## Waiting for the restore -/

/-- A compaction that has not passed its restore is in one of the queues, and the calls in the
first wait for a restore under way. -/
structure Queues (inst : Instance) : Prop where
  queued : ∀ c, inst.compactions c = some .initializing →
    .maybeCompact c ∈ inst.waiting ∨ .maybeCompact c ∈ inst.ready
  restoring : inst.waiting ≠ [] →
    ∃ promise, inst.board.initPromise = some promise ∧ promise ≠ .fulfilled

theorem queues_fresh : Queues {} where
  queued _ h := by cases h
  restoring h := absurd rfl h

theorem Queues.frame (h : inst.Queues) (hwaiting : inst'.waiting = inst.waiting)
    (hready : inst'.ready = inst.ready)
    (hpromise : inst'.board.initPromise = inst.board.initPromise)
    (hcompactions : ∀ c, inst'.compactions c = some .initializing →
      inst.compactions c = some .initializing) : inst'.Queues := by
  refine ⟨fun c hc ↦ ?_, fun hne ↦ ?_⟩
  · rw [hwaiting, hready]
    exact h.queued c (hcompactions c hc)
  · rw [hpromise]
    exact h.restoring (hwaiting ▸ hne)

theorem Queues.setCompaction (h : inst.Queues) {phase : CompactionPhase}
    (hphase : phase ≠ .initializing) (c : ℕ) : (inst.setCompaction c phase).Queues := by
  refine h.frame rfl rfl rfl fun e he ↦ ?_
  rw [compactions_setCompaction] at he
  split_ifs at he
  · exact absurd (Option.some.inj he) hphase
  · exact he

theorem Queues.setBoard (h : inst.Queues) {state : BoardState}
    (hpromise : state.initPromise = inst.board.initPromise) : (inst.setBoard state).Queues :=
  h.frame rfl rfl hpromise fun _ ↦ id

theorem mem_queues_ensureInitialized {caller x : Caller}
    (h : x ∈ inst.waiting ∨ x ∈ inst.ready ∨ x = caller) :
    x ∈ (inst.ensureInitialized caller).waiting ∨ x ∈ (inst.ensureInitialized caller).ready := by
  unfold ensureInitialized
  split
  · simp only [setWaiting, setInitPromise, Instance.setBoard, List.mem_append, List.mem_singleton]
    tauto
  · simp only [setReady, List.mem_append, List.mem_singleton]
    tauto
  · simp only [setWaiting, List.mem_append, List.mem_singleton]
    tauto

theorem restoring_ensureInitialized {caller : Caller}
    (h : inst.waiting ≠ [] → ∃ promise, inst.board.initPromise = some promise ∧
      promise ≠ .fulfilled) (hne : (inst.ensureInitialized caller).waiting ≠ []) :
    ∃ promise, (inst.ensureInitialized caller).board.initPromise = some promise ∧
      promise ≠ .fulfilled := by
  unfold ensureInitialized at hne ⊢
  split at hne
  · exact ⟨.ensuring, rfl, by simp⟩
  · exact h hne
  · next promise hpromise hp => exact ⟨promise, hp, hpromise⟩

/-- The call that resumes leaves the queues, and has passed its restore. -/
theorem Queues.resumeCompact (h : inst.Queues) {c : ℕ} {ready : List Caller}
    (hready : inst.ready = .maybeCompact c :: ready) {phase : CompactionPhase}
    (hphase : phase ≠ .initializing) : ((inst.setReady ready).setCompaction c phase).Queues := by
  refine ⟨fun e he ↦ ?_, h.restoring⟩
  rw [compactions_setCompaction] at he
  split_ifs at he with hec
  · exact absurd (Option.some.inj he) hphase
  · have hmem := h.queued e he
    rw [hready] at hmem
    change _ ∈ inst.waiting ∨ _ ∈ ready
    simpa [hec] using hmem

theorem Queues.failRestore (h : inst.Queues) : inst.failRestore.Queues := by
  refine ⟨fun c hc ↦ Or.inr ?_, fun hne ↦ absurd rfl hne⟩
  simp only [Instance.failRestore] at hc
  split_ifs at hc with hwaiting
  · cases hc
  · exact (h.queued c hc).resolve_left hwaiting

theorem Queues.step (h : inst.Queues) (hs : Step cfg log inst a log' inst') : inst'.Queues := by
  cases hs with
  | append call userId seg =>
    refine ⟨fun c hc ↦ ?_, restoring_ensureInitialized h.restoring⟩
    rw [compactions_ensureInitialized] at hc
    exact mem_queues_ensureInitialized ((h.queued c hc).imp_right Or.inl)
  | maybeCompact c =>
    refine ⟨fun e he ↦ mem_queues_ensureInitialized ?_, restoring_ensureInitialized h.restoring⟩
    rw [compactions_ensureInitialized, compactions_setCompaction] at he
    split_ifs at he with hec
    · exact Or.inr (Or.inr (by rw [hec]))
    · exact (h.queued e he).imp_right Or.inl
  | resumeAppend id ts d call userId seg ready hready =>
    refine ⟨fun c hc ↦ ?_, fun hne ↦ ?_⟩
    · rw [compactions_push] at hc
      rw [waiting_push, ready_push]
      have hmem := h.queued c hc
      rw [hready] at hmem
      simpa [setReady] using hmem
    · rw [waiting_push] at hne
      rw [(board_push _ _ _).2.1]
      exact h.restoring hne
  | resumeCompact id ts d c ready hready =>
    refine h.resumeCompact hready ?_
    split_ifs <;> simp
  | flush d | timerFires d =>
    refine h.frame (waiting_flush d) (ready_flush d) ?_ fun c hc ↦ ?_
    · simp only [board_flush, board_setBoard, BoardState.cancelTimer]
    · rwa [compactions_flush] at hc
  | restoreEnsure hp | restoreSnapshot hp | restoreTail _ hp =>
    exact ⟨h.queued, fun _ ↦ ⟨_, rfl, by simp⟩⟩
  | restoreFinish highest hp =>
    refine ⟨fun c hc ↦ Or.inr ?_, fun hne ↦ absurd rfl hne⟩
    exact List.mem_append.mpr (h.queued c hc).symm
  | restoreFail promise hp hpending => exact h.failRestore
  | drainRejects d =>
    exact h.frame rfl rfl (BoardState.initPromise_handleFlushFailure _ _) fun _ ↦ id
  | compactTail c | deleteRows c =>
    refine h.setCompaction ?_ c
    split_ifs <;> simp
  | count c | proceedWithin c | compactSnapshot c | setSnapshot c | countFails c =>
    exact h.setCompaction (by simp) c
  | proceedOver c | compactFinish c | compactFails c =>
    refine (h.setBoard ?_).setCompaction ?_ c
    · rfl
    · simp
  | _ => exact h.frame rfl rfl rfl fun _ ↦ id

/-! ## A number for a drain -/

/-- The number an action may give to a drain. -/
def freshDrain : Action → ℕ
  | .resume _ _ d | .flush d | .timerFires d | .retryFires d => d
  | _ => 0

theorem Step.drains_eq_none (hs : Step cfg log inst a log' inst') {d : ℕ}
    (hd : inst.drains d = none) (hne : d ≠ freshDrain a) : inst'.drains d = none := by
  have hset : ∀ {e phase phase'}, inst.drains e = some phase →
      (inst.setDrain e phase').drains d = none := by
    intro e phase phase' he
    rw [drains_setDrain, if_neg]
    · exact hd
    · rintro rfl
      rw [hd] at he
      cases he
  cases hs with
  | append | maybeCompact =>
    rw [drains_ensureInitialized]
    exact hd
  | resumeAppend =>
    rw [push]
    split_ifs
    · rw [drains_flush]
      exact (if_neg hne).trans hd
    · exact hd
  | flush | timerFires =>
    rw [drains_flush]
    exact (if_neg hne).trans hd
  | retryFires =>
    rw [drainOnce, drains_setDrain]
    exact (if_neg hne).trans hd
  | insert _ _ hphase | insertResolves _ _ hphase | touchResolves _ _ hphase => exact hset hphase
  | drainFails _ _ hphase => exact hset hphase
  | drainResolves _ hphase | drainRejects _ hphase => exact hset hphase
  | _ => exact hd

/-- There is always a number left for a drain. -/
def HasFreeDrain (inst : Instance) : Prop := ∃ n, ∀ d, n ≤ d → inst.drains d = none

theorem hasFreeDrain_fresh : HasFreeDrain {} := ⟨0, fun _ _ ↦ rfl⟩

theorem HasFreeDrain.step (h : inst.HasFreeDrain) (hs : Step cfg log inst a log' inst') :
    inst'.HasFreeDrain := by
  obtain ⟨n, hn⟩ := h
  refine ⟨max n (freshDrain a + 1), fun d hd ↦ hs.drains_eq_none (hn d ?_) ?_⟩ <;> omega

/-! ## What is left to do -/

/-- The steps compaction `c` is waiting for. -/
def Serves (c : ℕ) (inst : Instance) : Action → Prop
  | .restore _ | .resume _ _ _ => inst.compactions c = some .initializing
  | .compact e _ => e = c
  | _ => False

/-- How many statements of the restore are left. -/
def restoreRank : Option InitPromise → ℕ
  | some .ensuring => 4
  | some .readingSnapshot => 3
  | some (.readingTail _) => 2
  | some (.tailRead _) => 1
  | some .fulfilled | none => 0

/-- How many phases are left. -/
def phaseRank : CompactionPhase → ℕ
  | .initializing => 8
  | .counting => 7
  | .counted _ => 6
  | .readingSnapshot => 5
  | .readingTail _ => 4
  | .settingSnapshot _ => 3
  | .deleting _ => 2
  | .deleted => 1
  | .resolved | .rejected => 0

/-- How far a compaction in `phase` is from its end, counting the rows it may have to delete and
the calls ahead of it. -/
def rank (log : BoardLog) (inst : Instance) (phase : CompactionPhase) : ℕ :=
  phaseRank phase + log.store.strokes.rows.length +
    if phase = .initializing then
      inst.ready.length + inst.waiting.length + restoreRank inst.board.initPromise
    else 0

theorem rank_of_ne {phase : CompactionPhase} (h : phase ≠ .initializing) :
    rank log inst phase = phaseRank phase + log.store.strokes.rows.length := by
  rw [rank, if_neg h, Nat.add_zero]

theorem rank_initializing : rank log inst .initializing = 8 + log.store.strokes.rows.length +
    (inst.ready.length + inst.waiting.length + restoreRank inst.board.initPromise) := rfl

theorem length_deleteRows_le (store : BoardStore) (victims : List ℕ) :
    (store.deleteRows victims).strokes.rows.length ≤ store.strokes.rows.length :=
  List.length_filter_le _ _

theorem length_deleteRows_lt {store : BoardStore} {n : ℕ} {victims : List ℕ}
    (h : store.Deletable n victims) (hne : victims ≠ []) :
    (store.deleteRows victims).strokes.rows.length < store.strokes.rows.length := by
  obtain ⟨m, hm⟩ := List.exists_mem_of_ne_nil victims hne
  obtain ⟨k, hk, rfl, -⟩ := BoardStore.mem_matching.mp (h.2.1 m hm)
  refine List.length_filter_lt_length_iff_exists.mpr ⟨k, hk, ?_⟩
  simpa using hm

theorem rank_lt_of_phaseRank_lt {old new : CompactionPhase} (hphase : phaseRank new < phaseRank old)
    (hnew : new ≠ .initializing)
    (hrows : log'.store.strokes.rows.length ≤ log.store.strokes.rows.length) :
    rank log' inst' new < rank log inst old := by
  rw [rank_of_ne hnew, rank]
  omega

/-- A statement of compaction `c` lowers its rank, whether it succeeds or fails. -/
theorem rank_compact_lt {r : CompactAction} (hs : Step cfg log inst (.compact c r) log' inst') :
    ∃ old new, inst.compactions c = some old ∧ inst'.compactions c = some new ∧
      rank log' inst' new < rank log inst old := by
  have hself : ∀ (inst : Instance) phase, (inst.setCompaction c phase).compactions c = some phase :=
    fun inst phase ↦ compactions_setCompaction_self inst c phase
  cases hs with
  | count _ hphase | compactSnapshot _ hphase | compactFinish _ hphase | countFails _ hphase
  | proceedWithin _ _ hphase | proceedOver _ _ hphase | setSnapshot _ _ hphase =>
    exact ⟨_, _, hphase, hself _ _, rank_lt_of_phaseRank_lt (by simp [phaseRank]) (by simp) le_rfl⟩
  | compactTail _ _ _ hphase =>
    refine ⟨_, _, hphase, hself _ _, rank_lt_of_phaseRank_lt ?_ ?_ le_rfl⟩ <;> split_ifs <;>
      simp [phaseRank]
  | deleteRows _ cut hphase victims hdeletable =>
    refine ⟨_, _, hphase, hself _ _, ?_⟩
    split_ifs with hlast
    · exact rank_lt_of_phaseRank_lt (by simp [phaseRank]) (by simp) (length_deleteRows_le _ _)
    · -- a full batch, and `deleteThrough` goes on with fewer rows
      have hne : victims ≠ [] := by
        rintro rfl
        exact hlast (by decide)
      have hlt := length_deleteRows_lt hdeletable hne
      rw [rank_of_ne (by simp), rank_of_ne (by simp)]
      exact Nat.add_lt_add_left hlt _
  | compactFails _ phase hphase hcritical =>
    refine ⟨_, _, hphase, hself _ _, rank_lt_of_phaseRank_lt ?_ (by simp) le_rfl⟩
    cases phase <;> first | exact Nat.succ_pos _ | exact absurd hcritical Bool.false_ne_true

theorem rank_setInitPromise_lt {promise promise' : InitPromise}
    (hp : inst.board.initPromise = some promise)
    (hlt : restoreRank (some promise') < restoreRank (some promise))
    (hrows : log'.store.strokes = log.store.strokes) :
    rank log' (inst.setInitPromise promise') .initializing < rank log inst .initializing := by
  rw [rank_initializing, rank_initializing, hp, hrows]
  change _ + (inst.ready.length + inst.waiting.length + restoreRank (some promise')) < _
  omega

/-- Until compaction `c` has passed its restore, what it waits for lowers its rank. -/
theorem rank_initializing_lt (hs : Step cfg log inst a log' inst')
    (hphase : inst.compactions c = some .initializing) (hqueues : inst.Queues)
    (hready : inst.ready ≠ [] → inst.board.initPromise = some .fulfilled)
    (ha : (∃ r, a = .restore r) ∨ ∃ id ts d, a = .resume id ts d) (hspares : inst.Spares a) :
    ∃ new, inst'.compactions c = some new ∧ rank log' inst' new < rank log inst .initializing := by
  cases hs with
  | restoreEnsure hp | restoreSnapshot hp | restoreTail _ hp =>
    exact ⟨_, hphase, rank_setInitPromise_lt hp (by simp [restoreRank]) rfl⟩
  | restoreFinish highest hp =>
    refine ⟨_, hphase, ?_⟩
    have hlength : (inst.finishRestore highest).ready.length
        = inst.ready.length + inst.waiting.length := List.length_append
    rw [rank_initializing, rank_initializing, hp, hlength]
    simp [finishRestore, Instance.setBoard, restoreRank, board]
  | restoreFail promise hp hpending =>
    -- somebody waits for the restore, and it is compaction `c` unless it was released long ago
    rcases hqueues.queued c hphase with hwaiting | hreleased
    · exact absurd (hspares _ hwaiting) (by simp [Caller.compacts])
    · have hfulfilled := hready (List.ne_nil_of_mem hreleased)
      rw [hp] at hfulfilled
      exact absurd (Option.some.inj hfulfilled) hpending
  | resumeAppend id ts d call userId seg ready hcons =>
    refine ⟨_, by rw [compactions_push]; exact hphase, ?_⟩
    rw [rank_initializing, rank_initializing, ready_push, waiting_push, (board_push _ _ _).2.1,
      hcons, List.length_cons]
    change 8 + log.store.strokes.rows.length + (ready.length + inst.waiting.length +
      restoreRank inst.board.initPromise) < _
    omega
  | resumeCompact id ts d e ready hcons =>
    rcases eq_or_ne c e with rfl | hce
    · refine ⟨_, compactions_setCompaction_self _ _ _, rank_lt_of_phaseRank_lt ?_ ?_ le_rfl⟩ <;>
        split_ifs <;> simp [phaseRank]
    · refine ⟨.initializing, ?_, ?_⟩
      · rw [compactions_setCompaction, if_neg hce]
        exact hphase
      · rw [rank_initializing, rank_initializing, hcons, List.length_cons]
        change 8 + log.store.strokes.rows.length + (ready.length + inst.waiting.length +
          restoreRank inst.board.initPromise) < _
        omega
  | _ => simp at ha

/-- **What compaction `c` waits for brings it closer to its end.** -/
theorem rank_lt (hs : Step cfg log inst a log' inst') {old : CompactionPhase}
    (hphase : inst.compactions c = some old) (hqueues : inst.Queues)
    (hready : inst.ready ≠ [] → inst.board.initPromise = some .fulfilled)
    (hserves : Serves c inst a) (hspares : inst.Spares a) :
    ∃ new, inst'.compactions c = some new ∧ rank log' inst' new < rank log inst old := by
  unfold Serves at hserves
  split at hserves
  · rw [hphase] at hserves
    cases hserves
    exact rank_initializing_lt hs hphase hqueues hready (Or.inl ⟨_, rfl⟩) hspares
  · rw [hphase] at hserves
    cases hserves
    exact rank_initializing_lt hs hphase hqueues hready (Or.inr ⟨_, _, _, rfl⟩) hspares
  · subst hserves
    obtain ⟨old', new, hold, hnew, hlt⟩ := rank_compact_lt hs
    rw [hphase] at hold
    cases hold
    exact ⟨new, hnew, hlt⟩
  · exact hserves.elim

theorem exists_deletable (store : BoardStore) (n : ℕ) : ∃ victims, store.Deletable n victims := by
  have hnodup : (store.matching n).Nodup :=
    store.strokes.nodup_keys.sublist (List.filter_sublist.map _)
  exact ⟨(store.matching n).take deleteBatchSize, hnodup.sublist (List.take_sublist _ _),
    fun _ ↦ List.mem_of_mem_take, List.length_take⟩

theorem exists_restoreStep (log : BoardLog) {promise : InitPromise}
    (hp : inst.board.initPromise = some promise)
    (hpending : promise ≠ .fulfilled) : ∃ r, r ≠ .fail ∧ (inst.restoreStep log r).isSome := by
  cases promise with
  | ensuring => exact ⟨.ensure, by simp, by simp [restoreStep, hp]⟩
  | readingSnapshot => exact ⟨.readSnapshotSeq, by simp, by simp [restoreStep, hp]⟩
  | readingTail n => exact ⟨.readTail, by simp, by simp [restoreStep, hp]⟩
  | tailRead n => exact ⟨.finish, by simp, by simp [restoreStep, hp]⟩
  | fulfilled => exact absurd rfl hpending

theorem exists_resume (cfg : Config) (log : BoardLog) (hne : inst.ready ≠ [])
    (hfree : inst.HasFreeDrain) :
    ∃ d, (inst.resume cfg log "" 0 d).isSome := by
  obtain ⟨n, hn⟩ := hfree
  obtain ⟨caller, ready, hcons⟩ := List.exists_cons_of_ne_nil hne
  refine ⟨n, ?_⟩
  cases caller with
  | append => simp [resume, hcons, hn n le_rfl]
  | maybeCompact => simp [resume, hcons]

theorem exists_compactStep (cfg : Config) (log : BoardLog) {phase : CompactionPhase}
    (hphase : inst.compactions c = some phase)
    (hne : phase ≠ .initializing) (hrank : 0 < phaseRank phase) :
    ∃ r, r ≠ .fail ∧ (inst.compactStep cfg log c r).isSome := by
  cases phase with
  | initializing => exact absurd rfl hne
  | counting => exact ⟨.count, by simp, by simp [compactStep, hphase]⟩
  | counted total =>
    refine ⟨.proceed, by simp, ?_⟩
    by_cases hcap : total ≤ cfg.strokeCap <;> simp [compactStep, hphase, hcap]
  | readingSnapshot => exact ⟨.readSnapshotSeq, by simp, by simp [compactStep, hphase]⟩
  | readingTail n => exact ⟨.readTail, by simp, by simp [compactStep, hphase]⟩
  | settingSnapshot cut => exact ⟨.setSnapshot, by simp, by simp [compactStep, hphase]⟩
  | deleting cut =>
    obtain ⟨victims, hdeletable⟩ := exists_deletable log.store cut
    exact ⟨.deleteRows victims, by simp, by simp [compactStep, hphase, hdeletable]⟩
  | deleted => exact ⟨.finish, by simp, by simp [compactStep, hphase]⟩
  | resolved | rejected => cases hrank

/-- **A compaction that has not ended is not stuck**: what it waits for can happen, and without a
failure. -/
theorem exists_serves (cfg : Config) (log : BoardLog) {phase : CompactionPhase}
    (hphase : inst.compactions c = some phase) (hrank : 0 < phaseRank phase)
    (hqueues : inst.Queues) (hfree : inst.HasFreeDrain) :
    ∃ a, Serves c inst a ∧ inst.Spares a ∧ (inst.step cfg log a).isSome := by
  by_cases hinit : phase = .initializing
  · subst hinit
    rcases hqueues.queued c hphase with hwaiting | hreleased
    · obtain ⟨promise, hp, hpending⟩ := hqueues.restoring (List.ne_nil_of_mem hwaiting)
      obtain ⟨r, hr, hsome⟩ := exists_restoreStep log hp hpending
      exact ⟨.restore r, hphase, by cases r <;> trivial, hsome⟩
    · obtain ⟨d, hsome⟩ := exists_resume cfg log
        (List.ne_nil_of_mem hreleased) hfree
      exact ⟨.resume "" 0 d, hphase, trivial, hsome⟩
  · obtain ⟨r, hr, hsome⟩ := exists_compactStep cfg log hphase hinit hrank
    exact ⟨.compact c r, rfl, by cases r <;> trivial, hsome⟩

end Instance

namespace World

variable {cfg : Config} {w w' : World Unit} {c : ℕ}

def Spares (w : World Unit) (a : Unit × Action) : Prop := (w.insts ()).Spares a.2

instance (w : World Unit) (a : Unit × Action) : Decidable (w.Spares a) :=
  inferInstanceAs (Decidable ((w.insts ()).Spares a.2))

/-- The step is one that compaction `c` waits for, and not a failure outside the `try` block. -/
def Serves (c : ℕ) (w : World Unit) (a : Unit × Action) : Prop :=
  Instance.Serves c (w.insts ()) a.2 ∧ w.Spares a

/-- Compaction `c` has resolved, and the flag is down unless another is in its critical section. -/
def Settled (c : ℕ) (w : World Unit) : Prop :=
  (w.insts ()).compactions c = some .resolved ∧
    ((∀ e, (w.insts ()).inCritical e = false) → (w.insts ()).board.compacting = false)

/-- No compaction has been rejected, and none is stuck. -/
structure Smooth (w : World Unit) : Prop where
  owned : w.Owned
  queuedOnce : (w.insts ()).QueuedOnce
  queues : (w.insts ()).Queues
  freeDrain : (w.insts ()).HasFreeDrain
  flagged : (w.insts ()).Flagged
  unrejected : (w.insts ()).Unrejected

theorem Smooth.of_init (h : w.init) : w.Smooth := by
  refine ⟨.of_init h, ?_, ?_, ?_, ?_, ?_⟩ <;> rw [h.2.2]
  · exact Instance.queuedOnce_fresh
  · exact Instance.queues_fresh
  · exact Instance.hasFreeDrain_fresh
  · exact Instance.flagged_fresh
  · exact Instance.unrejected_fresh

theorem Smooth.step (h : w.Smooth) {a : Unit × Action} (hs : w.step (fun _ ↦ cfg) a = some w')
    (hspares : w.Spares a) : w'.Smooth := by
  refine ⟨h.owned.step hs, ?_, ?_, ?_, ?_, ?_⟩ <;>
    obtain ⟨log, inst, hstep, rfl⟩ := step_eq_some.mp hs <;> rw [put_insts_self]
  · exact h.queuedOnce.step (.of_step hstep)
  · exact h.queues.step (.of_step hstep)
  · exact h.freeDrain.step (.of_step hstep)
  · exact h.flagged.step h.queuedOnce (.of_step hstep)
  · exact h.unrejected.step (.of_step hstep) hspares

theorem Smooth.compacting_eq_false (h : w.Smooth)
    (hnobody : ∀ e, (w.insts ()).inCritical e = false) :
    (w.insts ()).board.compacting = false := by
  refine Bool.eq_false_iff.mpr fun hup ↦ ?_
  obtain ⟨e, he⟩ := h.flagged hup
  rw [hnobody] at he
  cases he

theorem Smooth.phaseRank_pos (h : w.Smooth) {phase : CompactionPhase}
    (hphase : (w.insts ()).compactions c = some phase) (hopen : ¬ Settled c w) :
    0 < Instance.phaseRank phase := by
  have hunrejected := h.unrejected c
  rw [hphase] at hunrejected
  cases phase with
  | resolved => exact absurd ⟨hphase, h.compacting_eq_false⟩ hopen
  | rejected => exact absurd rfl hunrejected
  | _ => exact Nat.succ_pos _

/-- **A call of `maybeCompact` is bound to resolve.** -/
theorem Smooth.inevitable (h : w.Smooth)
    (hcalled : (w.insts ()).compactions c ≠ none) :
    (machine fun _ ↦ cfg).Inevitable (Serves c) (Settled c) w := by
  refine Machine.Inevitable.of_rank
    (P := fun w ↦ w.Smooth ∧ (w.insts ()).compactions c ≠ none)
    (fun w ↦ ((w.insts ()).compactions c).elim 0 (Instance.rank w.log (w.insts ())))
    (fun w ⟨hw, hc⟩ hopen ↦ ?_) (fun w a w' ⟨hw, hc⟩ hopen hserves hs ↦ ?_) ⟨h, hcalled⟩
  · obtain ⟨phase, hphase⟩ := Option.ne_none_iff_exists'.mp hc
    obtain ⟨a, hserves, hspares, hsome⟩ := Instance.exists_serves cfg w.log hphase
      (hw.phaseRank_pos hphase hopen) hw.queues hw.freeDrain
    obtain ⟨⟨log, inst⟩, hres⟩ := Option.isSome_iff_exists.mp hsome
    have hstep : w.step (fun _ ↦ cfg) ((), a) = some (w.put () (log, inst)) :=
      step_eq_some.mpr ⟨log, inst, hres, rfl⟩
    exact ⟨((), a), _, ⟨hserves, hspares⟩, hstep⟩
  · obtain ⟨phase, hphase⟩ := Option.ne_none_iff_exists'.mp hc
    have hsmooth := hw.step hs hserves.2
    obtain ⟨⟨⟩, a⟩ := a
    change w.step (fun _ ↦ cfg) ((), a) = some w' at hs
    obtain ⟨log, inst, hstep, rfl⟩ := step_eq_some.mp hs
    have hready : (w.insts ()).ready ≠ [] →
        (w.insts ()).board.initPromise = some .fulfilled := fun hne ↦ by
      by_contra hp
      exact hne (hw.owned.restored.dormant hp).ready
    obtain ⟨new, hnew, hlt⟩ := Instance.rank_lt (.of_step hstep) hphase hw.queues hready
      hserves.1 hserves.2
    refine ⟨⟨hsmooth, ?_⟩, ?_⟩
    · rw [put_insts_self, hnew]
      simp
    · simpa [hphase, hnew] using hlt

/-- **Compaction failures escape exactly from outside the `try` block.** In every run in which
neither the restore of a waiting compaction nor a count fails, no call of `maybeCompact` is
rejected, and every call is bound to resolve by the steps it waits for, whichever of them fail, with
the flag down unless another compaction is in its critical section. The first step that breaks the
condition rejects a call. -/
theorem compaction_never_rejects (h : (machine fun _ ↦ cfg).Reaches Spares w) :
    (w.insts ()).Unrejected ∧
    (∀ c, (w.insts ()).compactions c ≠ none →
      (machine fun _ ↦ cfg).Inevitable (Serves c) (Settled c) w) ∧
    ∀ a w', w.step (fun _ ↦ cfg) a = some w' → ((w'.insts ()).Unrejected ↔ w.Spares a) := by
  have hsmooth : w.Smooth :=
    h.invariant (fun _ ↦ .of_init) fun _ _ _ hu hok hs ↦ hu.step hs hok
  refine ⟨hsmooth.unrejected, fun c ↦ hsmooth.inevitable, fun a w' hs ↦ ⟨fun h' ↦ ?_, fun hok ↦ ?_⟩⟩
  · obtain ⟨log, inst, hstep, rfl⟩ := step_eq_some.mp hs
    rw [put_insts_self] at h'
    exact (Instance.Step.of_step hstep).spares h'
  · exact (hsmooth.step hs hok).unrejected

/-- A board over its cap, whose compaction has set the baseline when the DELETE fails. -/
def failingDeleteRun : List Action :=
  [.maybeCompact 0, .restore .ensure, .restore .readSnapshotSeq, .restore .readTail,
    .restore .finish, .resume "" 0 0, .compact 0 .count, .compact 0 .proceed,
    .compact 0 .readSnapshotSeq, .compact 0 .readTail, .compact 0 .setSnapshot, .compact 0 .fail]

private def loggedFailure (w : World Unit) : Bool :=
  decide ((w.insts ()).compactions 0 = some .resolved) && !(w.insts ()).board.compacting

theorem compaction_never_rejects_failingDelete : ∃ w,
    (machine fun _ ↦ sampleConfig 9 2).exec (start Unit (sampleStoreOf 3))
      (overLone failingDeleteRun) = some w ∧
    (w.insts ()).compactions 0 = some .resolved ∧ (w.insts ()).Unrejected := by
  obtain ⟨w, hexec, hsteps, hp⟩ : ∃ w,
      (machine fun _ ↦ sampleConfig 9 2).exec (start Unit (sampleStoreOf 3))
        (overLone failingDeleteRun) = some w ∧
      (machine fun _ ↦ sampleConfig 9 2).Steps Spares (start Unit (sampleStoreOf 3)) w ∧
      loggedFailure w = true :=
    Machine.exists_of_guarded_any _ _ (by decide +kernel)
  rw [loggedFailure, Bool.and_eq_true, decide_eq_true_iff] at hp
  exact ⟨w, hexec, hp.1, (compaction_never_rejects ⟨_, init_start _, hsteps⟩).1⟩

private def bothRejected (w : World Unit) : Bool :=
  decide ((w.insts ()).compactions 0 = some .rejected) &&
    decide ((w.insts ()).compactions 1 = some .rejected)

/-- The restore of a call fails, and then the count of another. -/
theorem compactions_rejected : ∃ w : World Unit,
    (machine fun _ ↦ sampleConfig 9 2).Reaches Machine.anyStep w ∧
      (w.insts ()).compactions 0 = some .rejected ∧
      (w.insts ()).compactions 1 = some .rejected := by
  obtain ⟨w, -, hsteps, hp⟩ := Machine.exists_of_exec (M := machine fun _ ↦ sampleConfig 9 2)
    (p := bothRejected) (start Unit (sampleStoreOf 3))
    (overLone [.maybeCompact 0, .restore .fail, .maybeCompact 1, .restore .ensure,
      .restore .readSnapshotSeq, .restore .readTail, .restore .finish, .resume "" 0 0,
      .compact 1 .fail]) (by decide +kernel)
  rw [bothRejected, Bool.and_eq_true, decide_eq_true_iff, decide_eq_true_iff] at hp
  exact ⟨w, ⟨_, init_start _, hsteps⟩, hp⟩

end World

end Synapse
