import Synapse.Stroke.Step

/-!
# The ways a step can be taken

`Instance.step` is written as the program reads, by nested matches. `Instance.Step` lists the ways
in which it can succeed, each with its guards and its result, and `Instance.Step.of_step` is the
inversion. Everything about a step is proved by cases on this list.
-/

namespace Synapse

/-- Whether the drain still awaits the database. -/
def DrainPhase.pending : DrainPhase → Bool
  | inserting _ | inserted _ | touching _ => true
  | _ => false

/-- Whether the compaction is inside the critical section, past the guard. -/
def CompactionPhase.critical : CompactionPhase → Bool
  | readingSnapshot | readingTail _ | settingSnapshot _ | deleting _ | deleted => true
  | _ => false

/-- Whether the compaction has passed `ensureInitialized` and has not ended. -/
def CompactionPhase.underway : CompactionPhase → Bool
  | initializing | resolved | rejected => false
  | _ => true

theorem CompactionPhase.underway_of_critical {phase : CompactionPhase} (h : phase.critical) :
    phase.underway := by
  cases phase <;> first | rfl | cases h

/-- Whether the load still awaits the database. -/
def LoadPhase.pending : LoadPhase → Bool
  | resolved _ _ | rejected => false
  | _ => true

namespace Instance

/-- Every way in which a step can be taken, with what it does. -/
inductive Step (cfg : Config) (log : BoardLog) (inst : Instance) :
    Action → BoardLog → Instance → Prop
  | append (call : ℕ) (userId : String) (seg : StrokeSegment) :
      Step cfg log inst (.append call userId seg) log
        (inst.ensureInitialized (.append call userId seg))
  | maybeCompact (c : ℕ) (hidle : inst.compactions c = none) :
      Step cfg log inst (.maybeCompact c) log
        ((inst.setCompaction c .initializing).ensureInitialized (.maybeCompact c))
  | resumeAppend (id : String) (ts d call : ℕ) (userId : String) (seg : StrokeSegment)
      (ready : List Caller) (hready : inst.ready = .append call userId seg :: ready)
      (hidle : inst.drains d = none) :
      Step cfg log inst (.resume id ts d) (log.accept (inst.nextStroke userId seg id ts))
        ((inst.setReady ready).push cfg (inst.nextStroke userId seg id ts) d)
  | resumeCompact (id : String) (ts d c : ℕ) (ready : List Caller)
      (hready : inst.ready = .maybeCompact c :: ready) :
      Step cfg log inst (.resume id ts d) log ((inst.setReady ready).setCompaction c
        (if inst.board.compacting then .resolved else .counting))
  | flush (d : ℕ) (hidle : inst.drains d = none) :
      Step cfg log inst (.flush d) log (inst.flush d)
  | timerFires (d : ℕ) (htimer : inst.board.timer.isSome) (hidle : inst.drains d = none) :
      Step cfg log inst (.timerFires d) log ((inst.setBoard inst.board.cancelTimer).flush d)
  | retryFires (d : ℕ) (htimer : inst.board.retryTimer.isSome) (hidle : inst.drains d = none) :
      Step cfg log inst (.retryFires d) log
        ((inst.setBoard inst.board.cancelRetryTimer).drainOnce d)
  | loadForJoin (l : ℕ) (sinceSeq : Option ℕ) (hidle : inst.loads l = none) :
      Step cfg log inst (.loadForJoin l sinceSeq) log
        (inst.setLoad l ⟨sinceSeq, log.accepted, .readingSnapshot⟩)
  | restoreEnsure (hpromise : inst.board.initPromise = some .ensuring) :
      Step cfg log inst (.restore .ensure) (log.mapStore BoardStore.ensure)
        (inst.setInitPromise .readingSnapshot)
  | restoreSnapshot (hpromise : inst.board.initPromise = some .readingSnapshot) :
      Step cfg log inst (.restore .readSnapshotSeq) log
        (inst.setInitPromise (.readingTail log.store.getSnapshotSeq))
  | restoreTail (snapshotSeq : ℕ)
      (hpromise : inst.board.initPromise = some (.readingTail snapshotSeq)) :
      Step cfg log inst (.restore .readTail) log (inst.setInitPromise
        (.tailRead (highestOf snapshotSeq (log.store.loadSince snapshotSeq))))
  | restoreFinish (highest : ℕ) (hpromise : inst.board.initPromise = some (.tailRead highest)) :
      Step cfg log inst (.restore .finish) log (inst.finishRestore highest)
  | restoreFail (promise : InitPromise) (hpromise : inst.board.initPromise = some promise)
      (hpending : promise ≠ .fulfilled) : Step cfg log inst (.restore .fail) log inst.failRestore
  | insert (d : ℕ) (batch : List PersistedStroke)
      (hphase : inst.drains d = some (.inserting batch)) :
      Step cfg log inst (.drain d .insert) (log.mapStore (·.insertBatch batch))
        (inst.setDrain d (.inserted batch))
  | insertResolves (d : ℕ) (batch : List PersistedStroke)
      (hphase : inst.drains d = some (.inserted batch)) :
      Step cfg log inst (.drain d .insertResolves) log (inst.setDrain d (.touching batch))
  | touchResolves (d : ℕ) (batch : List PersistedStroke)
      (hphase : inst.drains d = some (.touching batch)) :
      Step cfg log inst (.drain d .touchResolves) log (inst.setDrain d .succeeded)
  | drainFails (d : ℕ) (phase : DrainPhase) (hphase : inst.drains d = some phase)
      (hpending : phase.pending) : Step cfg log inst (.drain d .fail) log (inst.rebuffer d)
  | drainResolves (d : ℕ) (hphase : inst.drains d = some .succeeded) :
      Step cfg log inst (.drain d .resolve) log
        ((inst.setBoard inst.board.markPersisted).setDrain d .resolved)
  | drainRejects (d : ℕ) (hphase : inst.drains d = some .failed) :
      Step cfg log inst (.drain d .reject) log
        ((inst.setBoard (inst.board.handleFlushFailure cfg)).setDrain d .rejected)
  | loadSnapshot (l : ℕ) (load : Load) (hload : inst.loads l = some load)
      (hphase : load.phase = .readingSnapshot) :
      Step cfg log inst (.load l .readSnapshotSeq) log
        (inst.setLoad l { load with phase := .readingRows log.store.getSnapshotSeq })
  | loadRows (l : ℕ) (load : Load) (hload : inst.loads l = some load) (snapshotSeq : ℕ)
      (hphase : load.phase = .readingRows snapshotSeq) :
      Step cfg log inst (.load l .readRows) log (inst.setLoad l { load with
        phase := .rowsRead snapshotSeq (log.store.loadSince (fromSeq load.sinceSeq snapshotSeq)) })
  | loadResolves (l : ℕ) (load : Load) (hload : inst.loads l = some load) (snapshotSeq : ℕ)
      (persisted : List PersistedStroke) (hphase : load.phase = .rowsRead snapshotSeq persisted)
      (now : ℕ) :
      Step cfg log inst (.load l (.resolve now)) log (inst.setLoad l { load with
        phase := .resolved snapshotSeq
          (joinHistory log.store.boardId load.sinceSeq snapshotSeq persisted inst.buffer now) })
  | loadFails (l : ℕ) (load : Load) (hload : inst.loads l = some load)
      (hpending : load.phase.pending) :
      Step cfg log inst (.load l .fail) log (inst.setLoad l { load with phase := .rejected })
  | count (c : ℕ) (hphase : inst.compactions c = some .counting) :
      Step cfg log inst (.compact c .count) log (inst.setCompaction c (.counted log.store.count))
  | proceedWithin (c total : ℕ) (hphase : inst.compactions c = some (.counted total))
      (hcap : total ≤ cfg.strokeCap) :
      Step cfg log inst (.compact c .proceed) log (inst.setCompaction c .resolved)
  | proceedOver (c total : ℕ) (hphase : inst.compactions c = some (.counted total))
      (hcap : cfg.strokeCap < total) :
      Step cfg log inst (.compact c .proceed) log
        ((inst.setBoard { inst.board with compacting := true }).setCompaction c .readingSnapshot)
  | compactSnapshot (c : ℕ) (hphase : inst.compactions c = some .readingSnapshot) :
      Step cfg log inst (.compact c .readSnapshotSeq) log
        (inst.setCompaction c (.readingTail log.store.getSnapshotSeq))
  | compactTail (c snapshotSeq cut : ℕ)
      (hphase : inst.compactions c = some (.readingTail snapshotSeq))
      (hcut : cut = cutSeq cfg snapshotSeq (log.store.loadSince snapshotSeq)) :
      Step cfg log inst (.compact c .readTail) log (inst.setCompaction c
        (if snapshotSeq < cut then .settingSnapshot cut else .deleting cut))
  | setSnapshot (c cut : ℕ) (hphase : inst.compactions c = some (.settingSnapshot cut)) :
      Step cfg log inst (.compact c .setSnapshot) (log.mapStore (·.setSnapshot cut))
        (inst.setCompaction c (.deleting cut))
  | deleteRows (c cut : ℕ) (hphase : inst.compactions c = some (.deleting cut))
      (victims : List ℕ) (hdeletable : log.store.Deletable cut victims) :
      Step cfg log inst (.compact c (.deleteRows victims)) (log.prune victims)
        (inst.setCompaction c
          (if victims.length < deleteBatchSize then .deleted else .deleting cut))
  | compactFinish (c : ℕ) (hphase : inst.compactions c = some .deleted) :
      Step cfg log inst (.compact c .finish) log (inst.leaveCompaction c)
  | countFails (c : ℕ) (hphase : inst.compactions c = some .counting) :
      Step cfg log inst (.compact c .fail) log (inst.setCompaction c .rejected)
  | compactFails (c : ℕ) (phase : CompactionPhase) (hphase : inst.compactions c = some phase)
      (hcritical : phase.critical) :
      Step cfg log inst (.compact c .fail) log (inst.leaveCompaction c)

variable {cfg : Config} {log log' : BoardLog} {inst inst' : Instance}

theorem Step.of_restoreStep {r : RestoreAction}
    (h : inst.restoreStep log r = some (log', inst')) :
    Step cfg log inst (.restore r) log' inst' := by
  unfold restoreStep at h
  split at h <;> cases h
  · next hp => exact .restoreEnsure hp
  · next hp => exact .restoreSnapshot hp
  · next hp => exact .restoreTail _ hp
  · next hp => exact .restoreFinish _ hp
  · next promise hpending hp => exact .restoreFail promise hp hpending

theorem Step.of_drainStep {d : ℕ} {r : DrainAction}
    (h : inst.drainStep cfg log d r = some (log', inst')) :
    Step cfg log inst (.drain d r) log' inst' := by
  unfold drainStep at h
  split at h <;> cases h
  · next hp => exact .insert d _ hp
  · next hp => exact .insertResolves d _ hp
  · next hp => exact .touchResolves d _ hp
  · next hp => exact .drainFails d _ hp rfl
  · next hp => exact .drainFails d _ hp rfl
  · next hp => exact .drainFails d _ hp rfl
  · next hp => exact .drainResolves d hp
  · next hp => exact .drainRejects d hp

theorem Step.of_loadStep {l : ℕ} {r : LoadAction}
    (h : inst.loadStep log l r = some (log', inst')) :
    Step cfg log inst (.load l r) log' inst' := by
  unfold loadStep at h
  split at h
  · cases h
  · next load hload =>
    split at h <;> cases h
    · next hp => exact .loadSnapshot l load hload hp
    · next hp => exact .loadRows l load hload _ hp
    · next hp => exact .loadResolves l load hload _ _ hp _
    all_goals
      next hp => exact .loadFails l load hload (by rw [hp]; rfl)

theorem Step.of_compactStep {c : ℕ} {r : CompactAction}
    (h : inst.compactStep cfg log c r = some (log', inst')) :
    Step cfg log inst (.compact c r) log' inst' := by
  unfold compactStep at h
  split at h
  · next hp =>
    cases h
    exact .count c hp
  · next hp =>
    split_ifs at h with hcap <;> cases h
    · exact .proceedWithin c _ hp hcap
    · exact .proceedOver c _ hp (not_le.mp hcap)
  · next hp =>
    cases h
    exact .compactSnapshot c hp
  · next hp =>
    cases h
    exact .compactTail c _ _ hp rfl
  · next hp =>
    cases h
    exact .setSnapshot c _ hp
  · next hp =>
    obtain ⟨hdel, hr⟩ := Option.ite_none_right_eq_some.mp h
    cases hr
    exact .deleteRows c _ hp _ hdel
  · next hp =>
    cases h
    exact .compactFinish c hp
  · next hp =>
    cases h
    exact .countFails c hp
  · next hp =>
    cases h
    exact .compactFails c _ hp rfl
  · next hp =>
    cases h
    exact .compactFails c _ hp rfl
  · next hp =>
    cases h
    exact .compactFails c _ hp rfl
  · next hp =>
    cases h
    exact .compactFails c _ hp rfl
  · next hp =>
    cases h
    exact .compactFails c _ hp rfl
  · cases h

theorem Step.of_resume {id : String} {ts d : ℕ}
    (h : inst.resume cfg log id ts d = some (log', inst')) :
    Step cfg log inst (.resume id ts d) log' inst' := by
  unfold resume at h
  split at h
  · cases h
  · next hready =>
    split_ifs at h with hidle
    cases h
    exact .resumeAppend id ts d _ _ _ _ hready hidle
  · next hready =>
    cases h
    exact .resumeCompact id ts d _ _ hready

/-- **Inversion of a step.** -/
theorem Step.of_step {a : Action} (h : inst.step cfg log a = some (log', inst')) :
    Step cfg log inst a log' inst' := by
  cases a with
  | append call userId seg =>
    cases h
    exact .append call userId seg
  | maybeCompact c =>
    obtain ⟨hidle, hr⟩ := Option.ite_none_right_eq_some.mp h
    cases hr
    exact .maybeCompact c hidle
  | resume id ts d => exact .of_resume h
  | flush d =>
    obtain ⟨hidle, hr⟩ := Option.ite_none_right_eq_some.mp h
    cases hr
    exact .flush d hidle
  | timerFires d =>
    obtain ⟨⟨htimer, hidle⟩, hr⟩ := Option.ite_none_right_eq_some.mp h
    cases hr
    exact .timerFires d htimer hidle
  | retryFires d =>
    obtain ⟨⟨htimer, hidle⟩, hr⟩ := Option.ite_none_right_eq_some.mp h
    cases hr
    exact .retryFires d htimer hidle
  | loadForJoin l sinceSeq =>
    obtain ⟨hidle, hr⟩ := Option.ite_none_right_eq_some.mp h
    cases hr
    exact .loadForJoin l sinceSeq hidle
  | restore r => exact .of_restoreStep h
  | drain d r => exact .of_drainStep h
  | load l r => exact .of_loadStep h
  | compact c r => exact .of_compactStep h

/-! ## The life of a drain -/

/-- The phases a drain starts in. -/
def startPhase (batch : List PersistedStroke) : DrainPhase → Prop
  | .inserting b => b = batch
  | .succeeded | .resolved => batch = []
  | _ => False

/-- What can happen to a drain in one step. -/
inductive DrainMove (log : BoardLog) (buffer : List PersistedStroke) (log' : BoardLog) :
    Option DrainPhase → Option DrainPhase → Prop
  | stay (phase : Option DrainPhase) : DrainMove log buffer log' phase phase
  /-- It captures the buffer, possibly with a stroke accepted in the same step. -/
  | start (phase : DrainPhase) (batch : List PersistedStroke)
      (hbatch : batch = buffer ∨ ∃ k, batch = buffer ++ [k] ∧ log' = log.accept k)
      (hphase : startPhase batch phase) : DrainMove log buffer log' none (some phase)
  | insert (batch : List PersistedStroke) (hlog : log' = log.mapStore (·.insertBatch batch)) :
      DrainMove log buffer log' (some (.inserting batch)) (some (.inserted batch))
  | insertResolves (batch : List PersistedStroke) :
      DrainMove log buffer log' (some (.inserted batch)) (some (.touching batch))
  | touchResolves (batch : List PersistedStroke) :
      DrainMove log buffer log' (some (.touching batch)) (some .succeeded)
  | fail (phase : DrainPhase) (hpending : phase.pending) :
      DrainMove log buffer log' (some phase) (some .failed)
  | resolve : DrainMove log buffer log' (some .succeeded) (some .resolved)
  | reject : DrainMove log buffer log' (some .failed) (some .rejected)

variable {a : Action} {d e : ℕ}

theorem DrainMove.of_setDrain {buffer : List PersistedStroke} (inst : Instance)
    {phase : DrainPhase} (h : DrainMove log buffer log' (inst.drains e) (some phase)) :
    DrainMove log buffer log' (inst.drains d) ((inst.setDrain e phase).drains d) := by
  rw [drains_setDrain]
  split_ifs with hde
  · exact hde ▸ h
  · exact .stay _

theorem startPhase_drainOnce (batch : List PersistedStroke) :
    startPhase batch (if batch = [] then .succeeded else .inserting batch) := by
  split_ifs with h
  · exact h
  · rfl

theorem startPhase_flushPhase : startPhase inst.buffer inst.flushPhase := by
  unfold flushPhase
  split
  · next h => exact buffer_of_unseen h
  · next state h =>
    have hbuffer : inst.buffer = state.buffer := by rw [buffer, board, h, Option.getD_some]
    rw [hbuffer]
    exact startPhase_drainOnce _

theorem DrainMove.of_flush (inst : Instance) (hidle : inst.drains e = none) :
    DrainMove log inst.buffer log' (inst.drains d) ((inst.flush e).drains d) := by
  rw [drains_flush]
  split_ifs with hde
  · rw [hde, hidle]
    exact .start _ _ (Or.inl rfl) startPhase_flushPhase
  · exact .stay _

theorem Step.drainMove (h : Step cfg log inst a log' inst') (d : ℕ) :
    DrainMove log inst.buffer log' (inst.drains d) (inst'.drains d) := by
  cases h with
  | append | maybeCompact =>
    rw [drains_ensureInitialized]
    exact .stay _
  | resumeAppend id ts e call userId seg ready _ hidle =>
    unfold push
    dsimp only
    split_ifs
    · rw [drains_flush]
      split_ifs with hde
      · rw [hde, hidle]
        exact .start _ _ (Or.inr ⟨_, rfl, rfl⟩) startPhase_flushPhase
      · exact .stay _
    · exact .stay _
  | flush e hidle => exact .of_flush inst hidle
  | timerFires e _ hidle => exact .of_flush (inst.setBoard _) hidle
  | retryFires e _ hidle =>
    refine .of_setDrain (inst.setBoard _) ?_
    rw [show (inst.setBoard _).drains e = none from hidle]
    exact .start _ _ (Or.inl rfl) (startPhase_drainOnce _)
  | insert e batch hphase => exact .of_setDrain inst (hphase ▸ .insert batch rfl)
  | insertResolves e batch hphase => exact .of_setDrain inst (hphase ▸ .insertResolves batch)
  | touchResolves e batch hphase => exact .of_setDrain inst (hphase ▸ .touchResolves batch)
  | drainFails e phase hphase hpending =>
    refine .of_setDrain (inst.setBoard _) ?_
    rw [show (inst.setBoard _).drains e = some phase from hphase]
    exact .fail phase hpending
  | drainResolves e hphase =>
    refine .of_setDrain (inst.setBoard _) ?_
    rw [show (inst.setBoard _).drains e = some .succeeded from hphase]
    exact .resolve
  | drainRejects e hphase =>
    refine .of_setDrain (inst.setBoard _) ?_
    rw [show (inst.setBoard _).drains e = some .failed from hphase]
    exact .reject
  | _ => exact .stay _

/-! ## The life of a load -/

/-- What can happen to load `l` in one step. -/
inductive LoadMove (log : BoardLog) (buffer : List PersistedStroke) (l : ℕ) (a : Action) :
    Option Load → Option Load → Prop
  | stay (load : Option Load) : LoadMove log buffer l a load load
  | call (sinceSeq : Option ℕ) :
      LoadMove log buffer l a none (some ⟨sinceSeq, log.accepted, .readingSnapshot⟩)
  | readSnapshotSeq (load : Load) (hphase : load.phase = .readingSnapshot) :
      LoadMove log buffer l a (some load)
        (some { load with phase := .readingRows log.store.getSnapshotSeq })
  | readRows (load : Load) (snapshotSeq : ℕ) (hphase : load.phase = .readingRows snapshotSeq)
      (ha : a = .load l .readRows) :
      LoadMove log buffer l a (some load) (some { load with
        phase := .rowsRead snapshotSeq (log.store.loadSince (fromSeq load.sinceSeq snapshotSeq)) })
  | resolve (load : Load) (snapshotSeq : ℕ) (persisted : List PersistedStroke)
      (hphase : load.phase = .rowsRead snapshotSeq persisted) (now : ℕ)
      (ha : a = .load l (.resolve now)) :
      LoadMove log buffer l a (some load) (some { load with
        phase := .resolved snapshotSeq
          (joinHistory log.store.boardId load.sinceSeq snapshotSeq persisted buffer now) })
  | fail (load : Load) (ha : a = .load l .fail) :
      LoadMove log buffer l a (some load) (some { load with phase := .rejected })

theorem LoadMove.of_setLoad {buffer : List PersistedStroke} {l m : ℕ} {load : Load}
    (h : m = l → LoadMove log buffer m a (inst.loads l) (some load)) :
    LoadMove log buffer m a (inst.loads m) ((inst.setLoad l load).loads m) := by
  rw [loads_setLoad]
  split_ifs with hm
  · exact hm ▸ h hm
  · exact .stay _

theorem Step.loadMove (h : Step cfg log inst a log' inst') (l : ℕ) :
    LoadMove log inst.buffer l a (inst.loads l) (inst'.loads l) := by
  cases h with
  | append | maybeCompact =>
    rw [loads_ensureInitialized]
    exact .stay _
  | resumeAppend =>
    rw [loads_push]
    exact .stay _
  | flush | timerFires =>
    rw [loads_flush]
    exact .stay _
  | loadForJoin m sinceSeq hidle => exact .of_setLoad fun _ ↦ hidle ▸ .call sinceSeq
  | loadSnapshot m load hload hphase =>
    exact .of_setLoad fun _ ↦ hload ▸ .readSnapshotSeq load hphase
  | loadRows m load hload snapshotSeq hphase =>
    exact .of_setLoad fun hm ↦ hload ▸ .readRows load snapshotSeq hphase (hm ▸ rfl)
  | loadResolves m load hload snapshotSeq persisted hphase now =>
    exact .of_setLoad fun hm ↦ hload ▸ .resolve load snapshotSeq persisted hphase now (hm ▸ rfl)
  | loadFails m load hload => exact .of_setLoad fun hm ↦ hload ▸ .fail load (hm ▸ rfl)
  | _ => exact .stay _

/-! ## The life of a compaction -/

/-- What can happen to compaction `c` in one step. -/
inductive CompactMove (cfg : Config) (log : BoardLog) (inst : Instance) (c : ℕ) (a : Action)
    (log' : BoardLog) : Option CompactionPhase → Option CompactionPhase → Prop
  | stay (phase : Option CompactionPhase) : CompactMove cfg log inst c a log' phase phase
  /-- It is called or ends. -/
  | rest (old : Option CompactionPhase) (phase : CompactionPhase) (hrest : phase.underway = false) :
      CompactMove cfg log inst c a log' old (some phase)
  | resume (old : Option CompactionPhase) (hready : inst.ready ≠ []) :
      CompactMove cfg log inst c a log' old (some .counting)
  | count : CompactMove cfg log inst c a log' (some .counting) (some (.counted log.store.count))
  | proceed (total : ℕ) :
      CompactMove cfg log inst c a log' (some (.counted total)) (some .readingSnapshot)
  | readSnapshotSeq : CompactMove cfg log inst c a log' (some .readingSnapshot)
      (some (.readingTail log.store.getSnapshotSeq))
  | readTail (snapshotSeq cut : ℕ)
      (hcut : cut = cutSeq cfg snapshotSeq (log.store.loadSince snapshotSeq))
      (phase : CompactionPhase) (hphase : (snapshotSeq < cut ∧ phase = .settingSnapshot cut) ∨
        (cut ≤ snapshotSeq ∧ phase = .deleting cut)) :
      CompactMove cfg log inst c a log' (some (.readingTail snapshotSeq)) (some phase)
  | setSnapshot (cut : ℕ) (ha : a = .compact c .setSnapshot)
      (hlog : log' = log.mapStore (·.setSnapshot cut)) :
      CompactMove cfg log inst c a log' (some (.settingSnapshot cut)) (some (.deleting cut))
  | deleteRows (cut : ℕ) (phase : CompactionPhase)
      (hphase : phase = .deleted ∨ phase = .deleting cut) :
      CompactMove cfg log inst c a log' (some (.deleting cut)) (some phase)

theorem CompactMove.of_setCompaction {c e : ℕ} (inst' : Instance) {phase : CompactionPhase}
    (h : e = c → CompactMove cfg log inst e a log' (inst'.compactions c) (some phase)) :
    CompactMove cfg log inst e a log' (inst'.compactions e)
      ((inst'.setCompaction c phase).compactions e) := by
  rw [compactions_setCompaction]
  split_ifs with he
  · exact he ▸ h he
  · exact .stay _

theorem Step.compactMove (h : Step cfg log inst a log' inst') (c : ℕ) :
    CompactMove cfg log inst c a log' (inst.compactions c) (inst'.compactions c) := by
  cases h with
  | append =>
    rw [compactions_ensureInitialized]
    exact .stay _
  | maybeCompact e =>
    rw [compactions_ensureInitialized]
    exact .of_setCompaction inst fun _ ↦ .rest _ _ rfl
  | resumeAppend =>
    rw [compactions_push]
    exact .stay _
  | resumeCompact _ _ _ e ready hready =>
    refine .of_setCompaction (inst.setReady ready) fun _ ↦ ?_
    split_ifs
    · exact .rest _ _ rfl
    · exact .resume _ (by simp [hready])
  | flush | timerFires =>
    rw [compactions_flush]
    exact .stay _
  | restoreFail =>
    simp only [failRestore]
    split_ifs
    · exact .rest _ _ rfl
    · exact .stay _
  | count e hphase => exact .of_setCompaction inst fun _ ↦ hphase ▸ .count
  | proceedWithin e total hphase => exact .of_setCompaction inst fun _ ↦ .rest _ _ rfl
  | proceedOver e total hphase =>
    refine .of_setCompaction (inst.setBoard _) fun _ ↦ ?_
    rw [show (inst.setBoard _).compactions e = some (.counted total) from hphase]
    exact .proceed total
  | compactSnapshot e hphase => exact .of_setCompaction inst fun _ ↦ hphase ▸ .readSnapshotSeq
  | compactTail e snapshotSeq cut hphase hcut =>
    refine .of_setCompaction inst fun _ ↦ hphase ▸ .readTail snapshotSeq cut hcut _ ?_
    split_ifs with hlt
    · exact Or.inl ⟨hlt, rfl⟩
    · exact Or.inr ⟨not_lt.mp hlt, rfl⟩
  | setSnapshot e cut hphase =>
    exact .of_setCompaction inst fun he ↦ hphase ▸ .setSnapshot cut (he ▸ rfl) rfl
  | deleteRows e cut hphase victims =>
    refine .of_setCompaction inst fun _ ↦ hphase ▸ .deleteRows cut _ ?_
    split_ifs
    · exact Or.inl rfl
    · exact Or.inr rfl
  | compactFinish | compactFails => exact .of_setCompaction (inst.setBoard _) fun _ ↦ .rest _ _ rfl
  | countFails => exact .of_setCompaction inst fun _ ↦ .rest _ _ rfl
  | _ => exact .stay _

end Instance

end Synapse
