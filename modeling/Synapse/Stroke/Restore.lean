import Synapse.Stroke.Effect

/-!
# The restore and the counter

A counter that is ahead of everything accepted (`Instance.Current`) is kept there by every step of
its own instance, provided that the restore which set it found all there was to find.

An instance that has its board to itself never hands out a Sequence_Number twice. Before its
restore has succeeded it has accepted nothing, so the rows are all there is and the reads of
`initBoard` see them. `Instance.Restored` is the invariant behind this. The argument breaks at the
first write of another instance, which is why it is not part of the account of
`Synapse.Stroke.Account`.
-/

namespace Synapse

open Keyed

namespace Instance

variable {cfg : Config} {log log' : BoardLog} {inst inst' : Instance} {a : Action}

/-! ## The memoised restore -/

theorem ready_ensureInitialized (caller : Caller) (h : inst.board.initPromise ≠ some .fulfilled) :
    (inst.ensureInitialized caller).ready = inst.ready := by
  unfold ensureInitialized
  split
  · rfl
  · next hp => exact absurd hp h
  · rfl

/-- What can happen to the memoised promise. -/
inductive RestoreMove (log : BoardLog) (a : Action) (st st' : BoardState) : Prop
  | stay (h : st'.initPromise = st.initPromise)
  | start (h : st.initPromise = none) (h' : st'.initPromise = some .ensuring)
  | ensured (h : st.initPromise = some .ensuring) (h' : st'.initPromise = some .readingSnapshot)
      (ha : a = .restore .ensure)
  | snapshotRead (h : st.initPromise = some .readingSnapshot)
      (h' : st'.initPromise = some (.readingTail log.store.getSnapshotSeq))
  | tailRead (snapshotSeq : ℕ) (h : st.initPromise = some (.readingTail snapshotSeq))
      (h' : st'.initPromise
        = some (.tailRead (highestOf snapshotSeq (log.store.loadSince snapshotSeq))))
      (ha : a = .restore .readTail)
  | finish (highest : ℕ) (h : st.initPromise = some (.tailRead highest))
      (h' : st'.initPromise = some .fulfilled) (hseq : st'.nextSeq = highest + 1)
  | fail (h : st.initPromise ≠ some .fulfilled) (h' : st'.initPromise = none)

theorem restoreMove_ensureInitialized (caller : Caller) :
    RestoreMove log a inst.board (inst.ensureInitialized caller).board := by
  unfold ensureInitialized
  split
  · next hp => exact .start hp rfl
  · exact .stay rfl
  · exact .stay rfl

theorem Step.restoreMove (h : Step cfg log inst a log' inst') :
    RestoreMove log a inst.board inst'.board := by
  cases h with
  | append => exact restoreMove_ensureInitialized _
  | maybeCompact c =>
    rw [← board_setCompaction c .initializing]
    exact restoreMove_ensureInitialized _
  | resumeAppend => exact .stay (board_push _ _ _).2.1
  | flush | timerFires =>
    refine .stay ?_
    rw [board_flush]
    try rfl
  | restoreEnsure hp => exact .ensured hp rfl rfl
  | restoreSnapshot hp => exact .snapshotRead hp rfl
  | restoreTail n hp => exact .tailRead n hp rfl rfl
  | restoreFinish n hp => exact .finish n hp rfl rfl
  | restoreFail promise hp hpending => exact .fail (by simpa [hp] using hpending) rfl
  | drainRejects => exact .stay (BoardState.initPromise_handleFlushFailure _ _)
  | _ => exact .stay rfl

/-- A restore about to read the tail has just read the baseline, or was about to before. -/
theorem RestoreMove.readingTail {st st' : BoardState} (h : RestoreMove log a st st') {n : ℕ}
    (hn : st'.initPromise = some (.readingTail n)) :
    st.initPromise = some (.readingTail n) ∨ n = log.store.getSnapshotSeq := by
  cases h with
  | stay h' => exact Or.inl (h' ▸ hn)
  | snapshotRead _ h' =>
    rw [hn] at h'
    cases h'
    exact Or.inr rfl
  | start _ h' | ensured _ h' | tailRead _ _ h' | finish _ _ h' | fail _ h' =>
    rw [hn] at h'
    cases h'

theorem Step.fulfilled (h : Step cfg log inst a log' inst')
    (hp : inst.board.initPromise = some .fulfilled) :
    inst'.board.initPromise = some .fulfilled := by
  cases h.restoreMove with
  | stay h' => rw [h', hp]
  | fail hne => exact absurd hp hne
  | start h | ensured h | snapshotRead h | tailRead _ h | finish _ h =>
    rw [hp] at h
    cases h

theorem Step.ready (h : Step cfg log inst a log' inst')
    (hready : inst.board.initPromise ≠ some .fulfilled → inst.ready = [])
    (hp' : inst'.board.initPromise ≠ some .fulfilled) : inst'.ready = [] := by
  have hp : inst.board.initPromise ≠ some .fulfilled := fun hp ↦ hp' (h.fulfilled hp)
  have hnil := hready hp
  cases h with
  | append => rw [ready_ensureInitialized _ hp, hnil]
  | maybeCompact c =>
    rw [ready_ensureInitialized]
    exacts [hnil, hp]
  | resumeAppend _ _ _ _ _ _ _ hcons | resumeCompact _ _ _ _ _ hcons =>
    rw [hnil] at hcons
    cases hcons
  | flush | timerFires =>
    rw [ready_flush]
    exact hnil
  | restoreFinish => exact absurd rfl hp'
  | _ => exact hnil

theorem Effect.accepted (h : Effect cfg log inst a log' inst') (ha : inst.accepts a = false) :
    log'.accepted = log.accepted := by
  cases h with
  | accept k _ hresumes | acceptCapture k _ hresumes =>
    rw [accepts, hresumes] at ha
    cases ha
  | _ => rfl

theorem accepts_of_ready_nil (h : inst.ready = []) (a : Action) : inst.accepts a = false := by
  cases a <;> first | rfl | rw [accepts, resumesAppend, h]

/-! ## Before the restore has succeeded -/

/-- Nothing has been done for the board yet, apart from awaiting its restore. -/
structure Dormant (log : BoardLog) (inst : Instance) : Prop where
  ready : inst.ready = []
  held : ∀ p, inst.held p = []
  rows : ∀ k ∈ log.accepted, k ∈ log.store.strokes
  idle : ∀ c phase, inst.compactions c = some phase → phase.underway = false

/-- While the restore is under way nothing of what it reads changes. -/
theorem Dormant.log_step (hd : inst.Dormant log) (h : Effect cfg log inst a log' inst') :
    log'.accepted = log.accepted ∧ log'.store.getSnapshotSeq = log.store.getSnapshotSeq ∧
      log'.store.strokes = log.store.strokes ∧ ∀ p, inst'.held p = [] := by
  have hbuffer : inst.buffer = [] := hd.held none
  have hbatch : ∀ d, inst.batch d = [] := fun d ↦ hd.held (some d)
  have hresumes : inst.resumesAppend = false := by rw [resumesAppend, hd.ready]
  cases h with
  | quiet hheld | ensure hheld => exact ⟨rfl, rfl, rfl, hheld ▸ hd.held⟩
  | setSnapshot c cut hphase =>
    exact absurd (hd.idle c _ hphase) (by simp [CompactionPhase.underway])
  | accept k _ hready | acceptCapture k _ hready => simp [hresumes] at hready
  | capture d _ _ hheld =>
    refine ⟨rfl, rfl, rfl, fun p ↦ ?_⟩
    rw [hheld, hbuffer, Function.update_apply, Function.update_apply, hd.held]
    split_ifs <;> rfl
  | insert d _ hheld =>
    refine ⟨rfl, rfl, ?_, hheld ▸ hd.held⟩
    rw [BoardLog.mapStore, BoardStore.insertBatch_strokes, hbatch d, Table.insertAll_nil]
  | release d _ hheld =>
    refine ⟨rfl, rfl, rfl, fun p ↦ ?_⟩
    rw [hheld, Function.update_apply, hd.held]
    split_ifs <;> rfl
  | rebuffer d hheld =>
    refine ⟨rfl, rfl, rfl, fun p ↦ ?_⟩
    rw [hheld, hbuffer, hbatch, Function.update_apply, Function.update_apply, hd.held]
    split_ifs <;> rfl
  | prune c cut victims hphase =>
    exact absurd (hd.idle c _ hphase) (by simp [CompactionPhase.underway])

theorem Dormant.step (hd : inst.Dormant log) (h : Step cfg log inst a log' inst')
    (hp' : inst'.board.initPromise ≠ some .fulfilled) : inst'.Dormant log' := by
  obtain ⟨haccepted, -, hrows, hheld⟩ := hd.log_step h.effect
  have hidle : ∀ {c phase}, inst.compactions c = some phase → phase.underway = true → False :=
    fun hc hu ↦ absurd (hd.idle _ _ hc) (by rw [hu]; decide)
  refine ⟨?_, hheld, by rw [haccepted, hrows]; exact hd.rows, ?_⟩
  · exact h.ready (fun _ ↦ hd.ready) hp'
  · cases h with
    | append =>
      rw [compactions_ensureInitialized]
      exact hd.idle
    | maybeCompact c =>
      intro e phase he
      rw [compactions_ensureInitialized, compactions_setCompaction] at he
      split_ifs at he
      · cases he
        rfl
      · exact hd.idle e phase he
    | resumeAppend _ _ _ _ _ _ _ hready | resumeCompact _ _ _ _ _ hready =>
      rw [hd.ready] at hready
      cases hready
    | flush | timerFires =>
      rw [compactions_flush]
      exact hd.idle
    | restoreFail =>
      intro e phase he
      simp only [failRestore] at he
      split_ifs at he
      · cases he
        rfl
      · exact hd.idle e phase he
    | count _ hphase | proceedWithin _ _ hphase | proceedOver _ _ hphase | compactSnapshot _ hphase
    | compactTail _ _ _ hphase | setSnapshot _ _ hphase | deleteRows _ _ hphase
    | compactFinish _ hphase | countFails _ hphase => exact (hidle hphase rfl).elim
    | compactFails _ phase hphase hcritical =>
      exact (hidle hphase (phase.underway_of_critical hcritical)).elim
    | _ => exact hd.idle

/-! ## The counter -/

/-- The highest number the reads of `initBoard` find bounds the baseline and the rows. -/
theorem le_highestOf {store : BoardStore} {n : ℕ}
    (h : n ≤ store.getSnapshotSeq ∨ ∃ r ∈ store.strokes, n ≤ r.seq) :
    n ≤ highestOf store.getSnapshotSeq (store.loadSince store.getSnapshotSeq) := by
  set snapshotSeq := store.getSnapshotSeq
  set tail := store.loadSince snapshotSeq with htail
  have hasc : Ascending PersistedStroke.seq tail := store.ascending_loadSince _
  rcases eq_or_ne tail [] with hnil | hne
  · -- an empty tail: every row is at or below the baseline
    have hbound : ∀ r ∈ store.strokes, r.seq ≤ snapshotSeq := by
      intro r hr
      by_contra hlt
      have hmem : r ∈ tail := BoardStore.mem_loadSince.mpr ⟨hr, not_le.mp hlt⟩
      simp [hnil] at hmem
    simp only [highestOf, hnil, List.getLast?_nil, Option.map_none, Option.getD_none]
    rcases h with h | ⟨r, hr, hle⟩
    · exact h
    · exact hle.trans (hbound r hr)
  · -- the tail is ascending, so its last row is the highest
    have hlast : highestOf snapshotSeq tail = (tail.getLast hne).seq := by
      simp [highestOf, List.getLast?_eq_some_getLast hne]
    have habove : snapshotSeq < (tail.getLast hne).seq :=
      (BoardStore.mem_loadSince.mp (List.getLast_mem hne)).2
    rw [hlast]
    rcases h with h | ⟨r, hr, hle⟩
    · omega
    · by_cases hlt : snapshotSeq < r.seq
      · exact hle.trans (hasc.key_le_getLast hne (BoardStore.mem_loadSince.mpr ⟨hr, hlt⟩))
      · omega

/-- The counter, or what it will be set to, is ahead of everything accepted. -/
structure Current (log : BoardLog) (inst : Instance) : Prop where
  tailRead : ∀ n, inst.board.initPromise = some (.tailRead n) → ∀ k ∈ log.accepted, k.seq ≤ n
  fulfilled : inst.board.initPromise = some .fulfilled →
    ∀ k ∈ log.accepted, k.seq < inst.board.nextSeq

theorem current_fresh (log : BoardLog) : Current log {} where
  tailRead _ hn := by cases hn
  fulfilled hf := by cases hf

theorem Current.of_accepted_eq (hc : inst.Current log) (h : log'.accepted = log.accepted) :
    inst.Current log' where
  tailRead := by
    rw [h]
    exact hc.tailRead
  fulfilled := by
    rw [h]
    exact hc.fulfilled

theorem Step.counter (h : Step cfg log inst a log' inst')
    (hp : inst.board.initPromise = some .fulfilled) :
    (log'.accepted = log.accepted ∧ inst'.board.nextSeq = inst.board.nextSeq) ∨
      ∃ k : PersistedStroke, k.seq = inst.board.nextSeq ∧ log'.accepted = log.accepted ++ [k] ∧
        inst'.board.nextSeq = k.seq + 1 := by
  cases h with
  | append | maybeCompact => exact Or.inl ⟨rfl, nextSeq_ensureInitialized _⟩
  | resumeAppend id ts d call userId seg ready =>
    exact Or.inr ⟨_, rfl, rfl, (board_push _ _ _).1⟩
  | flush | timerFires =>
    rw [board_flush]
    exact Or.inl ⟨rfl, rfl⟩
  | restoreEnsure hp' | restoreSnapshot hp' | restoreTail _ hp' | restoreFinish _ hp' =>
    rw [hp] at hp'
    cases hp'
  | restoreFail promise hp' hpending =>
    rw [hp] at hp'
    cases hp'
    exact absurd rfl hpending
  | drainRejects => exact Or.inl ⟨rfl, BoardState.nextSeq_handleFlushFailure _ _⟩
  | _ => exact Or.inl ⟨rfl, rfl⟩

/-- **A step of an instance keeps its counter ahead of everything accepted**, provided that the
restore, when it reads the tail, finds a number that is. -/
theorem Current.step (hc : inst.Current log) (h : Step cfg log inst a log' inst')
    (hready : inst.board.initPromise ≠ some .fulfilled → inst.ready = [])
    (hread : ∀ n, a = .restore .readTail → inst.board.initPromise = some (.readingTail n) →
      ∀ k ∈ log.accepted, k.seq ≤ highestOf n (log.store.loadSince n)) : inst'.Current log' := by
  by_cases hp : inst.board.initPromise = some .fulfilled
  · have hp' := h.fulfilled hp
    refine ⟨by simp [hp'], fun _ k hk ↦ ?_⟩
    rcases h.counter hp with ⟨haccepted, hseq⟩ | ⟨x, hx, haccepted, hseq⟩
    · rw [hseq]
      exact hc.fulfilled hp k (haccepted ▸ hk)
    · rw [haccepted, List.mem_append, List.mem_singleton] at hk
      rcases hk with hk | rfl
      · have := hc.fulfilled hp k hk
        omega
      · omega
  · -- nothing is accepted before the restore has succeeded
    have hsame : log'.accepted = log.accepted :=
      h.effect.accepted (accepts_of_ready_nil (hready hp) a)
    refine Current.of_accepted_eq ?_ hsame
    cases h.restoreMove with
    | stay h' => exact ⟨fun n hn ↦ hc.tailRead n (h' ▸ hn), fun hf ↦ absurd (h' ▸ hf) hp⟩
    | tailRead m hm h' ha =>
      refine ⟨fun n hn ↦ ?_, by simp [h']⟩
      rw [h'] at hn
      cases hn
      exact hread m ha hm
    | finish highest hm h' hseq =>
      refine ⟨by simp [h'], fun _ k hk ↦ ?_⟩
      have := hc.tailRead highest hm k hk
      omega
    | start _ h' | ensured _ h' | snapshotRead _ h' | fail _ h' =>
      exact ⟨by simp [h'], by simp [h']⟩

/-! ## The invariant -/

/-- The restore, from start to success. -/
structure Restored (log : BoardLog) (inst : Instance) : Prop extends inst.Current log where
  dormant : inst.board.initPromise ≠ some .fulfilled → inst.Dormant log
  readingTail : ∀ n, inst.board.initPromise = some (.readingTail n) →
    n = log.store.getSnapshotSeq

theorem restored_fresh (h : log.accepted = log.store.strokes.rows) : Restored log {} where
  dormant _ :=
    { ready := rfl
      held := fun p ↦ by cases p <;> rfl
      rows := fun k hk ↦ by rwa [h] at hk
      idle := fun _ _ hc ↦ by cases hc }
  readingTail _ hn := by cases hn
  toCurrent := current_fresh log

/-- **A step of a lone instance keeps its counter ahead of everything accepted.** -/
theorem Restored.step (hr : inst.Restored log) (h : Step cfg log inst a log' inst') :
    inst'.Restored log' := by
  have hcurrent : inst'.Current log' := by
    refine hr.toCurrent.step h (fun hp ↦ (hr.dormant hp).ready) fun n _ hn k hk ↦ ?_
    have hd := hr.dormant (by simp [hn])
    rw [hr.readingTail n hn]
    exact le_highestOf (Or.inr ⟨k, hd.rows k hk, le_rfl⟩)
  refine ⟨hcurrent, fun hp' ↦ ?_, fun n hn ↦ ?_⟩
  · have hp : inst.board.initPromise ≠ some .fulfilled := fun hp ↦ hp' (h.fulfilled hp)
    exact (hr.dormant hp).step h hp'
  · have hp : inst.board.initPromise ≠ some .fulfilled := fun hp ↦ by
      rw [h.fulfilled hp] at hn
      cases hn
    obtain ⟨-, hsnapshot, -, -⟩ := (hr.dormant hp).log_step h.effect
    rw [hsnapshot]
    exact (h.restoreMove.readingTail hn).elim (hr.readingTail n) id

end Instance

end Synapse
