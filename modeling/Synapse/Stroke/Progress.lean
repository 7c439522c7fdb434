import Synapse.Stroke.Settling
import Synapse.Stroke.Timers
import Synapse.Transition.Due

/-!
# Every stroke is on its way

A stroke that has been accepted and not stored is in the batch of a drain that is about to insert
it, or in the buffer, where a timer or the failure handler of a drain is going to fetch it. How far
it still has to go is its `distance`, which no step increases unless it fails the very write the
stroke is part of. What counts on the way is little: the insertion of its batch, the timer that
empties its buffer, and the failure handler that arms such a timer. Appends, flushes, compactions,
reads and the failures of other writes may come in between at any time.
-/

namespace Synapse

open Custody Transition

namespace Instance

variable {cfg : Config} {log log' : BoardLog} {inst inst' : Instance} {a : Action}
  {k : PersistedStroke}

/-- The write of the batch that holds `k` does not fail. -/
def KeepsBatch (k : PersistedStroke) (inst : Instance) : Action → Prop
  | .drain d .fail => k ∉ inst.batch d
  | _ => True

/-- What `k` waits for: the insertion of its batch, a timer that empties its buffer, or else the
failure handler that arms one. -/
def Carries (k : PersistedStroke) (inst : Instance) : Action → Prop
  | .drain d .insert => k ∈ inst.batch d
  | .timerFires _ | .retryFires _ => k ∈ inst.buffer
  | .drain _ .reject =>
    k ∈ inst.buffer ∧ inst.board.timer = none ∧ inst.board.retryTimer = none
  | _ => False

/-- Whether a timer of the board is armed. -/
def armed (inst : Instance) : Bool := inst.board.timer.isSome || inst.board.retryTimer.isSome

/-- How far `k` is from an insertion. -/
def distance (k : PersistedStroke) (inst : Instance) : ℕ :=
  if k ∈ inst.buffer then if inst.armed then 1 else 2 else 0

theorem distance_of_not_mem (h : k ∉ inst.buffer) : inst.distance k = 0 := if_neg h

theorem distance_of_armed (hk : k ∈ inst.buffer) (h : inst.armed = true) :
    inst.distance k = 1 := by
  rw [distance, if_pos hk, if_pos h]

theorem distance_of_unarmed (hk : k ∈ inst.buffer) (h : inst.armed = false) :
    inst.distance k = 2 := by
  rw [distance, if_pos hk, if_neg (by rw [h]; exact Bool.false_ne_true)]

theorem distance_pos (hk : k ∈ inst.buffer) : 0 < inst.distance k := by
  rw [distance, if_pos hk]
  split_ifs <;> decide

theorem distance_le_of_armed (h : inst'.armed = true)
    (hmem : k ∈ inst'.buffer → k ∈ inst.buffer) : inst'.distance k ≤ inst.distance k := by
  by_cases hk : k ∈ inst'.buffer
  · rw [distance_of_armed hk h]
    exact distance_pos (hmem hk)
  · rw [distance_of_not_mem hk]
    exact Nat.zero_le _

/-- **No step takes a stroke further away** unless it fails the write the stroke is part of. -/
theorem Step.distance_le (hs : Step cfg log inst a log' inst') (hkeeps : KeepsBatch k inst a)
    (hnew : log'.accepted ≠ log.accepted ++ [k]) : inst'.distance k ≤ inst.distance k := by
  rcases hs.timerMove with ⟨hbuffer, htimer, hretry, -⟩ | ⟨x, hbuffer, htimer, hlog⟩ |
    ⟨hbuffer, -⟩ | ⟨d, rfl, -⟩ | ⟨hbuffer, -, hretry, -⟩
  · rw [distance, distance, hbuffer, armed, armed, htimer, hretry]
  · refine distance_le_of_armed ?_ fun hk ↦ ?_
    · rw [armed, htimer]
      cases inst.board.timer <;> rfl
    · rw [hbuffer, List.mem_append, List.mem_singleton] at hk
      exact hk.resolve_right fun hx ↦ hnew (hx ▸ hlog)
  · rw [distance_of_not_mem (by rw [hbuffer]; exact List.not_mem_nil)]
    exact Nat.zero_le _
  · -- the failed batch does not hold `k`, and the timers stay as they are
    cases hs
    have hmem : k ∈ (inst.rebuffer d).buffer ↔ k ∈ inst.buffer := by
      change k ∈ inst.batch d ++ inst.buffer ↔ _
      rw [List.mem_append]
      exact or_iff_right hkeeps
    simp only [distance, hmem]
    exact le_rfl
  · refine distance_le_of_armed ?_ fun hk ↦ hbuffer ▸ hk
    rw [armed, hretry, Bool.or_true]

/-- What empties the buffer or arms a timer brings every stroke of the buffer closer. -/
theorem Step.distance_lt (hs : Step cfg log inst a log' inst') (hcarries : Carries k inst a)
    (hinsert : ∀ d, a ≠ .drain d .insert) : inst'.distance k < inst.distance k := by
  cases hs with
  | timerFires d =>
    rw [distance_of_not_mem (by rw [buffer, board_flush]; exact List.not_mem_nil)]
    exact distance_pos hcarries
  | retryFires d =>
    have hempty : ((inst.setBoard inst.board.cancelRetryTimer).drainOnce d).buffer = [] := rfl
    rw [distance_of_not_mem (by rw [hempty]; exact List.not_mem_nil)]
    exact distance_pos hcarries
  | drainRejects d =>
    obtain ⟨hk, htimer, hretry⟩ := hcarries
    obtain ⟨hretry', -⟩ := handleFlushFailure_retryTimer cfg inst.board
    have hunarmed : inst.armed = false := by rw [armed, htimer, hretry]; rfl
    have harmed : ((inst.setBoard (inst.board.handleFlushFailure cfg)).setDrain d
        .rejected).armed = true := by
      rw [armed, board_setDrain, board_setBoard, hretry', Bool.or_true]
    have hk' : k ∈ ((inst.setBoard (inst.board.handleFlushFailure cfg)).setDrain d
        .rejected).buffer := by
      rw [buffer, board_setDrain, board_setBoard, BoardState.buffer_handleFlushFailure]
      exact hk
    rw [distance_of_armed hk' harmed, distance_of_unarmed hk hunarmed]
    exact Nat.one_lt_two
  | insert d => exact absurd rfl (hinsert d)
  | _ => exact hcarries.elim

end Instance

namespace World

variable {cfg : Config} {w w' : World Unit} {k : PersistedStroke}

/-- The write of the batch that holds `k` does not fail. -/
def KeepsBatch (k : PersistedStroke) (w : World Unit) (a : Unit × Action) : Prop :=
  Instance.KeepsBatch k (w.insts ()) a.2

/-- The step is one that `k` waits for. -/
def Carries (k : PersistedStroke) (w : World Unit) (a : Unit × Action) : Prop :=
  Instance.Carries k (w.insts ()) a.2

/-- Every buffer has somebody to empty it, and there is a drain to do it. -/
structure Attended (w : World Unit) : Prop where
  owned : w.Owned
  covered : (w.insts ()).buffer ≠ [] → (w.insts ()).Covered
  freeDrain : (w.insts ()).HasFreeDrain

theorem Attended.of_init (h : w.init) : w.Attended := by
  refine ⟨.of_init h, ?_, ?_⟩ <;> rw [h.2.2]
  · exact absurd rfl
  · exact Instance.hasFreeDrain_fresh

theorem Attended.step (h : w.Attended) {a : Unit × Action}
    (hs : w.step (fun _ ↦ cfg) a = some w') : w'.Attended := by
  refine ⟨h.owned.step hs, ?_, ?_⟩ <;> obtain ⟨log, inst, hstep, rfl⟩ := step_eq_some.mp hs <;>
    rw [put_insts_self]
  · exact (Instance.Step.of_step hstep).timerMove.covered h.covered
  · exact h.freeDrain.step (.of_step hstep)

theorem Attended.of_reaches (h : (machine fun _ ↦ cfg).Reaches Machine.anyStep w) : w.Attended :=
  h.invariant (fun _ ↦ .of_init) fun _ _ _ hu _ hs ↦ hu.step hs

/-- Where a stroke is that has not been stored. -/
theorem Attended.waits (h : w.Attended) (hk : k ∈ w.log.accepted)
    (hopen : ¬ w.custody.Stored k) :
    k ∈ (w.insts ()).buffer ∨
      ∃ d batch, (w.insts ()).drains d = some (.inserting batch) ∧ k ∈ batch := by
  rcases h.owned.accounted.sound.accounted k hk with hstored | ⟨⟨⟨⟩, _ | d⟩, hheld⟩
  · exact absurd hstored hopen
  · exact Or.inl hheld
  · right
    have hbatch : k ∈ (w.insts ()).batch d := hheld
    -- a batch that has been written is stored
    have hwritten : ∀ batch, k ∈ batch → ¬ (w.insts ()).Written d batch :=
      fun batch hk hw ↦ hopen (h.owned.accounted.written () d batch hw k hk)
    cases hphase : (w.insts ()).drains d with
    | none =>
      rw [Instance.batch_of_idle hphase] at hbatch
      cases hbatch
    | some phase =>
      rw [Instance.batch_eq hphase] at hbatch
      cases phase with
      | inserting batch => exact ⟨d, batch, hphase, hbatch⟩
      | inserted batch => exact absurd (Or.inl hphase) (hwritten batch hbatch)
      | touching batch => exact absurd (Or.inr hphase) (hwritten batch hbatch)
      | succeeded | failed | resolved | rejected => cases hbatch

theorem Attended.exists_carries (h : w.Attended) (hk : k ∈ w.log.accepted)
    (hopen : ¬ w.custody.Stored k) :
    ∃ a t, KeepsBatch k w a ∧ Carries k w a ∧ w.step (fun _ ↦ cfg) a = some t := by
  suffices ∃ a, Instance.KeepsBatch k (w.insts ()) a ∧ Instance.Carries k (w.insts ()) a ∧
      ((w.insts ()).step cfg w.log a).isSome by
    obtain ⟨a, hkeeps, hcarries, hsome⟩ := this
    obtain ⟨⟨log, inst⟩, hres⟩ := Option.isSome_iff_exists.mp hsome
    exact ⟨((), a), w.put () (log, inst), hkeeps, hcarries,
      step_eq_some.mpr ⟨log, inst, hres, rfl⟩⟩
  obtain ⟨n, hn⟩ := h.freeDrain
  rcases h.waits hk hopen with hbuffer | ⟨d, batch, hphase, hbatch⟩
  · rcases htimer : (w.insts ()).board.timer with _ | time
    · rcases hretry : (w.insts ()).board.retryTimer with _ | time
      · -- nobody but a failure handler is left to cover the buffer
        obtain ⟨d, hd⟩ : ∃ d, (w.insts ()).drains d = some .failed := by
          rcases h.covered (List.ne_nil_of_mem hbuffer) with hsome | hsome | hfailed
          · rw [htimer] at hsome
            cases hsome
          · rw [hretry] at hsome
            cases hsome
          · exact hfailed
        exact ⟨.drain d .reject, trivial, ⟨hbuffer, htimer, hretry⟩,
          by simp [Instance.step, Instance.drainStep, hd]⟩
      · exact ⟨.retryFires n, trivial, hbuffer, by simp [Instance.step, hretry, hn n le_rfl]⟩
    · exact ⟨.timerFires n, trivial, hbuffer, by simp [Instance.step, htimer, hn n le_rfl]⟩
  · refine ⟨.drain d .insert, trivial, ?_, by simp [Instance.step, Instance.drainStep, hphase]⟩
    change k ∈ (w.insts ()).batch d
    rwa [Instance.batch_eq hphase]

theorem Owned.accepted_ne (h' : w'.Owned) (hk : k ∈ w.log.accepted) :
    w'.log.accepted ≠ w.log.accepted ++ [k] := by
  intro hnew
  have hkeyed : (w'.log.accepted.map PersistedStroke.seq).Nodup := h'.accounted.sound.keyed
  rw [hnew] at hkeyed
  exact (List.nodup_append.mp hkeyed.of_map).2.2 k hk k (List.mem_singleton_self k) rfl

theorem Owned.stored_insert (h : w.Owned) {d : ℕ} (hk : k ∈ (w.insts ()).batch d)
    (hs : w.step (fun _ ↦ cfg) ((), .drain d .insert) = some w') : w'.custody.Stored k := by
  have hstored := h.accounted.sound.stored_commit (p := ((), some d)) (x := k) hk
  obtain ⟨log, inst, hstep, rfl⟩ := step_eq_some.mp hs
  cases Instance.Step.of_step hstep with
  | insert _ batch hphase =>
    have hheld : w.custody.held ((), some d) = batch := Instance.batch_eq hphase
    rw [State.commit, hheld] at hstored
    rw [custody_put, BoardLog.mapStore, BoardStore.insertBatch_strokes]
    exact hstored

/-- **What a stroke waits for brings it to the store**, whatever else is done in between. -/
theorem Attended.due (h : w.Attended) (hk : k ∈ w.log.accepted) :
    (machine fun _ ↦ cfg).Due (KeepsBatch k) (Carries k) (fun w ↦ w.custody.Stored k) w := by
  refine Machine.Due.of_rank (P := fun w ↦ w.Attended ∧ k ∈ w.log.accepted)
    (fun w ↦ (w.insts ()).distance k) (fun w ⟨hw, hk⟩ ↦ hw.exists_carries hk)
    (fun w a w' ⟨hw, hk⟩ _ hkeeps hs _ ↦ ?_) (fun w a w' ⟨hw, hk⟩ _ _ hcarries hs hopen ↦ ?_)
    ⟨h, hk⟩
  · change w.step (fun _ ↦ cfg) a = some w' at hs
    have hw' := hw.step hs
    have hk' := (hw.owned.moves hs).prefix_accepted.subset hk
    have hnew := hw'.owned.accepted_ne hk
    obtain ⟨log, inst, hstep, rfl⟩ := step_eq_some.mp hs
    refine ⟨⟨hw', hk'⟩, ?_⟩
    rw [put_insts_self]
    exact (Instance.Step.of_step hstep).distance_le hkeeps hnew
  · change w.step (fun _ ↦ cfg) a = some w' at hs
    have hinsert : ∀ d, a.2 ≠ .drain d .insert := by
      rintro d hd
      obtain ⟨⟨⟩, a⟩ := a
      subst hd
      exact hopen (hw.owned.stored_insert hcarries hs)
    obtain ⟨log, inst, hstep, rfl⟩ := step_eq_some.mp hs
    rw [put_insts_self]
    exact (Instance.Step.of_step hstep).distance_lt hcarries hinsert

/-- **Every accepted stroke is bound to be stored.** From any state the service can reach, whatever
has failed on the way there, the steps a stroke waits for bring it to the store, unless the write it
is part of fails again; and in every infinite run in which it is not kept waiting for them forever
it is stored from some moment on. -/
theorem stored_in_the_end (h : (machine fun _ ↦ cfg).Reaches Machine.anyStep w)
    (hk : k ∈ w.log.accepted) :
    (machine fun _ ↦ cfg).Due (KeepsBatch k) (Carries k) (fun w ↦ w.custody.Stored k) w ∧
    ∀ (run : ℕ → World Unit) (act : ℕ → Unit × Action), run 0 = w →
      (∀ n, (run n).step (fun _ ↦ cfg) (act n) = some (run (n + 1))) →
      (∀ n, KeepsBatch k (run n) (act n)) →
      (∀ n, ∃ m, n ≤ m ∧ ((run m).custody.Stored k ∨ Carries k (run m) (act m))) →
      ∃ n, ∀ m, n ≤ m → (run m).custody.Stored k := by
  have hdue : (machine fun _ ↦ cfg).Due (KeepsBatch k) (Carries k)
      (fun w ↦ w.custody.Stored k) w := (Attended.of_reaches h).due hk
  refine ⟨hdue, fun run act hzero hrun hkeeps hfair ↦ ?_⟩
  subst hzero
  obtain ⟨n, -, hn⟩ := hdue.exists_goal hrun hkeeps hfair
  refine ⟨n, fun m hnm ↦ ?_⟩
  have hstart : (machine fun _ ↦ cfg).Steps Machine.anyStep (run 0) (run n) :=
    Machine.steps_of_run hrun n.zero_le fun _ _ _ ↦ trivial
  have hrest : (machine fun _ ↦ cfg).Steps Machine.anyStep (run n) (run m) :=
    Machine.steps_of_run hrun hnm fun _ _ _ ↦ trivial
  exact (Attended.of_reaches (h.trans hstart)).owned.stored_of_steps hrest hn

/-- The first write of a stroke fails, and the stroke is back in the buffer. -/
def failedWriteRun : List Action :=
  sampleRestore ++ [.resume "a" 5 0, .drain 0 .fail]

private def unstored (w : World Unit) : Bool :=
  w.log.accepted.any fun k ↦ !decide (w.custody.Stored k)

theorem stored_in_the_end_failedWrite : ∃ w k,
    (machine fun _ ↦ sampleConfig 1 9).exec (start Unit sampleStore) (overLone failedWriteRun)
      = some w ∧ ¬ w.custody.Stored k ∧
    (machine fun _ ↦ sampleConfig 1 9).Due (KeepsBatch k) (Carries k)
      (fun w ↦ w.custody.Stored k) w := by
  obtain ⟨w, hexec, hsteps, hp⟩ := Machine.exists_of_exec (M := machine fun _ ↦ sampleConfig 1 9)
    (p := unstored) (start Unit sampleStore) (overLone failedWriteRun) (by decide)
  obtain ⟨k, hk, hopen⟩ := List.any_eq_true.mp hp
  rw [Bool.not_eq_true', decide_eq_false_iff_not] at hopen
  exact ⟨w, k, hexec, hopen, (stored_in_the_end ⟨_, init_start _, hsteps⟩ hk).1⟩

end World

end Synapse
