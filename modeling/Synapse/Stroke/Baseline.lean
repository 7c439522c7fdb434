import Synapse.Stroke.Account

/-!
# The compaction baseline

A compaction reads the baseline and the rows above it, computes a cut, writes the cut as the new
baseline and then deletes everything up to it. The write is unconditional, and the guard meant to
keep compactions apart is set only after an await, besides being private to an instance. So a run
that was overtaken between its read and its write moves the baseline back behind rows that are
already deleted.

Apart from that one write the baseline is sound, in any number of instances: a run deletes nothing
that the baseline it has read or written does not cover (`Instance.Behind`), and the row holding
the baseline exists from the first `initBoard` on (`Instance.Grounded`).
-/

namespace Synapse

open Keyed Transition

namespace Instance

variable {cfg : Config} {log log' : BoardLog} {inst inst' : Instance} {a : Action}

/-! ## The row of `boards` -/

theorem Effect.boardRow (h : Effect cfg log inst a log' inst') (hrow : log.store.boardRow.isSome) :
    log'.store.boardRow.isSome := by
  cases h with
  | ensure => rfl
  | setSnapshot => rwa [BoardLog.mapStore, BoardStore.setSnapshot, Option.isSome_map]
  | _ => exact hrow

/-- Whatever awaited `ensure` finds the row of the board. -/
structure Grounded (log : BoardLog) (inst : Instance) : Prop where
  promise : ∀ p, inst.board.initPromise = some p → p ≠ .ensuring → log.store.boardRow.isSome
  ready : inst.board.initPromise ≠ some .fulfilled → inst.ready = []
  underway : ∀ c phase, inst.compactions c = some phase → phase.underway →
    log.store.boardRow.isSome

theorem grounded_fresh (log : BoardLog) : Grounded log {} where
  promise _ hp := by cases hp
  ready _ := rfl
  underway _ _ hc := by cases hc

theorem Grounded.mono (hg : inst.Grounded log)
    (h : log.store.boardRow.isSome → log'.store.boardRow.isSome) : inst.Grounded log' where
  promise p hp hne := h (hg.promise p hp hne)
  ready := hg.ready
  underway c phase hc hu := h (hg.underway c phase hc hu)

theorem Grounded.step (hg : inst.Grounded log) (h : Step cfg log inst a log' inst') :
    inst'.Grounded log' := by
  have hmono : log.store.boardRow.isSome → log'.store.boardRow.isSome := h.effect.boardRow
  refine ⟨fun p hp hne ↦ ?_, h.ready hg.ready, fun c phase hc hu ↦ ?_⟩
  · cases h.restoreMove with
    | stay h' => exact hmono (hg.promise p (h' ▸ hp) hne)
    | start _ h' =>
      rw [h'] at hp
      cases hp
      exact absurd rfl hne
    | ensured hbefore _ ha =>
      subst ha
      cases h with
      | restoreEnsure => rfl
    | snapshotRead hbefore | tailRead _ hbefore | finish _ hbefore =>
      exact hmono (hg.promise _ hbefore (by simp))
    | fail _ h' =>
      rw [h'] at hp
      cases hp
  · have hmove := h.compactMove c
    rw [hc] at hmove
    generalize hold : inst.compactions c = old at hmove
    cases hmove with
    | stay => exact hmono (hg.underway c phase hold hu)
    | rest _ _ hrest =>
      rw [hrest] at hu
      cases hu
    | resume _ hready =>
      have hfulfilled : inst.board.initPromise = some .fulfilled := by
        by_contra hp
        exact hready (hg.ready hp)
      exact hmono (hg.promise _ hfulfilled (by simp))
    | count | proceed | readSnapshotSeq | readTail | setSnapshot | deleteRows =>
      exact hmono (hg.underway c _ hold rfl)

/-! ## One run and the baseline -/

/-- What a compaction has read, or deletes up to, is not above the baseline. -/
structure Behind (log : BoardLog) (inst : Instance) : Prop where
  read : ∀ c n, inst.compactions c = some (.readingTail n) → n ≤ log.store.getSnapshotSeq
  cut : ∀ c n, inst.compactions c = some (.deleting n) → n ≤ log.store.getSnapshotSeq

theorem behind_fresh (log : BoardLog) : Behind log {} where
  read _ _ hc := by cases hc
  cut _ _ hc := by cases hc

theorem Behind.mono (hb : inst.Behind log)
    (h : log.store.getSnapshotSeq ≤ log'.store.getSnapshotSeq) : inst.Behind log' where
  read c n hc := (hb.read c n hc).trans h
  cut c n hc := (hb.cut c n hc).trans h

/-- A run that sets the baseline does not move it back. -/
def advances (log : BoardLog) (inst : Instance) : Action → Bool
  | .compact c .setSnapshot =>
    match inst.compactions c with
    | some (.settingSnapshot cut) => decide (log.store.getSnapshotSeq ≤ cut)
    | _ => true
  | _ => true

theorem le_of_advances {c cut : ℕ} (h : inst.advances log (.compact c .setSnapshot))
    (hphase : inst.compactions c = some (.settingSnapshot cut)) :
    log.store.getSnapshotSeq ≤ cut := by
  simpa [advances, hphase] using h

theorem Step.snapshot_le (h : Step cfg log inst a log' inst') (hg : inst.Grounded log)
    (hadvances : inst.advances log a) :
    log.store.getSnapshotSeq ≤ log'.store.getSnapshotSeq := by
  cases h.effect with
  | setSnapshot c cut hphase =>
    have hrow := hg.underway c _ hphase rfl
    rw [BoardLog.mapStore, BoardStore.getSnapshotSeq_setSnapshot hrow]
    exact le_of_advances hadvances hphase
  | _ => exact le_rfl

theorem Behind.step (hb : inst.Behind log) (hg : inst.Grounded log)
    (h : Step cfg log inst a log' inst') (hadvances : inst.advances log a) :
    inst'.Behind log' := by
  have hle := h.snapshot_le hg hadvances
  refine ⟨fun c n hc ↦ ?_, fun c n hc ↦ ?_⟩ <;> have hmove := h.compactMove c <;>
    rw [hc] at hmove <;> generalize hold : inst.compactions c = old at hmove
  · cases hmove with
    | stay => exact (hb.read c n hold).trans hle
    | rest _ _ hrest => cases hrest
    | readSnapshotSeq => exact hle
    | readTail _ _ _ _ hphase => rcases hphase with ⟨-, h'⟩ | ⟨-, h'⟩ <;> cases h'
    | deleteRows _ _ hphase => rcases hphase with h' | h' <;> cases h'
  · cases hmove with
    | stay => exact (hb.cut c n hold).trans hle
    | rest _ _ hrest => cases hrest
    | readTail snapshotSeq cut _ _ hphase =>
      rcases hphase with ⟨-, h'⟩ | ⟨hcut, h'⟩ <;> cases h'
      -- a run that skips `setSnapshot` has a cut not above the baseline it read
      exact hcut.trans ((hb.read c _ hold).trans hle)
    | setSnapshot _ _ hlog =>
      have hrow := hg.underway c _ hold rfl
      rw [hlog, BoardLog.mapStore, BoardStore.getSnapshotSeq_setSnapshot hrow]
    | deleteRows _ _ hphase =>
      rcases hphase with h' | h' <;> cases h'
      exact (hb.cut c n hold).trans hle

end Instance

namespace World

variable {ι : Type*} {w w' : World ι}

/-- What joiners of a board with a baseline rely on. -/
structure BaselineSound (w : World ι) : Prop where
  /-- Every deleted row is covered by the baseline. -/
  pruned : ∀ k ∈ w.log.pruned, k.seq ≤ w.log.store.getSnapshotSeq
  /-- Every accepted stroke above the baseline is a row or not persisted yet. -/
  hole : ∀ k ∈ w.log.accepted, w.log.store.getSnapshotSeq < k.seq →
    k ∈ w.log.store.strokes ∨ ∃ i p, k ∈ (w.insts i).held p

/-- Appends take fresh numbers, and a run that sets the baseline does not move it back. -/
def Advancing (w : World ι) (a : ι × Action) : Prop :=
  w.FreshAppend a ∧ (w.insts a.1).advances w.log a.2

instance (w : World ι) (a : ι × Action) : Decidable (w.Advancing a) :=
  inferInstanceAs (Decidable (_ ∧ _))

/-- What keeps the baseline sound. -/
structure Covered (w : World ι) : Prop where
  accounted : w.Accounted
  grounded : ∀ i, (w.insts i).Grounded w.log
  behind : ∀ i, (w.insts i).Behind w.log
  pruned : ∀ k ∈ w.log.pruned, k.seq ≤ w.log.store.getSnapshotSeq

theorem Covered.of_init (h : w.init) : w.Covered := by
  have hfresh : ∀ i, w.insts i = {} := h.2.2
  refine ⟨.of_init h, fun i ↦ ?_, fun i ↦ ?_, fun k hk ↦ ?_⟩
  · rw [hfresh]
    exact Instance.grounded_fresh _
  · rw [hfresh]
    exact Instance.behind_fresh _
  · rw [h.2.1] at hk
    cases hk

theorem Covered.sound (hw : w.Covered) : w.BaselineSound := by
  refine ⟨hw.pruned, fun k hk hlt ↦ ?_⟩
  rcases hw.accounted.sound.accounted k hk with (hrow | hpruned) | ⟨⟨i, p⟩, hheld⟩
  · exact Or.inl hrow
  · exact absurd hlt (not_lt.mpr (hw.pruned k hpruned))
  · exact Or.inr ⟨i, p, hheld⟩

variable [DecidableEq ι] {cfg : ι → Config}

/-- **A step that advances keeps the baseline covering, and does not move it back.** -/
theorem Covered.step (hw : w.Covered) {a : ι × Action} (hok : w.Advancing a)
    (h : w.step cfg a = some w') :
    w.log.store.getSnapshotSeq ≤ w'.log.store.getSnapshotSeq ∧ w'.Covered := by
  have haccounted := hw.accounted.step (i := a.1) hok.1 h
  obtain ⟨i, a⟩ := a
  obtain ⟨log, inst, hs, rfl⟩ := step_eq_some.mp h
  have hstep := Instance.Step.of_step hs
  have hle := hstep.snapshot_le (hw.grounded i) hok.2
  refine ⟨hle, haccounted, fun j ↦ ?_, fun j ↦ ?_, fun k hk ↦ ?_⟩
  · rcases eq_or_ne j i with rfl | hij
    · rw [put_insts_self]
      exact (hw.grounded j).step hstep
    · rw [put_insts_of_ne w hij]
      exact (hw.grounded j).mono hstep.effect.boardRow
  · rcases eq_or_ne j i with rfl | hij
    · rw [put_insts_self]
      exact (hw.behind j).step (hw.grounded j) hstep hok.2
    · rw [put_insts_of_ne w hij]
      exact (hw.behind j).mono hle
  · rw [put_log] at hk ⊢
    cases hstep.effect with
    | prune c cut victims hphase hdeletable =>
      rcases List.mem_append.mp hk with hk | hk
      · exact hw.pruned k hk
      · -- a deleted row is at or below the cut, which `setSnapshot` has made the baseline
        have hvictim := (BoardStore.mem_deletedRows.mp hk).2
        exact (hdeletable.le hvictim).trans ((hw.behind i).cut c cut hphase)
    | _ => exact (hw.pruned k hk).trans hle

/-- **The baseline never moves back and always covers what was deleted**, in every run whose steps
advance. -/
theorem baseline_sound (h : (machine cfg).Reaches Advancing w)
    (hs : (machine cfg).Steps Advancing w w') :
    w.log.store.getSnapshotSeq ≤ w'.log.store.getSnapshotSeq ∧ w'.BaselineSound := by
  have hw : w.Covered := h.invariant (fun _ hi ↦ .of_init hi) fun _ _ _ hu ha hs ↦ (hu.step ha hs).2
  have hafter := hs.invariant
    (P := fun u ↦ w.log.store.getSnapshotSeq ≤ u.log.store.getSnapshotSeq ∧ u.Covered)
    ⟨le_rfl, hw⟩ fun u a v hu ha hv ↦
      let ⟨hle, hcovered⟩ := hu.2.step ha hv
      ⟨hu.1.trans hle, hcovered⟩
  exact ⟨hafter.1, hafter.2.sound⟩

/-! ## Runs over four rows -/

/-- A compaction runs to its end, and a batch is inserted on the way. -/
def uncrossedRun : List Action :=
  sampleRestore ++ [.resume "a" 5 0, .maybeCompact 0, .resume "" 0 1, .compact 0 .count,
    .compact 0 .proceed, .compact 0 .readSnapshotSeq, .compact 0 .readTail, .drain 0 .insert,
    .compact 0 .setSnapshot, .compact 0 (.deleteRows [1, 2, 3]), .compact 0 .finish]

theorem baseline_sound_uncrossedRun : ∃ w,
    (machine fun _ ↦ sampleConfig 1 2).exec (start Unit (sampleStoreOf 4))
      (overLone uncrossedRun) = some w ∧
    w.log.pruned.map PersistedStroke.seq = [1, 2, 3] ∧
    (start Unit (sampleStoreOf 4)).log.store.getSnapshotSeq ≤ w.log.store.getSnapshotSeq ∧
    w.BaselineSound := by
  obtain ⟨w, hw, hsteps⟩ := Machine.exists_of_guarded (start Unit (sampleStoreOf 4))
    (M := machine fun _ ↦ sampleConfig 1 2) (overLone uncrossedRun)
    (show Option.isSome (((machine fun _ ↦ sampleConfig 1 2).guarded Advancing).exec _ _) = true
      by decide)
  have hsound := baseline_sound (.init (init_start _)) hsteps
  cases hw
  exact ⟨_, rfl, rfl, hsound⟩

/-- Two compactions pass the guard together. The first computes its cut, the second computes a
higher one from the row that came in meanwhile, writes it and deletes. -/
def crossingRun : List Action :=
  sampleRestore ++ [.resume "a" 5 0, .maybeCompact 0, .maybeCompact 1, .resume "" 0 1,
    .resume "" 0 1, .compact 0 .count, .compact 1 .count, .compact 0 .proceed, .compact 1 .proceed,
    .compact 0 .readSnapshotSeq, .compact 0 .readTail, .drain 0 .insert,
    .compact 1 .readSnapshotSeq, .compact 1 .readTail, .compact 1 .setSnapshot,
    .compact 1 (.deleteRows [1, 2, 3, 4])]

/-- The first compaction then moves the baseline back, below a row already deleted. -/
theorem crossing_moves_back : ∃ w w',
    (machine fun _ ↦ sampleConfig 1 2).exec (start Unit (sampleStoreOf 4))
      (overLone crossingRun) = some w ∧
    w.step (fun _ ↦ sampleConfig 1 2) ((), .compact 0 .setSnapshot) = some w' ∧
    w'.log.store.getSnapshotSeq < w.log.store.getSnapshotSeq ∧
    ∃ k ∈ w'.log.pruned, w'.log.store.getSnapshotSeq < k.seq := by
  refine ⟨_, _, rfl, rfl, ?_⟩
  decide

end World

end Synapse
