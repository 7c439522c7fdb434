import Synapse.Stroke.Account

/-!
# What a flush guarantees

`flush` promises its caller that the board's strokes are stored once it resolves. It writes what
is in the buffer at that instant. A batch that an earlier drain captured is not in the buffer, and
nothing makes the flush wait for it, so the promise is kept exactly when those batches had been
written before the call (`BatchesWritten`).

The positive half follows the drain of the call from phase to phase: `Covers` says what it owes to
a list of strokes, and `Covers.step` is the step lemma. The negative half runs the drain to its end
while every other drain stands still.
-/

namespace Synapse

open Custody Keyed Transition

namespace World

variable {cfg : Config} {w w' : World Unit} {d : ℕ} {before : List PersistedStroke}

/-- Every batch in flight has been written. -/
def BatchesWritten (w : World Unit) : Prop :=
  ∀ e, ∀ k ∈ (w.insts ()).batch e, w.custody.Stored k

/-- Drain `d` has resolved. -/
def Resolved (w : World Unit) (d : ℕ) : Prop := (w.insts ()).drains d = some .resolved

instance (w : World Unit) (d : ℕ) : Decidable (w.Resolved d) :=
  inferInstanceAs (Decidable (_ = _))

/-- What a drain owes to the strokes `before`: they are stored or in its hands. -/
def Covers (w : World Unit) (before : List PersistedStroke) : Option DrainPhase → Prop
  | some (.inserting batch) | some (.inserted batch) | some (.touching batch) =>
    ∀ k ∈ before, w.custody.Stored k ∨ k ∈ batch
  | some .succeeded | some .resolved => ∀ k ∈ before, w.custody.Stored k
  | some .failed | some .rejected => True
  | none => False

theorem Covers.mono {phase : Option DrainPhase} (h : w.Covers before phase)
    (hstored : ∀ k, w.custody.Stored k → w'.custody.Stored k) : w'.Covers before phase := by
  rcases phase with _ | _ | _ | _ | _ | _ | _ | _
  case none => exact h
  case some.failed | some.rejected => trivial
  case some.succeeded | some.resolved => exact fun k hk ↦ hstored k (h k hk)
  all_goals exact fun k hk ↦ (h k hk).imp_left (hstored k)

/-- **A step keeps what the drain owes.** -/
theorem Covers.step (hc : w.Covers before ((w.insts ()).drains d)) (hw : w.Owned)
    {a : Unit × Action} (h : w.step (fun _ ↦ cfg) a = some w') :
    w'.Covers before ((w'.insts ()).drains d) := by
  obtain ⟨⟨⟩, a⟩ := a
  have hstored : ∀ k, w.custody.Stored k → w'.custody.Stored k :=
    fun k hk ↦ (hw.moves h).stored hk
  obtain ⟨log, inst, hstep, rfl⟩ := step_eq_some.mp h
  have hmove := (Instance.Step.of_step hstep).drainMove d
  have hwritten := hw.accounted.written () d
  rw [put_insts_self]
  unfold Instance.Written at hwritten
  generalize (w.insts ()).drains d = old, inst.drains d = new at hmove hc hwritten
  cases hmove with
  | stay => exact hc.mono hstored
  -- a number is used for one drain only
  | start => exact hc.elim
  | insert | insertResolves => exact fun k hk ↦ (hc k hk).imp_left (hstored k)
  | touchResolves batch =>
    intro k hk
    rcases hc k hk with hs | hb
    · exact hstored k hs
    · exact hstored k (hwritten batch (Or.inr rfl) k hb)
  | fail | reject => trivial
  | resolve => exact fun k hk ↦ hstored k (hc k hk)

theorem Covers.steps (hc : w.Covers before ((w.insts ()).drains d)) (hw : w.Owned)
    (h : (machine fun _ ↦ cfg).Steps Machine.anyStep w w') :
    w'.Covers before ((w'.insts ()).drains d) := by
  have hinv := h.invariant
    (P := fun u ↦ u.Owned ∧ u.Covers before ((u.insts ()).drains d)) ⟨hw, hc⟩
    fun u a v hu _ hs ↦ ⟨hu.1.step hs, hu.2.step hu.1 hs⟩
  exact hinv.2

/-- The call of `flush`. -/
def flush (w : World Unit) (d : ℕ) : World Unit := w.put () (w.log, (w.insts ()).flush d)

theorem step_flush_eq_some :
    w.step (fun _ ↦ cfg) ((), .flush d) = some w' ↔
      (w.insts ()).drains d = none ∧ w' = w.flush d := by
  rw [step_eq_some]
  simp only [Instance.step, Option.ite_none_right_eq_some, Option.some_inj, Prod.mk.injEq]
  constructor
  · rintro ⟨_, _, ⟨hidle, rfl, rfl⟩, rfl⟩
    exact ⟨hidle, rfl⟩
  · rintro ⟨hidle, rfl⟩
    exact ⟨_, _, ⟨hidle, rfl, rfl⟩, rfl⟩

theorem stored_flush {k : PersistedStroke} :
    (w.flush d).custody.Stored k ↔ w.custody.Stored k := Iff.rfl

theorem drains_flush : ∃ phase, ((w.flush d).insts ()).drains d = some phase ∧
    Instance.startPhase (w.insts ()).buffer phase := by
  refine ⟨_, ?_, Instance.startPhase_flushPhase⟩
  rw [flush, put_insts_self, Instance.drains_flush, if_pos rfl]

theorem stored_or_buffered (hw : w.Accounted) (hbatches : w.BatchesWritten) {k : PersistedStroke}
    (hk : k ∈ w.log.accepted) : w.custody.Stored k ∨ k ∈ (w.insts ()).buffer := by
  rcases hw.sound.accounted k hk with hs | ⟨⟨⟨⟩, p⟩, hp⟩
  · exact Or.inl hs
  · cases p with
    | none => exact Or.inr hp
    | some e => exact Or.inl (hbatches e k hp)

/-- At the call the drain covers everything accepted, if the other batches have been written. -/
theorem covers_flush (hw : w.Accounted) (hbatches : w.BatchesWritten) :
    (w.flush d).Covers w.log.accepted (((w.flush d).insts ()).drains d) := by
  obtain ⟨phase, hphase, hstart⟩ := drains_flush (w := w) (d := d)
  rw [hphase]
  cases phase with
  | inserting batch =>
    rw [show batch = (w.insts ()).buffer from hstart]
    exact fun k hk ↦ stored_or_buffered hw hbatches hk
  | succeeded | resolved =>
    intro k hk
    rcases stored_or_buffered hw hbatches hk with hs | hb
    · exact hs
    · rw [show (w.insts ()).buffer = [] from hstart] at hb
      cases hb
  | inserted | touching | failed | rejected => exact hstart.elim

/-- **A flush that resolves has stored what was accepted before it**, if the batches in flight at
the call had been written. -/
theorem stored_of_flush_resolved (hw : w.Owned)
    (hbatches : w.BatchesWritten)
    (hflush : w.step (fun _ ↦ cfg) ((), .flush d) = some w')
    {w'' : World Unit} (h : (machine fun _ ↦ cfg).Steps Machine.anyStep w' w'')
    (hresolved : w''.Resolved d) : ∀ k ∈ w.log.accepted, w''.custody.Stored k := by
  have hw' := hw.step hflush
  obtain ⟨-, rfl⟩ := step_flush_eq_some.mp hflush
  have hc := (covers_flush hw.accounted hbatches).steps hw' h
  rw [hresolved] at hc
  exact hc

/-! ## The flush alone -/

theorem steps_drain {r : DrainAction} {res : BoardLog × Instance}
    (h : (w.insts ()).drainStep cfg w.log d r = some res) :
    (machine fun _ ↦ cfg).Steps Machine.anyStep w (w.put () res) := by
  have hstep : w.step (fun _ ↦ cfg) ((), .drain d r) = some (w.put () res) :=
    step_eq_some.mpr ⟨res.1, res.2, h, rfl⟩
  exact .single trivial hstep

theorem drains_put_setDrain {log : BoardLog} {inst : Instance} {phase : DrainPhase} :
    ((w.put () (log, inst.setDrain d phase)).insts ()).drains d = some phase := by
  rw [put_insts_self, Instance.drains_setDrain, if_pos rfl]

theorem exists_resolved_of_succeeded (cfg : Config)
    (hphase : (w.insts ()).drains d = some .succeeded) :
    ∃ w', (machine fun _ ↦ cfg).Steps Machine.anyStep w w' ∧ w'.Resolved d ∧ w'.log = w.log := by
  have hstep : (w.insts ()).drainStep cfg w.log d .resolve = some (w.log,
      ((w.insts ()).setBoard (w.insts ()).board.markPersisted).setDrain d .resolved) := by
    simp [Instance.drainStep, hphase]
  exact ⟨_, steps_drain hstep, drains_put_setDrain, rfl⟩

theorem exists_resolved_of_inserted (cfg : Config) {batch : List PersistedStroke}
    (hphase : (w.insts ()).drains d = some (.inserted batch)) :
    ∃ w', (machine fun _ ↦ cfg).Steps Machine.anyStep w w' ∧ w'.Resolved d ∧ w'.log = w.log := by
  have hstep : (w.insts ()).drainStep cfg w.log d .insertResolves
      = some (w.log, (w.insts ()).setDrain d (.touching batch)) := by
    simp [Instance.drainStep, hphase]
  set u := w.put () (w.log, (w.insts ()).setDrain d (.touching batch)) with hu
  have htouching : (u.insts ()).drains d = some (.touching batch) := drains_put_setDrain
  have hstep' : (u.insts ()).drainStep cfg u.log d .touchResolves
      = some (u.log, (u.insts ()).setDrain d .succeeded) := by
    simp [Instance.drainStep, htouching]
  obtain ⟨w', hsteps, hresolved, hlog⟩ := exists_resolved_of_succeeded cfg
    (drains_put_setDrain (w := u))
  exact ⟨w', (steps_drain hstep).trans ((steps_drain hstep').trans hsteps), hresolved, hlog⟩

/-- A drain that has just started can run to its end with nothing else happening; then nothing
but its batch is stored that was not. -/
theorem exists_resolved_of_start (cfg : Config) {phase : DrainPhase}
    {batch : List PersistedStroke}
    (hphase : (w.insts ()).drains d = some phase) (hstart : Instance.startPhase batch phase) :
    ∃ w', (machine fun _ ↦ cfg).Steps Machine.anyStep w w' ∧ w'.Resolved d ∧
      ∀ k, w'.custody.Stored k → w.custody.Stored k ∨ k ∈ batch := by
  cases phase with
  | resolved => exact ⟨w, .refl, hphase, fun k hk ↦ Or.inl hk⟩
  | succeeded =>
    obtain ⟨w', h, hresolved, hlog⟩ := exists_resolved_of_succeeded cfg hphase
    refine ⟨w', h, hresolved, fun k hk ↦ Or.inl ?_⟩
    rwa [State.Stored, custody, hlog] at hk
  | inserting b =>
    rw [show b = batch from hstart] at hphase
    have hstep : (w.insts ()).drainStep cfg w.log d .insert
        = some (w.log.mapStore (·.insertBatch batch),
          (w.insts ()).setDrain d (.inserted batch)) := by
      simp [Instance.drainStep, hphase]
    obtain ⟨w', hsteps, hresolved, hlog⟩ :=
      exists_resolved_of_inserted cfg (drains_put_setDrain (w := w))
    refine ⟨w', (steps_drain hstep).trans hsteps, hresolved, fun k hk ↦ ?_⟩
    rw [State.Stored, custody, hlog, put_log, BoardLog.mapStore,
      BoardStore.insertBatch_strokes] at hk
    rcases hk with hk | hk
    · exact (Table.mem_or_mem_of_mem_insertAll hk).imp_left Or.inl
    · exact Or.inl (Or.inr hk)
  | inserted | touching | failed | rejected => exact hstart.elim

theorem batchesWritten_of_stored (hw : w.Accounted)
    (hflush : w.step (fun _ ↦ cfg) ((), .flush d) = some w')
    (h : ∀ w'', (machine fun _ ↦ cfg).Steps Machine.anyStep w' w'' → w''.Resolved d →
      ∀ k ∈ w.log.accepted, w''.custody.Stored k) : w.BatchesWritten := by
  obtain ⟨hidle, rfl⟩ := step_flush_eq_some.mp hflush
  obtain ⟨phase, hphase, hstart⟩ := drains_flush (w := w) (d := d)
  obtain ⟨w'', hsteps, hresolved, hstored⟩ := exists_resolved_of_start cfg hphase hstart
  intro e k hk
  have haccepted := hw.sound.accepted_of_held ((), some e) k hk
  rcases hstored k (h w'' hsteps hresolved k haccepted) with hs | hb
  · exact hs
  · exact absurd hk (hw.not_mem_batch hb e)

end World

end Synapse
