import Synapse.Custody.Basic
import Synapse.Stroke.Restore

/-!
# The account of the strokes

The buffers and the drains of all instances are the places of a `Custody.State`, and the rows of
`strokes` its table. Every step is a few custody moves, so what custody guarantees holds of the
service: no stroke is lost, and none is held twice.

## The two premises

Custody asks that a stroke be accepted under a number not accepted before (`FreshAppend`), and that
a place let go of stored strokes only. The second is an invariant, `Accounted.written`: a batch
whose `insertBatch` has taken effect is stored, whatever happens to `touch` afterwards. The first is
a premise as long as several instances share a board, and a theorem for a lone instance.
-/

namespace Synapse

open Custody Keyed Transition

namespace Instance

variable {cfg : Config} {log log' : BoardLog} {inst inst' : Instance} {a : Action} {d : ℕ}
  {batch : List PersistedStroke}

/-- Drain `d` has inserted `batch` and has not yet ended. -/
def Written (inst : Instance) (d : ℕ) (batch : List PersistedStroke) : Prop :=
  inst.drains d = some (.inserted batch) ∨ inst.drains d = some (.touching batch)

theorem Written.batch_eq (h : inst.Written d batch) : inst.batch d = batch := by
  rcases h with h | h <;> exact Instance.batch_eq h

theorem Step.written (h : Step cfg log inst a log' inst') (hw : inst'.Written d batch) :
    inst.Written d batch ∨
      (inst.drains d = some (.inserting batch) ∧ log' = log.mapStore (·.insertBatch batch)) := by
  have hmove := h.drainMove d
  unfold Written at hw ⊢
  generalize inst.drains d = old, inst'.drains d = new at hmove hw
  cases hmove with
  | stay => exact Or.inl hw
  | start phase b _ hphase =>
    rcases hw with hw | hw <;> cases hw <;> cases hphase
  | insert b hlog =>
    rcases hw with hw | hw <;> cases hw
    exact Or.inr ⟨rfl, hlog⟩
  | insertResolves b =>
    rcases hw with hw | hw <;> cases hw
    exact Or.inl (Or.inl rfl)
  | touchResolves | fail | resolve | reject => rcases hw with hw | hw <;> cases hw

end Instance

namespace World

variable {ι : Type*} {w w' : World ι} {i : ι} {a : Action}

/-- The strokes of the world, place by place. -/
def custody (w : World ι) : State (ι × Option ℕ) PersistedStroke.seq where
  accepted := w.log.accepted
  held p := (w.insts p.1).held p.2
  table := w.log.store.strokes
  pruned := w.log.pruned

/-- Every stroke is accounted for, and what has been written is stored. -/
structure Accounted (w : World ι) : Prop where
  sound : w.custody.Sound
  written : ∀ i d batch, (w.insts i).Written d batch → ∀ k ∈ batch, w.custody.Stored k

theorem Accounted.not_mem_batch (hw : w.Accounted) {k : PersistedStroke}
    (hk : k ∈ (w.insts i).buffer) (d : ℕ) : k ∉ (w.insts i).batch d := by
  intro hbatch
  have := hw.sound.held_unique (i, none) (i, some d) k hk hbatch
  cases this

theorem Accounted.of_init (h : w.init) : w.Accounted := by
  obtain ⟨haccepted, hpruned, hfresh⟩ := h
  have hheld : ∀ p, w.custody.held p = [] := by
    rintro ⟨i, p⟩
    have : w.custody.held (i, p) = (w.insts i).held p := rfl
    rw [this, hfresh]
    cases p <;> rfl
  refine ⟨⟨?_, ?_, ?_, ?_, ?_, ?_⟩, ?_⟩
  · rw [custody, haccepted]
    exact w.log.store.strokes.nodup_keys
  · simp [hheld]
  · rintro k (hk | hk)
    · rw [custody, haccepted]
      exact hk
    · rw [custody, hpruned] at hk
      exact absurd hk List.not_mem_nil
  · simp [hheld]
  · simp [hheld]
  · intro k hk
    rw [custody, haccepted] at hk
    exact Or.inl (Or.inl hk)
  · intro i d batch hwritten
    rw [hfresh] at hwritten
    rcases hwritten with h | h <;> cases h

variable [DecidableEq ι]

/-- What the places hold when instance `i` holds `h`. -/
def heldWith (w : World ι) (i : ι) (h : Option ℕ → List PersistedStroke) :
    ι × Option ℕ → List PersistedStroke :=
  fun p ↦ if p.1 = i then h p.2 else (w.insts p.1).held p.2

theorem heldWith_self : w.heldWith i (w.insts i).held = w.custody.held := by
  funext p
  by_cases h : p.1 = i
  · subst h
    exact if_pos rfl
  · exact if_neg h

theorem heldWith_update (h : Option ℕ → List PersistedStroke) (p : Option ℕ)
    (xs : List PersistedStroke) : w.heldWith i (Function.update h p xs)
      = Function.update (w.heldWith i h) (i, p) xs := by
  funext q
  rw [Function.update_apply, heldWith, heldWith]
  by_cases hq : q.1 = i
  · simp [hq, Function.update_apply, Prod.ext_iff]
  · simp [hq, Prod.ext_iff]

theorem custody_put (log : BoardLog) (inst : Instance) : (w.put i (log, inst)).custody
    = ⟨log.accepted, w.heldWith i inst.held, log.store.strokes, log.pruned⟩ := by
  refine State.ext rfl (funext fun p ↦ ?_) rfl rfl
  by_cases h : p.1 = i
  · simp [custody, heldWith, h]
  · simp [custody, heldWith, h, put_insts_of_ne w h]

/-- The number about to be assigned has not been accepted before. -/
def FreshAppend (w : World ι) (a : ι × Action) : Prop :=
  (w.insts a.1).accepts a.2 → ∀ k ∈ w.log.accepted, k.seq ≠ (w.insts a.1).board.nextSeq

instance (w : World ι) (a : ι × Action) : Decidable (w.FreshAppend a) :=
  inferInstanceAs (Decidable (_ → _))

/-- **A step is made of custody moves.** -/
theorem moves_of_effect {cfg : Config} {log : BoardLog} {inst : Instance} (hw : w.Accounted)
    (hfresh : w.FreshAppend (i, a)) (h : Instance.Effect cfg w.log (w.insts i) a log inst) :
    Moves w.custody (w.put i (log, inst)).custody := by
  rw [custody_put]
  cases h with
  | quiet hheld | ensure hheld | setSnapshot _ _ _ hheld =>
    rw [hheld, heldWith_self]
    exact .refl
  | accept k hseq hready hheld =>
    rw [hheld, heldWith_update, heldWith_self]
    exact .single (.accept w.custody (i, none) k (hseq ▸ hfresh hready))
  | capture d hidle _ hheld =>
    have hempty : w.custody.held (i, some d) = [] := Instance.batch_of_idle hidle
    have hmove := Move.handOver w.custody (i, none) (i, some d) (by simp)
    rw [State.handOver, hempty, List.append_nil] at hmove
    rw [hheld, heldWith_update, heldWith_update, heldWith_self]
    exact .single hmove
  | @acceptCapture _ _ d _ k hseq hready hidle _ hheld =>
    -- the stroke that fills the batch enters the buffer before the buffer is captured
    have haccept := Move.accept w.custody (i, none) k (hseq ▸ hfresh hready)
    have hempty : (w.custody.accept (i, none) k).held (i, some d) = [] := by
      rw [State.held_accept, if_neg (by simp)]
      exact Instance.batch_of_idle hidle
    have hmove := Move.handOver (w.custody.accept (i, none) k) (i, none) (i, some d) (by simp)
    rw [State.handOver, hempty, List.append_nil, State.held_accept, if_pos rfl, State.accept,
      Function.update_comm (by simp), Function.update_idem, Function.update_comm (by simp)] at hmove
    rw [hheld, heldWith_update, heldWith_update, heldWith_self]
    exact .tail (.single haccept) hmove
  | insert d _ hheld =>
    rw [hheld, heldWith_self, BoardLog.mapStore, BoardStore.insertBatch_strokes]
    exact .single (.commit w.custody (i, some d))
  | release d hphase hheld =>
    -- only a drain whose `touch` resolves lets go, and its batch is written by then
    rw [hheld, heldWith_update, heldWith_self]
    exact .single (.release w.custody (i, some d) (hw.written i d _ (Or.inr hphase)))
  | rebuffer d hheld =>
    rw [hheld, heldWith_update, heldWith_update, heldWith_self]
    exact .single (.handOver w.custody (i, some d) (i, none) (by simp))
  | prune c cut victims _ _ hheld =>
    rw [hheld, heldWith_self]
    exact .single (.prune w.custody fun k ↦ decide (k.seq ∈ victims))

theorem moves_of_step {cfg : ι → Config} (hw : w.Accounted) (hfresh : w.FreshAppend (i, a))
    (h : w.step cfg (i, a) = some w') : Moves w.custody w'.custody := by
  obtain ⟨log, inst, hstep, rfl⟩ := step_eq_some.mp h
  exact moves_of_effect hw hfresh (Instance.Step.of_step hstep).effect

theorem Accounted.step {cfg : ι → Config} (hw : w.Accounted) (hfresh : w.FreshAppend (i, a))
    (h : w.step cfg (i, a) = some w') : w'.Accounted := by
  have hmoves := moves_of_step hw hfresh h
  refine ⟨hmoves.sound hw.sound, fun j d batch hwritten k hk ↦ ?_⟩
  obtain ⟨log, inst, hstep, rfl⟩ := step_eq_some.mp h
  by_cases hj : j = i
  · subst hj
    rw [put_insts_self] at hwritten
    rcases (Instance.Step.of_step hstep).written hwritten with hbefore | ⟨hphase, hlog⟩
    · exact hmoves.stored (hw.written j d batch hbefore k hk)
    · have hheld : w.custody.held (j, some d) = batch := Instance.batch_eq hphase
      have hstored := hw.sound.stored_commit (hheld ▸ hk)
      rw [State.commit, hheld] at hstored
      rw [custody_put, hlog, BoardLog.mapStore, BoardStore.insertBatch_strokes]
      exact hstored
  · rw [put_insts_of_ne w hj] at hwritten
    exact hmoves.stored (hw.written j d batch hwritten k hk)

/-- **The strokes are accounted for in every run whose appends are fresh.** -/
theorem Accounted.of_reaches {cfg : ι → Config} {ok : World ι → ι × Action → Prop}
    (h : (machine cfg).Reaches ok w) (hok : ∀ u a, ok u a → u.FreshAppend a) : w.Accounted :=
  h.invariant (fun _ hi ↦ .of_init hi) fun _ a _ hu ha hs ↦ hu.step (i := a.1) (hok _ a ha) hs

/-! ## A lone instance -/

section Lone

variable {cfg : Config} {w w' : World Unit}

theorem freshAppend_of_restored (h : (w.insts ()).Restored w.log) (a : Unit × Action) :
    w.FreshAppend a := by
  intro haccepts k hk
  by_cases hp : (w.insts ()).board.initPromise = some .fulfilled
  · exact ne_of_lt (h.fulfilled hp k hk)
  · rw [Instance.accepts_of_ready_nil (h.dormant hp).ready] at haccepts
    cases haccepts

/-- The strokes of a board that one instance has to itself are accounted for. -/
structure Owned (w : World Unit) : Prop where
  accounted : w.Accounted
  restored : (w.insts ()).Restored w.log

theorem Owned.of_init (h : w.init) : w.Owned := by
  refine ⟨.of_init h, ?_⟩
  rw [h.2.2]
  exact Instance.restored_fresh h.1

theorem Owned.moves (hw : w.Owned) {a : Unit × Action} (h : w.step (fun _ ↦ cfg) a = some w') :
    Moves w.custody w'.custody :=
  moves_of_step (i := a.1) hw.accounted (freshAppend_of_restored hw.restored a) h

theorem Owned.step (hw : w.Owned) {a : Unit × Action} (h : w.step (fun _ ↦ cfg) a = some w') :
    w'.Owned := by
  refine ⟨hw.accounted.step (freshAppend_of_restored hw.restored a) h, ?_⟩
  obtain ⟨log, inst, hstep, rfl⟩ := step_eq_some.mp h
  exact hw.restored.step (.of_step hstep)

/-- **The strokes of a lone instance are accounted for in every run.** -/
theorem Owned.of_reaches {ok : World Unit → Unit × Action → Prop}
    (h : (machine fun _ ↦ cfg).Reaches ok w) : w.Owned :=
  h.invariant (fun _ hi ↦ .of_init hi) fun _ _ _ hu _ hs ↦ hu.step hs

/-- What a lone instance has stored stays stored. -/
theorem Owned.stored_of_steps {ok : World Unit → Unit × Action → Prop} (hw : w.Owned)
    (h : (machine fun _ ↦ cfg).Steps ok w w') {k : PersistedStroke} (hk : w.custody.Stored k) :
    w'.custody.Stored k := by
  have hinv := h.invariant (P := fun u ↦ u.Owned ∧ u.custody.Stored k) ⟨hw, hk⟩
    fun u a v hu _ hs ↦ ⟨hu.1.step hs, (hu.1.moves hs).stored hu.2⟩
  exact hinv.2

/-- Where the strokes of a lone instance are while no row is deleted. -/
structure Conserved (log : BoardLog) (inst : Instance) : Prop where
  /-- Every accepted stroke is in the store, in the buffer or in exactly one batch. -/
  somewhere : ∀ k ∈ log.accepted,
    k ∈ log.store.strokes ∨ k ∈ inst.buffer ∨ ∃! d, k ∈ inst.batch d
  /-- No stroke is in two batches. -/
  batches : ∀ d e, ∀ k ∈ inst.batch d, k ∈ inst.batch e → d = e
  /-- No stroke is both in the buffer and in a batch. -/
  buffer : ∀ d, ∀ k ∈ inst.buffer, k ∉ inst.batch d
  /-- No stroke is twice in one place. -/
  nodup : inst.buffer.Nodup ∧ ∀ d, (inst.batch d).Nodup
  /-- The store holds at most one row per Sequence_Number. -/
  rows : (log.store.strokes.rows.map PersistedStroke.seq).Nodup
  /-- A row with the number of an accepted stroke is that stroke. -/
  faithful : ∀ r ∈ log.store.strokes, ∀ k ∈ log.accepted, r.seq = k.seq → r = k

theorem Accounted.conserved (hw : w.Accounted) (hpruned : w.log.pruned = []) :
    Conserved w.log (w.insts ()) := by
  have hs := hw.sound
  have hstored : ∀ k, w.custody.Stored k → k ∈ w.log.store.strokes := by
    rintro k (hk | hk)
    · exact hk
    · have : k ∈ w.log.pruned := hk
      rw [hpruned] at this
      cases this
  have hunique : ∀ p q, ∀ k ∈ (w.insts ()).held p, k ∈ (w.insts ()).held q → p = q := by
    intro p q k hp hq
    have := hs.held_unique ((), p) ((), q) k hp hq
    exact (Prod.ext_iff.mp this).2
  refine ⟨fun k hk ↦ ?_, fun d e k hd he ↦ ?_, fun d k hb hd ↦ ?_, ⟨?_, fun d ↦ ?_⟩, ?_, ?_⟩
  · rcases hs.accounted k hk with hk | ⟨⟨⟨⟩, p⟩, hp⟩
    · exact Or.inl (hstored k hk)
    · cases p with
      | none => exact Or.inr (Or.inl hp)
      | some d =>
        refine Or.inr (Or.inr ⟨d, hp, fun e he ↦ ?_⟩)
        exact Option.some_inj.mp (hunique (some e) (some d) k he hp)
  · exact Option.some_inj.mp (hunique (some d) (some e) k hd he)
  · exact hw.not_mem_batch hb d hd
  · exact hs.held_nodup ((), none)
  · exact hs.held_nodup ((), some d)
  · exact w.log.store.strokes.nodup_keys
  · intro r hr k hk hseq
    exact hs.eq_of_key_eq (hs.accepted_of_stored r (Or.inl hr)) hk hseq

theorem pruned_step {a : Unit × Action} (ha : a.2.prunes = false)
    (h : w.step (fun _ ↦ cfg) a = some w') : w'.log.pruned = w.log.pruned := by
  obtain ⟨i, a⟩ := a
  obtain ⟨log, inst, hstep, rfl⟩ := step_eq_some.mp h
  rcases (Instance.Step.of_step hstep).effect with _ | _ | _ | _ | _ | _ | _ | _ | _ | _
  case prune => cases ha
  all_goals rfl

/-- **No accepted stroke is lost or duplicated by the write-behind buffer.** -/
theorem conserved_of_reaches
    (h : (machine fun _ ↦ cfg).Reaches (fun _ a ↦ a.2.prunes = false) w) :
    Conserved w.log (w.insts ()) := by
  have hpruned : w.log.pruned = [] :=
    h.invariant (fun w hi ↦ hi.2.1) fun u a v hu ha hs ↦ (pruned_step ha hs).trans hu
  exact (Owned.of_reaches h).accounted.conserved hpruned

/-- Two strokes fill a batch, whose `touch` fails after the insertion; the retry inserts it again
with a third stroke that came in meanwhile. -/
def retryRun : List Action :=
  sampleRestore ++ [.resume "a" 5 0, .append 1 "ada" sampleSegment, .resume "b" 6 0,
    .drain 0 .insert, .drain 0 .insertResolves, .append 2 "ada" sampleSegment, .resume "c" 7 1,
    .drain 0 .fail, .drain 0 .reject, .retryFires 1, .drain 1 .insert]

theorem conserved_after_retryRun : ∃ w,
    (machine fun _ ↦ sampleConfig 2 9).exec (start Unit sampleStore) (overLone retryRun) = some w ∧
      Conserved w.log (w.insts ()) := by
  obtain ⟨w, hw, hsteps⟩ := Machine.exists_of_guarded (start Unit sampleStore)
    (M := machine fun _ ↦ sampleConfig 2 9) (overLone retryRun)
    (show Option.isSome (((machine fun _ ↦ sampleConfig 2 9).guarded
      fun _ a ↦ a.2.prunes = false).exec _ _) = true by decide)
  exact ⟨w, hw, conserved_of_reaches ⟨_, init_start _, hsteps⟩⟩

end Lone

end World

end Synapse
