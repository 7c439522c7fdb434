import Synapse.Stroke.Flush

/-!
# One service, all boards

A `StrokeService` keeps an entry of `boards` for every board it has been asked about. The boards do
not share anything: each is a lone instance over its own rows, and the service as a whole is their
product. The one operation that looks at all of them is `flushAll`, which takes the ids known at
the call, flushes each, and resolves when every one of these flushes has resolved.

`StrokeService.steps_boards` projects a run of the service to a run of one board and
`StrokeService.exists_steps_board` lifts a run of one board to the service, so the statements about
the service are the statements about its boards.
-/

namespace Synapse

open Transition

/-- One instance of the service, with the rows of every board. -/
structure StrokeService where
  boards : String → World Unit
  /-- The keys of `boards`, in insertion order. -/
  known : List String
  /-- The ids each call of `flushAll` took; call `f` flushes them under the number `f`. -/
  flushAlls : ℕ → Option (List String)

inductive ServiceAction
  | board (b : String) (a : Action)
  | flushAll (f : ℕ)
  deriving DecidableEq

namespace StrokeService

variable (cfg : Config) (s : StrokeService)

/-- What the service keeps for a board. -/
def entry (b : String) : Instance := (s.boards b).insts ()

def log (b : String) : BoardLog := (s.boards b).log

/-- Replaces a board and records its entry once it has one. -/
def setBoard (b : String) (w : World Unit) : StrokeService :=
  { s with
    boards := Function.update s.boards b w
    known := if b ∈ s.known ∨ (w.insts ()).state = none then s.known else s.known ++ [b] }

/-- `flushAll`, up to its `await`: takes the ids and flushes each. -/
def flushAll (f : ℕ) : StrokeService :=
  { s with
    boards := fun b ↦ if b ∈ s.known then (s.boards b).flush f else s.boards b
    flushAlls := Function.update s.flushAlls f (some s.known) }

def step : ServiceAction → Option StrokeService
  | .board b a => ((s.boards b).step (fun _ ↦ cfg) ((), a)).map (s.setBoard b)
  | .flushAll f =>
    if s.flushAlls f = none ∧ ∀ b ∈ s.known, (s.entry b).drains f = none then some (s.flushAll f)
    else none

/-- The service at start-up, over any rows. -/
def init : Prop :=
  (∀ b, (s.boards b).init ∧ (s.log b).store.boardId = b) ∧ s.known = [] ∧ s.flushAlls = fun _ ↦ none

def machine : Machine StrokeService ServiceAction := ⟨init, step cfg⟩

/-- The call `f` of `flushAll` has resolved without error. -/
def FlushAllResolved (f : ℕ) : Prop :=
  ∃ ids, s.flushAlls f = some ids ∧ ∀ b ∈ ids, (s.boards b).Resolved f

variable {cfg s} {s' : StrokeService} {b : String} {f : ℕ}

theorem step_board_eq_some {a : Action} :
    s.step cfg (.board b a) = some s' ↔
      ∃ w, (s.boards b).step (fun _ ↦ cfg) ((), a) = some w ∧ s' = s.setBoard b w := by
  rw [step, Option.map_eq_some_iff]
  simp only [eq_comm]

theorem boards_flushAll (b : String) : (s.flushAll f).boards b
    = if b ∈ s.known then (s.boards b).flush f else s.boards b := rfl

theorem flushAlls_flushAll (g : ℕ) : (s.flushAll f).flushAlls g
    = if g = f then some s.known else s.flushAlls g :=
  Function.update_apply _ _ _ _

theorem step_flushAll_eq_some : s.step cfg (.flushAll f) = some s' ↔
    (s.flushAlls f = none ∧ ∀ b ∈ s.known, (s.entry b).drains f = none) ∧
      s' = s.flushAll f := by
  rw [step, Option.ite_none_right_eq_some, Option.some_inj, eq_comm (a := s')]

theorem setBoard_boards_self (w : World Unit) : (s.setBoard b w).boards b = w :=
  Function.update_self _ _ _

theorem setBoard_boards_of_ne {b' : String} (h : b' ≠ b) (w : World Unit) :
    (s.setBoard b w).boards b' = s.boards b' :=
  Function.update_of_ne h _ _

theorem entry_setBoard_self (w : World Unit) : (s.setBoard b w).entry b = w.insts () := by
  rw [entry, setBoard_boards_self]

theorem entry_setBoard_of_ne {b' : String} (h : b' ≠ b) (w : World Unit) :
    (s.setBoard b w).entry b' = s.entry b' := by
  rw [entry, setBoard_boards_of_ne h, entry]

/-! ## The boards of a run -/

/-- A step of the service is a step of each board, or leaves it alone. -/
theorem steps_boards_of_step {a : ServiceAction} (h : s.step cfg a = some s') (b : String) :
    (World.machine fun _ ↦ cfg).Steps Machine.anyStep (s.boards b) (s'.boards b) := by
  cases a with
  | board b' a =>
    obtain ⟨w, hw, rfl⟩ := step_board_eq_some.mp h
    by_cases hb : b = b'
    · subst hb
      rw [setBoard_boards_self]
      exact .single trivial hw
    · rw [setBoard_boards_of_ne hb]
      exact .refl
  | flushAll f =>
    obtain ⟨⟨-, hidle⟩, rfl⟩ := step_flushAll_eq_some.mp h
    rw [boards_flushAll]
    split_ifs with hb
    · exact .single trivial (World.step_flush_eq_some.mpr ⟨hidle b hb, rfl⟩)
    · exact .refl

theorem steps_boards {ok : StrokeService → ServiceAction → Prop}
    (h : (machine cfg).Steps ok s s') (b : String) :
    (World.machine fun _ ↦ cfg).Steps Machine.anyStep (s.boards b) (s'.boards b) :=
  h.simulate (f := fun s ↦ s.boards b) fun _ _ _ _ hstep ↦ steps_boards_of_step hstep b

theorem reaches_boards {ok : StrokeService → ServiceAction → Prop}
    (h : (machine cfg).Reaches ok s) (b : String) :
    (World.machine fun _ ↦ cfg).Reaches Machine.anyStep (s.boards b) :=
  let ⟨_, hinit, hsteps⟩ := h
  ⟨_, (hinit.1 b).1, steps_boards hsteps b⟩

theorem owned_of_reaches {ok : StrokeService → ServiceAction → Prop}
    (h : (machine cfg).Reaches ok s) (b : String) : (s.boards b).Owned :=
  .of_reaches (reaches_boards h b)

/-- A run of one board is a run of the service that leaves the others alone. -/
theorem exists_steps_board {w : World Unit}
    (h : (World.machine fun _ ↦ cfg).Steps Machine.anyStep (s.boards b) w) :
    ∃ s', (machine cfg).Steps Machine.anyStep s s' ∧ s'.boards = Function.update s.boards b w ∧
      s'.flushAlls = s.flushAlls := by
  induction h with
  | refl => exact ⟨s, .refl, (Function.update_eq_self b s.boards).symm, rfl⟩
  | @tail u v a _ _ hstep ih =>
    obtain ⟨t, hsteps, hboards, hflush⟩ := ih
    have hu : t.boards b = u := by rw [hboards, Function.update_self]
    have hservice : t.step cfg (.board b a.2) = some (t.setBoard b v) :=
      step_board_eq_some.mpr ⟨v, hu ▸ hstep, rfl⟩
    refine ⟨t.setBoard b v, hsteps.tail (a := .board b a.2) trivial hservice, ?_, hflush⟩
    rw [setBoard, hboards, Function.update_idem]

theorem state_of_not_known {ok : StrokeService → ServiceAction → Prop}
    (h : (machine cfg).Reaches ok s) : ∀ b ∉ s.known, (s.entry b).state = none := by
  refine h.invariant (P := fun s ↦ ∀ b ∉ s.known, (s.entry b).state = none)
    (fun s hs b _ ↦ ?_) fun s a s' hs _ hstep b hb ↦ ?_
  · rw [entry, (hs.1 b).1.2.2]
  · change s.step cfg a = some s' at hstep
    cases a with
    | board b' a =>
      obtain ⟨w, hw, rfl⟩ := step_board_eq_some.mp hstep
      by_cases hbb : b = b'
      · subst hbb
        rw [setBoard] at hb
        rw [entry, setBoard_boards_self]
        by_contra hstate
        split_ifs at hb with hknown
        · rcases hknown with hknown | hknown
          · exact hb hknown
          · exact hstate hknown
        · exact hb (by simp)
      · rw [entry, setBoard_boards_of_ne hbb]
        refine hs b fun hknown ↦ hb ?_
        rw [setBoard]
        split_ifs
        · exact hknown
        · exact List.mem_append_left _ hknown
    | flushAll f =>
      obtain ⟨-, rfl⟩ := step_flushAll_eq_some.mp hstep
      have hb' : b ∉ s.known := hb
      rw [entry, boards_flushAll, if_neg hb']
      exact hs b hb

/-! ## What `flushAll` guarantees -/

theorem flushAlls_of_steps {ids : List String} (h : (machine cfg).Steps Machine.anyStep s s')
    (hf : s.flushAlls f = some ids) : s'.flushAlls f = some ids := by
  refine h.invariant (P := fun u ↦ u.flushAlls f = some ids) hf fun u a v hu _ hstep ↦ ?_
  change u.step cfg a = some v at hstep
  cases a with
  | board b a =>
    obtain ⟨w, -, rfl⟩ := step_board_eq_some.mp hstep
    exact hu
  | flushAll g =>
    obtain ⟨⟨hg, -⟩, rfl⟩ := step_flushAll_eq_some.mp hstep
    have hne : f ≠ g := by
      rintro rfl
      simp [hu] at hg
    rw [flushAlls_flushAll, if_neg hne]
    exact hu

/-- **What `flushAll` has stored when it resolves**, if the batches in flight at the call had been
written. -/
theorem stored_of_flushAll_resolved {ok : StrokeService → ServiceAction → Prop}
    (hs : (machine cfg).Reaches ok s) (hbatches : ∀ b, (s.boards b).BatchesWritten)
    (hcall : s.step cfg (.flushAll f) = some s') {s'' : StrokeService}
    (h : (machine cfg).Steps Machine.anyStep s' s'') (hresolved : s''.FlushAllResolved f)
    (b : String) : ∀ k ∈ (s.log b).accepted, (s''.boards b).custody.Stored k := by
  obtain ⟨ids, hids, hall⟩ := hresolved
  have hw := owned_of_reaches hs b
  by_cases hb : b ∈ s.known
  · obtain ⟨⟨-, hidle⟩, rfl⟩ := step_flushAll_eq_some.mp hcall
    have hknown : ids = s.known := by
      have := flushAlls_of_steps h (by rw [flushAlls_flushAll, if_pos rfl])
      rw [hids] at this
      exact Option.some_inj.mp this
    have hsteps := steps_boards h b
    rw [boards_flushAll, if_pos hb] at hsteps
    exact World.stored_of_flush_resolved hw (hbatches b)
      (World.step_flush_eq_some.mpr ⟨hidle b hb, rfl⟩) hsteps (hall b (hknown ▸ hb))
  · -- `flushAll` does not flush a board it does not know, but such a board has buffered nothing
    intro k hk
    have hbuffer : (s.entry b).buffer = [] :=
      Instance.buffer_of_unseen (state_of_not_known hs b hb)
    have hstored : (s.boards b).custody.Stored k := by
      rcases World.stored_or_buffered hw.accounted (hbatches b) hk with hk | hk
      · exact hk
      · rw [show ((s.boards b).insts ()).buffer = [] from hbuffer] at hk
        cases hk
    exact hw.stored_of_steps ((steps_boards_of_step hcall b).trans (steps_boards h b)) hstored

/-- The flushes of any boards can resolve with nothing else happening; then nothing but what was in
their buffers is stored that was not. -/
theorem exists_all_resolved (cfg : Config) (buffers : String → List PersistedStroke)
    (ids : List String) (s : StrokeService)
    (hphase : ∀ b ∈ ids, ∃ phase, (s.entry b).drains f = some phase ∧
      Instance.startPhase (buffers b) phase) :
    ∃ s', (machine cfg).Steps Machine.anyStep s s' ∧ s'.flushAlls = s.flushAlls ∧
      (∀ b ∈ ids, (s'.boards b).Resolved f) ∧ (∀ b ∉ ids, s'.boards b = s.boards b) ∧
      ∀ b k, (s'.boards b).custody.Stored k → (s.boards b).custody.Stored k ∨ k ∈ buffers b := by
  induction ids generalizing s with
  | nil => exact ⟨s, .refl, rfl, by simp, fun _ _ ↦ rfl, fun _ _ hk ↦ Or.inl hk⟩
  | cons b ids ih =>
    by_cases hb : b ∈ ids
    · -- the flush of `b` is run when its last occurrence is reached
      obtain ⟨s', hsteps, hflush, hresolved, hframe, hstored⟩ :=
        ih s fun b' hb' ↦ hphase b' (List.mem_cons_of_mem _ hb')
      refine ⟨s', hsteps, hflush, fun b' hb' ↦ ?_, fun b' hb' ↦ ?_, hstored⟩
      · rcases List.mem_cons.mp hb' with rfl | hb'
        · exact hresolved b' hb
        · exact hresolved b' hb'
      · exact hframe b' fun h ↦ hb' (List.mem_cons_of_mem _ h)
    · obtain ⟨phase, hb_phase, hstart⟩ := hphase b List.mem_cons_self
      obtain ⟨w, hw, hresolved, hstored⟩ :=
        World.exists_resolved_of_start cfg hb_phase hstart
      obtain ⟨t, hsteps, hboards, hflush⟩ := exists_steps_board hw
      -- the other boards have not moved, so the induction goes on from `t`
      have hothers : ∀ b' ≠ b, t.boards b' = s.boards b' := fun b' hne ↦ by
        rw [hboards, Function.update_of_ne hne]
      have hself : t.boards b = w := by rw [hboards, Function.update_self]
      obtain ⟨s', hsteps', hflush', hresolved', hframe', hstored'⟩ := ih t fun b' hb' ↦ by
        have hne : b' ≠ b := fun h ↦ hb (h ▸ hb')
        rw [entry, hothers b' hne]
        exact hphase b' (List.mem_cons_of_mem _ hb')
      refine ⟨s', hsteps.trans hsteps', hflush'.trans hflush, fun b' hb' ↦ ?_, fun b' hb' ↦ ?_,
        fun b' k hk ↦ ?_⟩
      · rcases List.mem_cons.mp hb' with rfl | hb'
        · rw [hframe' b' hb, hself]
          exact hresolved
        · exact hresolved' b' hb'
      · rw [List.mem_cons, not_or] at hb'
        rw [hframe' b' hb'.2, hothers b' hb'.1]
      · rcases hstored' b' k hk with hk | hk
        · by_cases hbb : b' = b
          · subst hbb
            rw [hself] at hk
            exact hstored k hk
          · rw [hothers b' hbb] at hk
            exact Or.inl hk
        · exact Or.inr hk

theorem batchesWritten_of_stored {ok : StrokeService → ServiceAction → Prop}
    (hs : (machine cfg).Reaches ok s) (hcall : s.step cfg (.flushAll f) = some s')
    (h : ∀ s'', (machine cfg).Steps Machine.anyStep s' s'' → s''.FlushAllResolved f →
      ∀ b, ∀ k ∈ (s.log b).accepted, (s''.boards b).custody.Stored k) (b : String) :
    (s.boards b).BatchesWritten := by
  obtain ⟨-, rfl⟩ := step_flushAll_eq_some.mp hcall
  obtain ⟨s'', hsteps, hflush, hresolved, -, hstored⟩ := exists_all_resolved (f := f) cfg
    (fun b ↦ (s.entry b).buffer) s.known (s.flushAll f) fun b hb ↦ by
      rw [entry, boards_flushAll, if_pos hb]
      exact World.drains_flush
  intro e k hk
  have hw := (owned_of_reaches hs b).accounted
  have haccepted := hw.sound.accepted_of_held ((), some e) k hk
  have hall : s''.FlushAllResolved f :=
    ⟨s.known, by rw [hflush, flushAlls_flushAll, if_pos rfl], hresolved⟩
  rcases hstored b k (h s'' hsteps hall b k haccepted) with hk' | hk'
  · rw [boards_flushAll] at hk'
    split_ifs at hk' with hb
    · exact World.stored_flush.mp hk'
    · exact hk'
  · exact absurd hk (hw.not_mem_batch hk' e)

/-- The promise of `flush`: when call `d` resolves, in whatever order the rest happens, every stroke
accepted before it is stored. -/
def FlushKeeps (cfg : Config) (s : StrokeService) (b : String) (d : ℕ) : Prop :=
  ∀ s' s'', s.step cfg (.board b (.flush d)) = some s' →
    (machine cfg).Steps Machine.anyStep s' s'' → (s''.boards b).Resolved d →
    ∀ k ∈ (s.log b).accepted, (s''.boards b).custody.Stored k

/-- The promise of `flushAll`, of every board. -/
def FlushAllKeeps (cfg : Config) (s : StrokeService) (f : ℕ) : Prop :=
  ∀ s' s'', s.step cfg (.flushAll f) = some s' →
    (machine cfg).Steps Machine.anyStep s' s'' → s''.FlushAllResolved f →
    ∀ b, ∀ k ∈ (s.log b).accepted, (s''.boards b).custody.Stored k

theorem flushKeeps_iff {ok : StrokeService → ServiceAction → Prop}
    (hs : (machine cfg).Reaches ok s) {d : ℕ} (hidle : (s.entry b).drains d = none) :
    s.FlushKeeps cfg b d ↔ (s.boards b).BatchesWritten := by
  have hw := owned_of_reaches hs b
  constructor
  · intro h
    have hflush : (s.boards b).step (fun _ ↦ cfg) ((), .flush d) = some ((s.boards b).flush d) :=
      World.step_flush_eq_some.mpr ⟨hidle, rfl⟩
    refine World.batchesWritten_of_stored hw.accounted hflush fun w hsteps hresolved k hk ↦ ?_
    obtain ⟨s'', hsteps', hboards, -⟩ :=
      exists_steps_board (s := s.setBoard b ((s.boards b).flush d)) (b := b)
        (by rwa [setBoard_boards_self])
    have hself : s''.boards b = w := by rw [hboards, Function.update_self]
    rw [← hself] at hresolved ⊢
    exact h _ s'' (step_board_eq_some.mpr ⟨_, hflush, rfl⟩) hsteps' hresolved k hk
  · intro hbatches s' s'' hcall hsteps hresolved
    obtain ⟨w, hflush, rfl⟩ := step_board_eq_some.mp hcall
    have hsteps' := steps_boards hsteps b
    rw [setBoard_boards_self] at hsteps'
    exact World.stored_of_flush_resolved hw hbatches hflush hsteps' hresolved

theorem flushAllKeeps_iff {ok : StrokeService → ServiceAction → Prop}
    (hs : (machine cfg).Reaches ok s) (hf : s.flushAlls f = none)
    (hidle : ∀ b ∈ s.known, (s.entry b).drains f = none) :
    s.FlushAllKeeps cfg f ↔ ∀ b, (s.boards b).BatchesWritten := by
  constructor
  · intro h
    have hcall : s.step cfg (.flushAll f) = some (s.flushAll f) :=
      step_flushAll_eq_some.mpr ⟨⟨hf, hidle⟩, rfl⟩
    exact batchesWritten_of_stored hs hcall fun s'' ↦ h _ s'' hcall
  · intro hbatches s' s'' hcall hsteps hresolved b
    exact stored_of_flushAll_resolved hs hbatches hcall hsteps hresolved b

/-- **What a force-flush guarantees.** In every reachable state a call of `flush` keeps its promise
if and only if every batch in flight at the call has been written, and a call of `flushAll` if and
only if this holds of every board. -/
theorem forceFlush_keeps_iff (hs : (machine cfg).Reaches Machine.anyStep s) :
    (∀ b d, (s.entry b).drains d = none →
      (s.FlushKeeps cfg b d ↔ (s.boards b).BatchesWritten)) ∧
    ∀ f, s.flushAlls f = none → (∀ b ∈ s.known, (s.entry b).drains f = none) →
      (s.FlushAllKeeps cfg f ↔ ∀ b, (s.boards b).BatchesWritten) :=
  ⟨fun _ _ hidle ↦ flushKeeps_iff hs hidle, fun _ hf hidle ↦ flushAllKeeps_iff hs hf hidle⟩

/-! ## A flush that finds an empty buffer -/

/-- A service nobody has used, over the rows of `stores`. -/
def startOver (stores : String → BoardStore) : StrokeService where
  boards b := World.start Unit { stores b with boardId := b }
  known := []
  flushAlls _ := none

theorem init_startOver (stores : String → BoardStore) : (startOver stores).init :=
  ⟨fun _ ↦ ⟨World.init_start _, rfl⟩, rfl, rfl⟩

/-- A service nobody has used, over an empty database. -/
def start : StrokeService := startOver fun _ ↦ sampleStore

def onBoard (b : String) (as : List Action) : List ServiceAction := as.map (.board b)

/-- A stroke fills the batch, and the drain it starts waits for the database. -/
def fullBatchRun : List ServiceAction :=
  onBoard "board-1" (sampleRestore ++ [.resume "a" 5 0])

/-- The flush that follows finds the buffer empty and resolves at once. -/
theorem flush_resolves_before_insert : ∃ s s' s'' k,
    (machine (sampleConfig 1 9)).exec start fullBatchRun = some s ∧
      s.step (sampleConfig 1 9) (.board "board-1" (.flush 1)) = some s' ∧
      s'.step (sampleConfig 1 9) (.board "board-1" (.drain 1 .resolve)) = some s'' ∧
      (s''.boards "board-1").Resolved 1 ∧ k ∈ (s.log "board-1").accepted ∧
      ¬ (s''.boards "board-1").custody.Stored k := by
  refine ⟨_, _, _, ⟨sampleSegment, "a", 1, "ada", 5⟩, rfl, rfl, rfl, ?_⟩
  decide

theorem forceFlush_keeps_iff_fullBatchRun : ∃ s,
    (machine (sampleConfig 1 9)).exec start fullBatchRun = some s ∧
      (s.FlushKeeps (sampleConfig 1 9) "board-1" 1 ↔ (s.boards "board-1").BatchesWritten) := by
  obtain ⟨s, hexec, hsteps, hidle⟩ := Machine.exists_of_exec start fullBatchRun
    (M := machine (sampleConfig 1 9)) (p := fun s ↦ (s.entry "board-1").drains 1 = none) (by decide)
  exact ⟨s, hexec,
    (forceFlush_keeps_iff ⟨_, init_startOver _, hsteps⟩).1 _ _ (of_decide_eq_true hidle)⟩

end StrokeService

end Synapse
