import Synapse.Stroke.Restore

/-!
# The timers of a buffer

Two timers flush a board: the interval timer, armed by the first stroke that finds it unarmed, and
the backoff retry, armed by the failure handler of a drain. A buffer that holds strokes is never
left to neither: whatever cancels a timer empties the buffer in the same step, and a drain that puts
its batch back has its failure handler ahead of it (`Instance.Covered`).

## When the interval timer is due

`Timed` adds a clock to the world, and keeps when each interval timer is due and when each stroke
was accepted. A timer that is armed may have been armed by an earlier stroke, so it is due no later
than one interval from now. As long as no write fails, no stroke returns to a buffer, and the bound
that held at its acceptance holds until the buffer is emptied.
-/

namespace Synapse

open Transition

namespace Instance

/-- Something is going to flush the buffer. -/
def Covered (inst : Instance) : Prop :=
  inst.board.timer.isSome ∨ inst.board.retryTimer.isSome ∨ ∃ d, inst.drains d = some .failed

variable {cfg : Config} {log log' : BoardLog} {inst inst' : Instance} {a : Action}

/-! ## What a step does to the timers -/

/-- What a step does to the buffer and its timers. -/
inductive TimerMove (cfg : Config) (inst : Instance) (a : Action) (log log' : BoardLog)
    (inst' : Instance) : Prop
  | stay (hbuffer : inst'.buffer = inst.buffer) (htimer : inst'.board.timer = inst.board.timer)
      (hretry : inst'.board.retryTimer = inst.board.retryTimer)
      (hfailed : ∀ d, inst.drains d = some .failed → inst'.drains d = some .failed)
      (hlog : log'.accepted = log.accepted)
  /-- A stroke is buffered, and the interval timer is armed unless it is. -/
  | buffered (k : PersistedStroke) (hbuffer : inst'.buffer = inst.buffer ++ [k])
      (htimer : inst'.board.timer = inst.board.timer.or (some cfg.flushIntervalMs))
      (hlog : log'.accepted = log.accepted ++ [k])
  /-- The buffer is emptied. -/
  | emptied (hbuffer : inst'.buffer = [])
      (htimer : inst'.board.timer = none ∨ inst'.board.timer = inst.board.timer)
  /-- A drain puts its batch back. -/
  | failed (d : ℕ) (ha : a = .drain d .fail) (hfailed : inst'.drains d = some .failed)
      (htimer : inst'.board.timer = inst.board.timer)
  /-- The failure handler of a drain schedules a retry. -/
  | retried (hbuffer : inst'.buffer = inst.buffer) (htimer : inst'.board.timer = inst.board.timer)
      (hretry : inst'.board.retryTimer.isSome) (hlog : log'.accepted = log.accepted)

theorem timers_ensureInitialized (inst : Instance) (caller : Caller) :
    (inst.ensureInitialized caller).buffer = inst.buffer ∧
      (inst.ensureInitialized caller).board.timer = inst.board.timer ∧
      (inst.ensureInitialized caller).board.retryTimer = inst.board.retryTimer := by
  unfold ensureInitialized
  split <;> exact ⟨rfl, rfl, rfl⟩

theorem handleFlushFailure_retryTimer (cfg : Config) (state : BoardState) :
    (state.handleFlushFailure cfg).retryTimer.isSome ∧
      (state.handleFlushFailure cfg).timer = state.timer := by
  unfold BoardState.handleFlushFailure
  dsimp only
  split_ifs <;> exact ⟨rfl, rfl⟩

theorem TimerMove.setDrain {d : ℕ} {old phase : DrainPhase}
    (hphase : inst.drains d = some old) (hold : old ≠ .failed)
    (hlog : log'.accepted = log.accepted) :
    TimerMove cfg inst a log log' (inst.setDrain d phase) := by
  refine .stay rfl rfl rfl (fun e he ↦ ?_) hlog
  rw [drains_setDrain, if_neg]
  · exact he
  · rintro rfl
    rw [hphase] at he
    exact hold (Option.some.inj he)

theorem Step.timerMove (h : Step cfg log inst a log' inst') :
    TimerMove cfg inst a log log' inst' := by
  cases h with
  | append =>
    obtain ⟨hbuffer, htimer, hretry⟩ := timers_ensureInitialized inst _
    exact .stay hbuffer htimer hretry (fun d hd ↦ by rwa [drains_ensureInitialized]) rfl
  | maybeCompact c =>
    obtain ⟨hbuffer, htimer, hretry⟩ :=
      timers_ensureInitialized (inst.setCompaction c .initializing) (.maybeCompact c)
    exact .stay hbuffer htimer hretry (fun d hd ↦ by rwa [drains_ensureInitialized]) rfl
  | resumeAppend id ts d call userId seg ready hready hidle =>
    rw [push]
    split_ifs
    · refine .emptied ?_ (Or.inl ?_)
      · rw [buffer, board_flush]
      · rw [board_flush]
    · exact .buffered _ rfl rfl rfl
  | flush d =>
    refine .emptied ?_ (Or.inl ?_)
    · rw [buffer, board_flush]
    · rw [board_flush]
  | timerFires d =>
    refine .emptied ?_ (Or.inl ?_)
    · rw [buffer, board_flush]
    · rw [board_flush]
  | retryFires d => exact .emptied rfl (Or.inr rfl)
  | insert d batch hphase => exact .setDrain hphase (by simp) rfl
  | insertResolves d batch hphase => exact .setDrain hphase (by simp) rfl
  | touchResolves d batch hphase => exact .setDrain hphase (by simp) rfl
  | drainFails d phase hphase hpending =>
    refine .failed d rfl ?_ rfl
    rw [rebuffer, drains_setDrain, if_pos rfl]
  | drainResolves d hphase =>
    refine .stay rfl rfl rfl (fun e he ↦ ?_) rfl
    rw [drains_setDrain, if_neg]
    · exact he
    · rintro rfl
      rw [hphase] at he
      cases he
  | drainRejects d hphase =>
    obtain ⟨hretry, htimer⟩ := handleFlushFailure_retryTimer cfg inst.board
    exact .retried (BoardState.buffer_handleFlushFailure _ _) htimer hretry rfl
  | _ => exact .stay rfl rfl rfl (fun _ hd ↦ hd) rfl

theorem TimerMove.covered (h : TimerMove cfg inst a log log' inst')
    (hinst : inst.buffer ≠ [] → inst.Covered) (hne : inst'.buffer ≠ []) : inst'.Covered := by
  rcases h with ⟨hbuffer, htimer, hretry, hfailed, -⟩ | ⟨k, -, htimer, -⟩ | ⟨hbuffer, -⟩ |
    ⟨d, -, hfailed, -⟩ | ⟨-, -, hretry, -⟩
  · rw [hbuffer] at hne
    rcases hinst hne with hsome | hsome | ⟨d, hd⟩
    · exact Or.inl (by rwa [htimer])
    · exact Or.inr (Or.inl (by rwa [hretry]))
    · exact Or.inr (Or.inr ⟨d, hfailed d hd⟩)
  · left
    rw [htimer]
    cases inst.board.timer <;> rfl
  · exact absurd hbuffer hne
  · exact Or.inr (Or.inr ⟨d, hfailed⟩)
  · exact Or.inr (Or.inl hretry)

end Instance

/-! ## The world with a clock -/

/-- The world, the time, and what the timers and the strokes owe to it. -/
structure Timed (ι : Type*) where
  world : World ι
  /-- Milliseconds on the clock. -/
  now : ℚ
  /-- When the pending interval timer of each instance is due. -/
  due : ι → Option ℚ
  /-- History: the strokes each instance has accepted, with the times. -/
  accepted : ι → List (PersistedStroke × ℚ)

/-- Time passes, or an instance does something. -/
inductive TimedAction (ι : Type*)
  | tick (later : ℚ)
  | act (a : ι × Action)

/-- Whether a write to the database fails. -/
def TimedAction.failsWrite {ι : Type*} : TimedAction ι → Bool
  | .act (_, .drain _ .fail) => true
  | _ => false

namespace Timed

variable {ι : Type*}

/-- When a timer is due after a step: a timer that was armed before keeps its time. -/
def dueAfter (timer : Option ℚ) (due : Option ℚ) (now : ℚ) : Option ℚ :=
  timer.map fun delay ↦ due.getD (now + delay)

/-- The strokes accepted between two logs, with the time. -/
def acceptedAt (log log' : BoardLog) (now : ℚ) : List (PersistedStroke × ℚ) :=
  (log'.accepted.drop log.accepted.length).map fun k ↦ (k, now)

def init (t : Timed ι) : Prop := t.world.init ∧ ∀ i, t.due i = none ∧ t.accepted i = []

/-- The world over `store` at start-up, at time zero. -/
def start (ι : Type*) (store : BoardStore) : Timed ι :=
  ⟨World.start ι store, 0, fun _ ↦ none, fun _ ↦ []⟩

theorem init_start (store : BoardStore) : (start ι store).init :=
  ⟨World.init_start store, fun _ ↦ ⟨rfl, rfl⟩⟩

variable [DecidableEq ι]

def step (cfg : ι → Config) (t : Timed ι) : TimedAction ι → Option (Timed ι)
  | .tick later => if t.now ≤ later then some { t with now := later } else none
  | .act a => (t.world.step cfg a).map fun world ↦
    { world
      now := t.now
      due := Function.update t.due a.1
        (dueAfter (world.insts a.1).board.timer (t.due a.1) t.now)
      accepted := Function.update t.accepted a.1
        (t.accepted a.1 ++ acceptedAt t.world.log world.log t.now) }

/-- The transition system of a board with a clock. -/
def machine (cfg : ι → Config) : Machine (Timed ι) (TimedAction ι) := ⟨init, step cfg⟩

/-- No write fails. -/
def WritesSucceed (_ : Timed ι) (a : TimedAction ι) : Prop := a.failsWrite = false

instance (t : Timed ι) (a : TimedAction ι) : Decidable (WritesSucceed t a) :=
  inferInstanceAs (Decidable (_ = _))

variable {cfg : ι → Config} {t t' : Timed ι} {i : ι}

theorem step_act {a : ι × Action} (h : t.step cfg (.act a) = some t') :
    ∃ log inst, Instance.Step (cfg a.1) t.world.log (t.world.insts a.1) a.2 log inst ∧
      t' = ⟨t.world.put a.1 (log, inst), t.now,
        Function.update t.due a.1 (dueAfter inst.board.timer (t.due a.1) t.now),
        Function.update t.accepted a.1
          (t.accepted a.1 ++ acceptedAt t.world.log log t.now)⟩ := by
  obtain ⟨world, hworld, rfl⟩ := Option.map_eq_some_iff.mp h
  obtain ⟨j, a⟩ := a
  obtain ⟨log, inst, hstep, rfl⟩ := World.step_eq_some.mp hworld
  refine ⟨log, inst, .of_step hstep, ?_⟩
  rw [World.put_insts_self]
  rfl

/-! ## Every buffer is covered -/

theorem covered_of_reaches (h : (machine cfg).Reaches Machine.anyStep t) (i : ι)
    (hne : (t.world.insts i).buffer ≠ []) : (t.world.insts i).Covered := by
  refine h.invariant (P := fun t ↦ ∀ i, (t.world.insts i).buffer ≠ [] →
    (t.world.insts i).Covered) ?_ ?_ i hne
  · intro s hs i hne
    rw [hs.1.2.2 i] at hne
    exact absurd rfl hne
  · intro u a v hu _ hs i hne
    cases a with
    | tick later =>
      obtain ⟨-, hv⟩ := Option.ite_none_right_eq_some.mp hs
      cases hv
      exact hu i hne
    | act a =>
      obtain ⟨log, inst, hstep, rfl⟩ := step_act hs
      by_cases hi : i = a.1
      · subst hi
        simp only [World.put_insts_self] at hne ⊢
        exact hstep.timerMove.covered (hu a.1) hne
      · simp only [World.put_insts_of_ne _ hi] at hne ⊢
        exact hu i hne

/-! ## Due in time -/

theorem dueAfter_self {timer due : Option ℚ} (h : due.isSome = timer.isSome) (now : ℚ) :
    dueAfter timer due now = due := by
  cases timer with
  | none =>
    rw [Option.isSome_none, Option.isSome_eq_false_iff, Option.isNone_iff_eq_none] at h
    rw [h]
    rfl
  | some delay =>
    obtain ⟨time, rfl⟩ := Option.isSome_iff_exists.mp (h.trans Option.isSome_some)
    rfl

@[simp] theorem isSome_dueAfter (timer due : Option ℚ) (now : ℚ) :
    (dueAfter timer due now).isSome = timer.isSome := by
  cases timer <;> rfl

theorem acceptedAt_of_eq {log log' : BoardLog} (h : log'.accepted = log.accepted) (now : ℚ) :
    acceptedAt log log' now = [] := by
  rw [acceptedAt, h, List.drop_length, List.map_nil]

theorem acceptedAt_of_append {log log' : BoardLog} {k : PersistedStroke}
    (h : log'.accepted = log.accepted ++ [k]) (now : ℚ) :
    acceptedAt log log' now = [(k, now)] := by
  rw [acceptedAt, h, List.drop_left, List.map_singleton]

/-- The counter of an instance is past everything it has accepted. -/
structure Counted (inst : Instance) (accepted : List (PersistedStroke × ℚ)) : Prop where
  ready : inst.board.initPromise ≠ some .fulfilled → inst.ready = []
  below : ∀ r ∈ accepted, inst.board.initPromise = some .fulfilled ∧ r.1.seq < inst.board.nextSeq

/-- The interval timer of an instance is due in time for every stroke it has buffered. -/
structure Punctual (cfg : Config) (inst : Instance) (now : ℚ) (due : Option ℚ)
    (accepted : List (PersistedStroke × ℚ)) : Prop where
  pending : due.isSome = inst.board.timer.isSome
  soon : ∀ time ∈ due, time ≤ now + cfg.flushIntervalMs
  armed : inst.buffer ≠ [] → inst.board.timer.isSome
  recorded : ∀ k ∈ inst.buffer, ∃ time, (k, time) ∈ accepted
  inTime : ∀ k ∈ inst.buffer, ∀ time, (k, time) ∈ accepted → ∀ d ∈ due,
    d ≤ time + cfg.flushIntervalMs

variable {c : Config} {log log' : BoardLog} {inst inst' : Instance} {a : Action}
  {accepted : List (PersistedStroke × ℚ)} {due : Option ℚ} {now later : ℚ}

theorem Counted.step (h : Counted inst accepted) (hs : Instance.Step c log inst a log' inst') :
    Counted inst' (accepted ++ acceptedAt log log' now) := by
  refine ⟨hs.ready h.ready, fun r hr ↦ ?_⟩
  by_cases hp : inst.board.initPromise = some .fulfilled
  · refine ⟨hs.fulfilled hp, ?_⟩
    rcases hs.counter hp with ⟨haccepted, hseq⟩ | ⟨k, hk, haccepted, hseq⟩
    · rw [acceptedAt_of_eq haccepted, List.append_nil] at hr
      rw [hseq]
      exact (h.below r hr).2
    · rw [acceptedAt_of_append haccepted, List.mem_append, List.mem_singleton] at hr
      rcases hr with hr | rfl
      · have := (h.below r hr).2
        omega
      · exact hseq ▸ Nat.lt_succ_self _
  · -- nothing is accepted before the restore has succeeded
    have hsame : log'.accepted = log.accepted :=
      hs.effect.accepted (Instance.accepts_of_ready_nil (h.ready hp) a)
    rw [acceptedAt_of_eq hsame, List.append_nil] at hr
    exact absurd (h.below r hr).1 hp

theorem Counted.not_mem (h : Counted inst accepted) (hs : Instance.Step c log inst a log' inst')
    {k : PersistedStroke} (hk : log'.accepted = log.accepted ++ [k]) (time : ℚ) :
    (k, time) ∉ accepted := by
  intro hmem
  obtain ⟨hp, hlt⟩ := h.below _ hmem
  rcases hs.counter hp with ⟨haccepted, -⟩ | ⟨x, hx, haccepted, -⟩
  · rw [haccepted] at hk
    simp at hk
  · have hxk : x = k := by
      rw [haccepted] at hk
      simpa using hk
    rw [← hxk, hx] at hlt
    exact lt_irrefl _ hlt

theorem Punctual.tick (h : Punctual c inst now due accepted) (hlater : now ≤ later) :
    Punctual c inst later due accepted :=
  ⟨h.pending, fun time ht ↦ (h.soon time ht).trans (add_le_add_left hlater _), h.armed, h.recorded,
    h.inTime⟩

theorem Punctual.frame (h : Punctual c inst now due accepted) (hbuffer : inst'.buffer = inst.buffer)
    (htimer : inst'.board.timer = inst.board.timer) (hlog : log'.accepted = log.accepted) :
    Punctual c inst' now (dueAfter inst'.board.timer due now)
      (accepted ++ acceptedAt log log' now) := by
  rw [acceptedAt_of_eq hlog, List.append_nil, dueAfter_self (by rw [htimer, h.pending])]
  refine ⟨by rw [htimer, h.pending], h.soon, ?_, ?_, ?_⟩
  · rw [hbuffer, htimer]
    exact h.armed
  · rw [hbuffer]
    exact h.recorded
  · rw [hbuffer]
    exact h.inTime

/-- Whatever the timer was, it is due within an interval of its arming. -/
theorem Punctual.soon_dueAfter (h : Punctual c inst now due accepted)
    (htimer : inst'.board.timer = inst.board.timer.or (some c.flushIntervalMs)) :
    ∀ time ∈ dueAfter inst'.board.timer due now, time ≤ now + c.flushIntervalMs := by
  intro time htime
  rw [htimer] at htime
  cases ht : inst.board.timer with
  | none =>
    have hnone : due = none := by simpa [ht] using h.pending
    rw [ht, hnone] at htime
    cases htime
    exact le_rfl
  | some delay =>
    have hpending : due.isSome = (some delay).isSome := by rw [h.pending, ht]
    rw [ht, Option.some_or, dueAfter_self hpending] at htime
    exact h.soon time htime

/-- **A step without a failing write keeps the timer in time.** -/
theorem Punctual.step (h : Punctual c inst now due accepted) (hcounted : Counted inst accepted)
    (hs : Instance.Step c log inst a log' inst') (ha : ∀ d, a ≠ .drain d .fail) :
    Punctual c inst' now (dueAfter inst'.board.timer due now)
      (accepted ++ acceptedAt log log' now) := by
  rcases hs.timerMove with ⟨hbuffer, htimer, -, -, hlog⟩ | ⟨k, hbuffer, htimer, hlog⟩ |
    ⟨hbuffer, htimer⟩ | ⟨d, hfail, -⟩ | ⟨hbuffer, htimer, -, hlog⟩
  · exact h.frame hbuffer htimer hlog
  · rw [acceptedAt_of_append hlog]
    have hsoon := h.soon_dueAfter htimer
    refine ⟨isSome_dueAfter _ _ _, hsoon, fun _ ↦ ?_, fun x hx ↦ ?_, fun x hx time hmem d hd ↦ ?_⟩
    · rw [htimer]
      cases inst.board.timer <;> rfl
    · rw [hbuffer, List.mem_append, List.mem_singleton] at hx
      rcases hx with hx | rfl
      · obtain ⟨time, htime⟩ := h.recorded x hx
        exact ⟨time, List.mem_append_left _ htime⟩
      · exact ⟨now, List.mem_append_right _ List.mem_cons_self⟩
    · rw [List.mem_append, List.mem_singleton] at hmem
      rcases hmem with hmem | hmem
      · rw [hbuffer, List.mem_append, List.mem_singleton] at hx
        rcases hx with hx | rfl
        · -- the timer was armed for this stroke already, and keeps its time
          have hsome := h.armed (List.ne_nil_of_mem hx)
          have hsame : inst'.board.timer = inst.board.timer := by
            obtain ⟨delay, hdelay⟩ := Option.isSome_iff_exists.mp hsome
            rw [htimer, hdelay, Option.some_or]
          rw [dueAfter_self (by rw [hsame, h.pending])] at hd
          exact h.inTime x hx time hmem d hd
        · exact absurd hmem (hcounted.not_mem hs hlog time)
      · cases hmem
        exact hsoon d hd
  · have hsome : ∀ time ∈ dueAfter inst'.board.timer due now, time ∈ due := by
      intro time htime
      rcases htimer with hnone | hsame
      · rw [hnone] at htime
        cases htime
      · rwa [dueAfter_self (by rw [hsame, h.pending])] at htime
    refine ⟨isSome_dueAfter _ _ _, fun time ht ↦ h.soon time (hsome time ht), ?_, ?_, ?_⟩
    all_goals simp [hbuffer]
  · exact absurd hfail (ha d)
  · exact h.frame hbuffer htimer hlog

theorem punctual_of_reaches (h : (machine cfg).Reaches WritesSucceed t) (i : ι) :
    Counted (t.world.insts i) (t.accepted i) ∧
      Punctual (cfg i) (t.world.insts i) t.now (t.due i) (t.accepted i) := by
  refine h.invariant (P := fun t ↦ ∀ i, Counted (t.world.insts i) (t.accepted i) ∧
    Punctual (cfg i) (t.world.insts i) t.now (t.due i) (t.accepted i)) ?_ ?_ i
  · intro s hs i
    rw [hs.1.2.2 i, (hs.2 i).1, (hs.2 i).2]
    refine ⟨⟨fun _ ↦ rfl, by simp⟩, ⟨rfl, by simp, fun hne ↦ absurd rfl hne, ?_, by simp⟩⟩
    exact fun k hk ↦ (List.not_mem_nil hk).elim
  · intro u a v hu hok hs i
    cases a with
    | tick later =>
      obtain ⟨hlater, hv⟩ := Option.ite_none_right_eq_some.mp hs
      cases hv
      exact ⟨(hu i).1, (hu i).2.tick hlater⟩
    | act a =>
      obtain ⟨log, inst, hstep, rfl⟩ := step_act hs
      by_cases hi : i = a.1
      · subst hi
        simp only [World.put_insts_self, Function.update_self]
        refine ⟨(hu a.1).1.step hstep, (hu a.1).2.step (hu a.1).1 hstep fun d hd ↦ ?_⟩
        obtain ⟨j, a⟩ := a
        obtain rfl : a = .drain d .fail := hd
        cases hok
      · simp only [World.put_insts_of_ne _ hi, Function.update_of_ne hi]
        exact hu i

/-- A buffer that holds strokes has an interval timer or a retry pending, or a drain that has failed
and whose handler is to come; and as long as no write fails it is the interval timer, due within an
interval of the acceptance of every stroke in the buffer. -/
theorem no_stranded_strokes (t : Timed ι) (i : ι) (hne : (t.world.insts i).buffer ≠ []) :
    ((machine cfg).Reaches Machine.anyStep t → (t.world.insts i).board.timer.isSome ∨
      (t.world.insts i).board.retryTimer.isSome ∨
      ∃ d, (t.world.insts i).drains d = some .failed) ∧
    ((machine cfg).Reaches WritesSucceed t → (t.world.insts i).board.timer.isSome ∧
      ∃ due, t.due i = some due ∧ ∀ k ∈ (t.world.insts i).buffer,
        (∃ time, (k, time) ∈ t.accepted i) ∧
        ∀ time, (k, time) ∈ t.accepted i → due ≤ time + (cfg i).flushIntervalMs) := by
  refine ⟨fun h ↦ covered_of_reaches h i hne, fun h ↦ ?_⟩
  obtain ⟨-, hp⟩ := punctual_of_reaches h i
  have harmed := hp.armed hne
  obtain ⟨due, hdue⟩ := Option.isSome_iff_exists.mp (hp.pending.trans harmed)
  exact ⟨harmed, due, hdue, fun k hk ↦
    ⟨hp.recorded k hk, fun time htime ↦ hp.inTime k hk time htime due hdue⟩⟩

/-- A stroke is accepted at time seven, and another at time nine. -/
def twoStrokes : List (TimedAction Unit) :=
  (overLone sampleRestore).map .act ++ [.tick 7, .act ((), .resume "k1" 7 0), .tick 9,
    .act ((), .append 1 "ada" sampleSegment), .act ((), .resume "k2" 9 0)]

private def twoBuffered (t : Timed Unit) : Bool :=
  decide ((t.world.insts ()).buffer.length = 2) && decide (t.due () = some 2007)

theorem no_stranded_strokes_two : ∃ t : Timed Unit, (t.world.insts ()).buffer.length = 2 ∧
    t.due () = some 2007 ∧ (t.world.insts ()).board.timer.isSome ∧
    ∃ due, t.due () = some due ∧ ∀ k ∈ (t.world.insts ()).buffer,
      (∃ time, (k, time) ∈ t.accepted ()) ∧
      ∀ time, (k, time) ∈ t.accepted () → due ≤ time + (sampleConfig 9 9).flushIntervalMs := by
  obtain ⟨t, -, hsteps, hp⟩ : ∃ t, (machine fun _ ↦ sampleConfig 9 9).exec
      (start Unit sampleStore) twoStrokes = some t ∧
      (machine fun _ ↦ sampleConfig 9 9).Steps WritesSucceed (start Unit sampleStore) t ∧
      twoBuffered t = true :=
    Machine.exists_of_guarded_any _ _ (by decide +kernel)
  rw [twoBuffered, Bool.and_eq_true, decide_eq_true_iff, decide_eq_true_iff] at hp
  have hne : (t.world.insts ()).buffer ≠ [] := fun hnil ↦ by simp [hnil] at hp
  have hreaches : (machine fun _ ↦ sampleConfig 9 9).Reaches WritesSucceed t :=
    ⟨_, init_start _, hsteps⟩
  have harmed := (no_stranded_strokes t () hne).2 hreaches
  exact ⟨t, hp.1, hp.2, harmed⟩

end Timed

end Synapse
