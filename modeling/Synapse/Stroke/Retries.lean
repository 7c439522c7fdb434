import Synapse.Stroke.Effect

/-!
# The retry policy

A failed drain counts against the board. As long as the budget lasts, its failure handler schedules
a retry after a delay that doubles with every failure, and once the budget is spent it degrades the
board and keeps retrying at the ceiling. A drain that succeeds, whichever path it came from, ends
the cycle.

`Instance.RetryMove` is what one step does to the counter, the flag and the retry. `Retrying` adds
what lies beneath the field `retryTimer`: the handles of the platform and the timers it has not
fired. That a board never has two retries pending is an invariant there.
-/

namespace Synapse

open Transition

/-! ## The delays -/

/-- The delay after the `k`-th consecutive failure. -/
def retryDelay (cfg : Config) (k : ℕ) : ℚ :=
  if k ≤ cfg.maxFlushRetries then
    min cfg.retryMaxDelayMs (cfg.retryBaseDelayMs * 2 ^ (k - 1))
  else cfg.retryMaxDelayMs

section Delay

variable (cfg : Config)

/-- The base is a floor the exponential never falls below. -/
theorem base_le_exponential (k : ℕ) :
    cfg.retryBaseDelayMs ≤ cfg.retryBaseDelayMs * 2 ^ (k - 1) :=
  le_mul_of_one_le_right cfg.retryBaseDelayMs_pos.le (one_le_pow₀ one_le_two)

theorem computeBackoffDelay_eq (k : ℕ) : computeBackoffDelay cfg k
    = min cfg.retryMaxDelayMs (cfg.retryBaseDelayMs * 2 ^ (k - 1)) := by
  rw [computeBackoffDelay, max_eq_right (base_le_exponential cfg k)]

theorem computeBackoffDelay_of_le {k : ℕ}
    (h : cfg.retryMaxDelayMs ≤ cfg.retryBaseDelayMs * 2 ^ (k - 1)) :
    computeBackoffDelay cfg k = cfg.retryMaxDelayMs := by
  rw [computeBackoffDelay_eq, min_eq_left h]

theorem retryDelay_of_le {k : ℕ} (h : k ≤ cfg.maxFlushRetries) :
    retryDelay cfg k = computeBackoffDelay cfg k := by
  rw [retryDelay, if_pos h, computeBackoffDelay_eq]

theorem retryDelay_of_lt {k : ℕ} (h : cfg.maxFlushRetries < k) :
    retryDelay cfg k = cfg.retryMaxDelayMs :=
  if_neg (not_le.mpr h)

theorem base_le_retryDelay (k : ℕ) : cfg.retryBaseDelayMs ≤ retryDelay cfg k := by
  rcases le_or_gt k cfg.maxFlushRetries with h | h
  · rw [retryDelay_of_le cfg h]
    exact base_le_computeBackoffDelay cfg k
  · rw [retryDelay_of_lt cfg h]
    exact cfg.base_le_max

theorem retryDelay_le_max (k : ℕ) : retryDelay cfg k ≤ cfg.retryMaxDelayMs := by
  rcases le_or_gt k cfg.maxFlushRetries with h | h
  · rw [retryDelay_of_le cfg h]
    exact computeBackoffDelay_le_max cfg k
  · exact (retryDelay_of_lt cfg h).le

theorem retryDelay_mono : Monotone (retryDelay cfg) := by
  intro j k hjk
  rcases le_or_gt k cfg.maxFlushRetries with hk | hk
  · have hpow : (2 : ℚ) ^ (j - 1) ≤ 2 ^ (k - 1) :=
      pow_le_pow_right₀ one_le_two (Nat.sub_le_sub_right hjk 1)
    rw [retryDelay, retryDelay, if_pos hk, if_pos (hjk.trans hk)]
    exact min_le_min_left _ (mul_le_mul_of_nonneg_left hpow cfg.retryBaseDelayMs_pos.le)
  · rw [retryDelay_of_lt cfg hk]
    exact retryDelay_le_max cfg j

/-- The delays of the first `n` failures. -/
def retryDelays (n : ℕ) : List ℚ := (List.range n).map fun i ↦ retryDelay cfg (i + 1)

theorem retryDelays_succ (n : ℕ) :
    retryDelays cfg (n + 1) = retryDelays cfg n ++ [retryDelay cfg (n + 1)] := by
  rw [retryDelays, List.range_succ, List.map_append, List.map_singleton, retryDelays]

theorem pairwise_le_retryDelays (n : ℕ) : (retryDelays cfg n).Pairwise (· ≤ ·) :=
  List.pairwise_map.mpr
    (List.pairwise_lt_range.imp fun h ↦ retryDelay_mono cfg (Nat.succ_le_succ h.le))

theorem mem_retryDelays {n : ℕ} {delay : ℚ} (h : delay ∈ retryDelays cfg n) :
    cfg.retryBaseDelayMs ≤ delay ∧ delay ≤ cfg.retryMaxDelayMs := by
  obtain ⟨i, -, rfl⟩ := List.mem_map.mp h
  exact ⟨base_le_retryDelay cfg _, retryDelay_le_max cfg _⟩

end Delay

/-! ## What a step does to the retries -/

theorem BoardState.policy_handleFlushFailure (cfg : Config) (state : BoardState) :
    (state.handleFlushFailure cfg).flushAttempts = state.flushAttempts + 1 ∧
      (state.handleFlushFailure cfg).retryTimer
        = some (retryDelay cfg (state.flushAttempts + 1)) ∧
      (state.handleFlushFailure cfg).persistenceDegraded
        = (state.persistenceDegraded ||
          decide (cfg.maxFlushRetries < state.flushAttempts + 1)) := by
  unfold handleFlushFailure
  dsimp only
  split_ifs with h
  · rw [retryDelay_of_le cfg h, decide_eq_false (not_lt.mpr h), Bool.or_false]
    exact ⟨rfl, rfl, rfl⟩
  · rw [retryDelay_of_lt cfg (not_le.mp h), decide_eq_true (not_le.mp h), Bool.or_true]
    exact ⟨rfl, rfl, rfl⟩

/-- Whether the action ends a flush or a retry. -/
def Action.settles : Action → Bool
  | .drain _ .resolve | .drain _ .reject => true
  | _ => false

namespace Instance

variable {cfg : Config} {log log' : BoardLog} {inst inst' : Instance} {a : Action}

/-- What one step does to the counter, the flag and the retry. -/
inductive RetryMove (cfg : Config) (inst : Instance) (a : Action) (st' : BoardState) : Prop
  | stay (hsettles : a.settles = false) (hcaptures : inst.captures cfg a = false)
      (hattempts : st'.flushAttempts = inst.board.flushAttempts)
      (hdegraded : st'.persistenceDegraded = inst.board.persistenceDegraded)
      (hretry : st'.retryTimer = inst.board.retryTimer)
  /-- A flush or a retry starts, and no retry is pending. -/
  | start (hsettles : a.settles = false) (hcaptures : inst.captures cfg a = true)
      (hattempts : st'.flushAttempts = inst.board.flushAttempts)
      (hdegraded : st'.persistenceDegraded = inst.board.persistenceDegraded)
      (hretry : st'.retryTimer = none)
  | persisted (d : ℕ) (ha : a = .drain d .resolve) (hst : st' = inst.board.markPersisted)
  | failed (d : ℕ) (ha : a = .drain d .reject) (hst : st' = inst.board.handleFlushFailure cfg)

theorem policy_ensureInitialized (inst : Instance) (caller : Caller) :
    (inst.ensureInitialized caller).board.flushAttempts = inst.board.flushAttempts ∧
      (inst.ensureInitialized caller).board.persistenceDegraded = inst.board.persistenceDegraded ∧
      (inst.ensureInitialized caller).board.retryTimer = inst.board.retryTimer := by
  unfold ensureInitialized
  split <;> exact ⟨rfl, rfl, rfl⟩

theorem Step.retryMove (h : Step cfg log inst a log' inst') :
    RetryMove cfg inst a inst'.board := by
  cases h with
  | append =>
    obtain ⟨hattempts, hdegraded, hretry⟩ := policy_ensureInitialized inst _
    exact .stay rfl rfl hattempts hdegraded hretry
  | maybeCompact c =>
    obtain ⟨hattempts, hdegraded, hretry⟩ :=
      policy_ensureInitialized (inst.setCompaction c .initializing) (.maybeCompact c)
    exact .stay rfl rfl hattempts hdegraded hretry
  | resumeAppend id ts d call userId seg ready hready =>
    have hresumes : inst.resumesAppend = true := by simp [resumesAppend, hready]
    have hlen : ((inst.setReady ready).bufferStroke
        (inst.nextStroke userId seg id ts)).buffer.length = inst.buffer.length + 1 :=
      List.length_append
    rw [push]
    split_ifs with hfull <;> rw [hlen] at hfull
    · rw [board_flush]
      exact .start rfl (by simp [captures, hresumes, hfull]) rfl rfl rfl
    · exact .stay rfl (by simpa [captures, hresumes] using hfull) rfl rfl rfl
  | resumeCompact id ts d c ready hready =>
    exact .stay rfl (by simp [captures, resumesAppend, hready]) rfl rfl rfl
  | flush | timerFires =>
    rw [board_flush]
    exact .start rfl rfl rfl rfl rfl
  | retryFires d => exact .start rfl rfl rfl rfl rfl
  | drainResolves d => exact .persisted d rfl rfl
  | drainRejects d => exact .failed d rfl rfl
  | _ => exact .stay rfl rfl rfl rfl rfl

end Instance

/-! ## The timers of the platform -/

/-- One board, with the handles and the timers under its retries. -/
structure Retrying where
  world : World Unit
  /-- `state.retryTimer`: the handle the board keeps. -/
  retryTimer : Option ℕ
  /-- The timers that have not fired, each with its delay. -/
  pending : List (ℕ × ℚ)
  /-- The next handle the platform gives out. -/
  nextHandle : ℕ
  /-- History: the delays scheduled since the last reset. -/
  delays : List ℚ

/-- A retry is started by a timer of the platform, everything else by the board. -/
inductive RetryAction
  | act (a : Action)
  /-- The timer fires and starts drain `d`. -/
  | fires (handle d : ℕ)
  deriving DecidableEq

namespace Retrying

variable (cfg : Config) (s : Retrying)

def inst : Instance := s.world.insts ()

def cancelRetryTimer : Retrying :=
  { s with
    pending := s.pending.filter fun t ↦ decide (some t.1 ≠ s.retryTimer)
    retryTimer := none }

/-- Replaces any pending retry. -/
def scheduleRetryFlush (delayMs : ℚ) : Retrying :=
  let s := s.cancelRetryTimer
  { s with
    retryTimer := some s.nextHandle
    pending := s.pending ++ [(s.nextHandle, delayMs)]
    nextHandle := s.nextHandle + 1
    delays := s.delays ++ [delayMs] }

def setWorld (w : World Unit) : Retrying := { s with world := w }

/-- What the action does to the timers; `w` is the world it leads to. -/
def follow (w : World Unit) : Action → Retrying
  | .drain _ .resolve => { s.setWorld w with delays := [] }
  | .drain _ .reject =>
    ((w.insts ()).board.retryTimer.elim s fun delayMs ↦ s.scheduleRetryFlush delayMs).setWorld w
  | a => (if s.inst.captures cfg a then s.cancelRetryTimer else s).setWorld w

/-- The callback of a retry, up to its first `await`. -/
def fire (handle d : ℕ) : Retrying :=
  { s with
    world := s.world.put ()
      (s.world.log, (s.inst.setBoard s.inst.board.cancelRetryTimer).drainOnce d)
    pending := s.pending.filter fun t ↦ decide (t.1 ≠ handle)
    retryTimer := none }

def step : RetryAction → Option Retrying
  | .act (.retryFires _) => none
  | .act a => (s.world.step (fun _ ↦ cfg) ((), a)).map fun w ↦ s.follow cfg w a
  | .fires handle d =>
    if handle ∈ s.pending.map Prod.fst ∧ s.inst.drains d = none then some (s.fire handle d)
    else none

def init : Prop :=
  s.world.init ∧ s.retryTimer = none ∧ s.pending = [] ∧ s.delays = []

def machine : Machine Retrying RetryAction := ⟨init, step cfg⟩

/-- What the retry policy promises. -/
structure Policy (cfg : Config) (s : Retrying) : Prop where
  /-- The flag says that the budget is spent. -/
  degraded : s.inst.board.persistenceDegraded = true ↔
    cfg.maxFlushRetries < s.inst.board.flushAttempts
  /-- The `k`-th failure since the last reset has scheduled the `k`-th delay. -/
  delays : s.delays = retryDelays cfg s.inst.board.flushAttempts
  bounded : ∀ delay ∈ s.delays, cfg.retryBaseDelayMs ≤ delay ∧ delay ≤ cfg.retryMaxDelayMs
  ascending : s.delays.Pairwise (· ≤ ·)
  /-- At most one retry is pending. -/
  single : s.pending.length ≤ 1

variable {cfg s} {s' : Retrying} {a : Action} {w : World Unit}

theorem inst_setWorld : (s.setWorld w).inst = w.insts () := rfl

/-! ### The invariant -/

/-- The board keeps the handle of the one timer that is pending, if there is one. -/
def Held (delay : Option ℚ) (s : Retrying) : Prop :=
  (delay = none ∧ s.retryTimer = none ∧ s.pending = []) ∨
    ∃ handle delayMs, delay = some delayMs ∧ s.retryTimer = some handle ∧
      s.pending = [(handle, delayMs)]

theorem Held.cancel {delay : Option ℚ} (h : s.Held delay) :
    s.cancelRetryTimer.pending = [] := by
  rcases h with ⟨-, -, hpending⟩ | ⟨handle, delayMs, -, htimer, hpending⟩
  · rw [cancelRetryTimer, hpending, List.filter_nil]
  · simp [cancelRetryTimer, htimer, hpending]

theorem Held.schedule {delay : Option ℚ} (h : s.Held delay) (delayMs : ℚ) :
    (s.scheduleRetryFlush delayMs).pending = [(s.nextHandle, delayMs)] := by
  rw [scheduleRetryFlush, h.cancel, List.nil_append]
  rfl

/-- The timers, the history and the flag agree with the board. -/
structure Tracked (cfg : Config) (s : Retrying) : Prop where
  held : s.Held s.inst.board.retryTimer
  delays : s.delays = retryDelays cfg s.inst.board.flushAttempts
  degraded : s.inst.board.persistenceDegraded = true ↔
    cfg.maxFlushRetries < s.inst.board.flushAttempts

theorem Tracked.of_init (h : s.init) : s.Tracked cfg := by
  obtain ⟨⟨-, -, hfresh⟩, htimer, hpending, hdelays⟩ := h
  have hinst : s.inst = {} := hfresh ()
  refine ⟨?_, ?_, ?_⟩ <;> rw [hinst]
  · exact Or.inl ⟨rfl, htimer, hpending⟩
  · exact hdelays
  · exact iff_of_false (by decide) (Nat.not_lt_zero _)

theorem follow_of_not_settles (h : a.settles = false) : s.follow cfg w a
    = (if s.inst.captures cfg a then s.cancelRetryTimer else s).setWorld w := by
  unfold follow
  split
  · cases h
  · cases h
  · rfl

theorem follow_reject {d : ℕ}
    (hs : s.world.step (fun _ ↦ cfg) ((), .drain d .reject) = some w) :
    (w.insts ()).board = s.inst.board.handleFlushFailure cfg ∧
      s.follow cfg w (.drain d .reject) = (s.scheduleRetryFlush
        (retryDelay cfg (s.inst.board.flushAttempts + 1))).setWorld w := by
  obtain ⟨log, next, hstep, rfl⟩ := World.step_eq_some.mp hs
  have hboard : next.board = s.inst.board.handleFlushFailure cfg := by
    cases Instance.Step.of_step hstep
    rfl
  refine ⟨hboard, ?_⟩
  rw [Retrying.follow, World.put_insts_self, hboard,
    (s.inst.board.policy_handleFlushFailure cfg).2.1, Option.elim_some]

/-- **One step of the board**: a start cancels, a success ends the cycle, and a failure goes on
with it. -/
theorem Tracked.follow (h : s.Tracked cfg) (hs : s.world.step (fun _ ↦ cfg) ((), a) = some w) :
    (s.follow cfg w a).Tracked cfg := by
  obtain ⟨log, next, hstep, rfl⟩ := World.step_eq_some.mp hs
  rcases (Instance.Step.of_step hstep).retryMove with
    ⟨hsettles, hcaptures, hattempts, hdegraded, hretry⟩ |
    ⟨hsettles, hcaptures, hattempts, hdegraded, hretry⟩ | ⟨d, rfl, hst⟩ | ⟨d, rfl, hst⟩
  · rw [follow_of_not_settles hsettles, show s.inst.captures cfg a = false from hcaptures,
      if_neg Bool.false_ne_true]
    exact ⟨hretry ▸ h.held, hattempts ▸ h.delays, hattempts ▸ hdegraded ▸ h.degraded⟩
  · rw [follow_of_not_settles hsettles, show s.inst.captures cfg a = true from hcaptures,
      if_pos rfl]
    exact ⟨Or.inl ⟨hretry, rfl, h.held.cancel⟩, hattempts ▸ h.delays,
      hattempts ▸ hdegraded ▸ h.degraded⟩
  · have hboard : (s.follow cfg (s.world.put () (log, next)) (.drain d .resolve)).inst.board
        = s.inst.board.markPersisted := hst
    refine ⟨?_, ?_, ?_⟩ <;> rw [hboard]
    · exact h.held
    · rfl
    · exact iff_of_false Bool.false_ne_true (Nat.not_lt_zero _)
  · obtain ⟨hboard, hfollow⟩ := follow_reject hs
    obtain ⟨hattempts, hretry, hdegraded⟩ := s.inst.board.policy_handleFlushFailure cfg
    rw [hfollow]
    refine ⟨?_, ?_, ?_⟩ <;> rw [inst_setWorld, hboard]
    · exact Or.inr ⟨s.nextHandle, _, hretry, rfl, h.held.schedule _⟩
    · rw [hattempts, retryDelays_succ, ← h.delays]
      rfl
    · rw [hattempts, hdegraded, Bool.or_eq_true, decide_eq_true_iff, h.degraded]
      omega

/-- The timer that fires is the one the board keeps, and its callback is the retry of the board. -/
theorem Tracked.fire (h : s.Tracked cfg) {handle d : ℕ}
    (hpending : handle ∈ s.pending.map Prod.fst) (hidle : s.inst.drains d = none) :
    ∃ w, s.world.step (fun _ ↦ cfg) ((), .retryFires d) = some w ∧
      s.fire handle d = s.follow cfg w (.retryFires d) := by
  rcases h.held with ⟨-, -, hnil⟩ | ⟨handle', delayMs, hdelay, htimer, hsingle⟩
  · simp [hnil] at hpending
  · have hhandle : handle = handle' := by simpa [hsingle] using hpending
    subst hhandle
    have hsome : s.inst.board.retryTimer.isSome := by rw [hdelay]; rfl
    refine ⟨_, World.step_eq_some.mpr ⟨_, _, if_pos ⟨hsome, hidle⟩, rfl⟩, ?_⟩
    have hfilter : (fun t : ℕ × ℚ ↦ decide (some t.1 ≠ s.retryTimer))
        = fun t ↦ decide (t.1 ≠ handle) := by
      rw [htimer]
      simp
    rw [follow_of_not_settles rfl, Instance.captures, if_pos rfl, cancelRetryTimer, hfilter]
    rfl

/-- **Every step is a step of the board**, with the timers following it. -/
theorem Tracked.exists_follow (h : s.Tracked cfg) {a : RetryAction}
    (hs : s.step cfg a = some s') :
    ∃ a w, s.world.step (fun _ ↦ cfg) ((), a) = some w ∧ s' = s.follow cfg w a := by
  unfold step at hs
  split at hs
  · cases hs
  · next a _ =>
    obtain ⟨w, hw, rfl⟩ := Option.map_eq_some_iff.mp hs
    exact ⟨a, w, hw, rfl⟩
  · next handle d =>
    obtain ⟨⟨hpending, hidle⟩, hs⟩ := Option.ite_none_right_eq_some.mp hs
    cases hs
    obtain ⟨w, hw, hfire⟩ := h.fire hpending hidle
    exact ⟨_, w, hw, hfire⟩

theorem tracked_of_reaches {ok : Retrying → RetryAction → Prop}
    (h : (machine cfg).Reaches ok s) : s.Tracked cfg :=
  h.invariant (fun _ ↦ .of_init) fun u a v hu _ hs ↦ by
    obtain ⟨a, w, hw, rfl⟩ := hu.exists_follow (a := a) hs
    exact hu.follow hw

theorem Tracked.policy (h : s.Tracked cfg) : s.Policy cfg where
  degraded := h.degraded
  delays := h.delays
  bounded delay hdelay := mem_retryDelays cfg (h.delays ▸ hdelay)
  ascending := h.delays ▸ pairwise_le_retryDelays cfg _
  single := by
    rcases h.held with ⟨-, -, hpending⟩ | ⟨handle, delayMs, -, -, hpending⟩ <;> rw [hpending]
    · exact Nat.zero_le _
    · exact le_rfl

/-- **The retry policy.** In every reachable state the board is degraded exactly if it has failed
more often than the budget allows, the delays scheduled since the last reset are those of the
policy, bounded and never decreasing, and at most one retry is pending. A failure schedules the
delay of its number. -/
theorem retry_policy (h : (machine cfg).Reaches Machine.anyStep s) :
    s.Policy cfg ∧ ∀ d s', s.step cfg (.act (.drain d .reject)) = some s' →
      ∃ handle, s'.retryTimer = some handle ∧
        s'.pending = [(handle, retryDelay cfg (s.inst.board.flushAttempts + 1))] := by
  have htracked := tracked_of_reaches h
  refine ⟨htracked.policy, fun d s' hs ↦ ?_⟩
  obtain ⟨w, hw, rfl⟩ := Option.map_eq_some_iff.mp hs
  rw [(follow_reject hw).2]
  exact ⟨s.nextHandle, rfl, htracked.held.schedule _⟩

/-- Over a board nobody has used. -/
def start : Retrying where
  world := World.start Unit sampleStore
  retryTimer := none
  pending := []
  nextHandle := 0
  delays := []

theorem init_start : start.init := ⟨World.init_start _, rfl, rfl, rfl⟩

/-- A budget of one retry. -/
def oneRetry : Config :=
  StrokeServiceDeps.config
    { flushIntervalMs := 2000, flushBatchSize := 1, maxFlushRetries := some 1 }

/-- A drain fails, its retry fails, and the board is degraded; the next retry is under way. -/
def spentRun : List RetryAction :=
  sampleRestore.map .act ++ [.act (.resume "a" 5 0), .act (.drain 0 .fail), .act (.drain 0 .reject),
    .fires 0 1, .act (.drain 1 .fail), .act (.drain 1 .reject)]

private def spent (s : Retrying) : Bool :=
  s.inst.board.persistenceDegraded && decide (s.pending = [(1, 30000)]) &&
    decide (s.delays = [1000, 30000])

theorem retry_policy_spent : ∃ s, (machine oneRetry).exec start spentRun = some s ∧
    s.inst.board.persistenceDegraded = true ∧ s.Policy oneRetry := by
  obtain ⟨s, hexec, hsteps, hp⟩ := Machine.exists_of_exec start spentRun
    (M := machine oneRetry) (p := spent) (by decide +kernel)
  simp only [spent, Bool.and_eq_true] at hp
  exact ⟨s, hexec, hp.1.1, (retry_policy ⟨_, init_start, hsteps⟩).1⟩

end Retrying

end Synapse
