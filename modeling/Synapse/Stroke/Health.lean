import Synapse.Stroke.Boards
import Synapse.Stroke.Retries

/-!
# Degraded boards

`markPersisted` clears the counter and the flag of a board. It is meant to record a durable write,
and it also runs for a drain that has written nothing: one that found the buffer empty, as every
drain does while another is in flight, or one whose write had succeeded before the failure it wipes
out was counted.

`Audited` keeps, beside the service, which drains have written since the last failure of their
board, and whether the budget of a board has been spent with nothing written since. A failure is
what `handleFlushFailure` counts. The steps themselves are dated by the failures before them: a
drain is in order if no failure comes between its `insertBatch` and its end.
-/

namespace Synapse

open Transition

/-- History of the writes of a board. -/
structure WriteAudit where
  /-- The drains whose `insertBatch` of at least one stroke has resolved since the last failure. -/
  wrote : ℕ → Bool := fun _ ↦ false
  /-- The budget has been spent, and nothing has been written since. -/
  exhausted : Bool := false
  /-- How many failures have been counted. -/
  failures : ℕ := 0
  /-- After how many failures the `insertBatch` of a drain has resolved. -/
  insertedAfter : ℕ → Option ℕ := fun _ ↦ none

namespace WriteAudit

variable (cfg : Config) (inst : Instance) (audit : WriteAudit)

/-- A drain has written. -/
def record (d : ℕ) : WriteAudit :=
  { audit with
    wrote := Function.update audit.wrote d true
    exhausted := false
    insertedAfter := Function.update audit.insertedAfter d (some audit.failures) }

theorem insertedAfter_record (d e : ℕ) : (audit.record d).insertedAfter e
    = if e = d then some audit.failures else audit.insertedAfter e :=
  Function.update_apply _ _ _ _

theorem wrote_record (d e : ℕ) :
    (audit.record d).wrote e = if e = d then true else audit.wrote e :=
  Function.update_apply _ _ _ _

/-- What the action adds to the history of the board. -/
def observe : Action → WriteAudit
  | .drain d .insertResolves =>
    if inst.batch d = [] then audit
    else audit.record d
  | .drain _ .reject =>
    { audit with
      wrote := fun _ ↦ false
      exhausted := audit.exhausted ||
        decide (cfg.maxFlushRetries < inst.board.flushAttempts + 1)
      failures := audit.failures + 1 }
  | _ => audit

theorem observe_of_not_settles {a : Action} (h : a.settles = false) :
    audit.observe cfg inst a = audit ∨ ∃ d, audit.observe cfg inst a = audit.record d := by
  unfold observe
  split
  · next d =>
    split_ifs
    · exact Or.inl rfl
    · exact Or.inr ⟨d, rfl⟩
  · cases h
  · exact Or.inl rfl

variable {cfg inst audit} {log log' : BoardLog} {inst' : Instance} {a : Action}

/-- A drain that ends on a board with failures has not been empty: its `insertBatch` has resolved,
and no failure has been counted between that and the end. -/
def Vouched (inst : Instance) (audit : WriteAudit) : Action → Prop
  | .drain d .resolve => 0 < inst.board.flushAttempts → audit.insertedAfter d = some audit.failures
  | _ => True

instance (inst : Instance) (audit : WriteAudit) (a : Action) :
    Decidable (Vouched inst audit a) := by
  unfold Vouched
  split <;> infer_instance

/-- The history and the flag agree. -/
structure Honest (audit : WriteAudit) (board : BoardState) : Prop where
  attempts : board.persistenceDegraded = true → 0 < board.flushAttempts
  /-- A board whose budget has been spent is degraded until something has been written. -/
  degraded : audit.exhausted = true → board.persistenceDegraded = true
  written : ∀ d, audit.wrote d = true → audit.exhausted = false
  dated : ∀ d, ∀ n ∈ audit.insertedAfter d, n ≤ audit.failures
  /-- A drain that has written after the last failure is known to have. -/
  wrote : ∀ d, audit.insertedAfter d = some audit.failures → audit.wrote d = true

theorem honest_fresh : Honest {} {} where
  attempts h := by cases h
  degraded h := by cases h
  written _ h := by cases h
  dated _ _ h := by cases h
  wrote _ h := by cases h

/-- The counter of failures or the flag is cleared. -/
def Cleared (board board' : BoardState) : Prop :=
  (board.persistenceDegraded = true ∧ board'.persistenceDegraded = false) ∨
    (0 < board.flushAttempts ∧ board'.flushAttempts = 0)

theorem not_cleared {board board' : BoardState}
    (hattempts : board'.flushAttempts = board.flushAttempts)
    (hdegraded : board'.persistenceDegraded = board.persistenceDegraded) :
    ¬ Cleared board board' := by
  rintro (⟨h, h'⟩ | ⟨h, h'⟩)
  · rw [hdegraded, h] at h'
    cases h'
  · omega

theorem Honest.observe (h : audit.Honest inst.board) (hsettles : a.settles = false)
    {board : BoardState} (hattempts : board.flushAttempts = inst.board.flushAttempts)
    (hdegraded : board.persistenceDegraded = inst.board.persistenceDegraded) :
    (audit.observe cfg inst a).Honest board := by
  rcases observe_of_not_settles cfg inst audit hsettles with hsame | ⟨d, hwrite⟩
  · rw [hsame]
    refine ⟨?_, ?_, h.written, h.dated, h.wrote⟩
    · rw [hattempts, hdegraded]
      exact h.attempts
    · rw [hdegraded]
      exact h.degraded
  · rw [hwrite]
    refine ⟨?_, fun hfalse ↦ absurd hfalse Bool.false_ne_true, fun _ _ ↦ rfl, fun e n hn ↦ ?_,
      fun e he ↦ ?_⟩
    · rw [hattempts, hdegraded]
      exact h.attempts
    · rw [insertedAfter_record] at hn
      split_ifs at hn
      · exact (Option.mem_some_iff.mp hn).ge
      · exact h.dated e n hn
    · rw [insertedAfter_record] at he
      rw [wrote_record]
      split_ifs at he ⊢
      · rfl
      · exact h.wrote e he

theorem Honest.fail (h : audit.Honest inst.board) (d : ℕ) :
    (audit.observe cfg inst (.drain d .reject)).Honest (inst.board.handleFlushFailure cfg) := by
  obtain ⟨hattempts, -, hdegraded⟩ := inst.board.policy_handleFlushFailure cfg
  refine ⟨fun _ ↦ hattempts ▸ Nat.succ_pos _, fun hexhausted ↦ ?_,
    fun _ hwrote ↦ absurd hwrote Bool.false_ne_true, fun e n hn ↦ ?_, fun e he ↦ ?_⟩
  · rw [hdegraded]
    simp only [WriteAudit.observe, Bool.or_eq_true] at hexhausted ⊢
    exact hexhausted.imp_left h.degraded
  · exact Nat.le_succ_of_le (h.dated e n hn)
  · exact absurd (h.dated e _ he) (Nat.not_succ_le_self _)

/-- **Only `markPersisted` clears anything**, and it is honest when the drain has written. -/
theorem Honest.step (h : audit.Honest inst.board) (hs : Instance.Step cfg log inst a log' inst')
    (hvouched : audit.Vouched inst a) : (audit.observe cfg inst a).Honest inst'.board ∧
      (Cleared inst.board inst'.board → ∃ d, audit.wrote d = true) := by
  rcases hs.retryMove with ⟨hsettles, -, hattempts, hdegraded, -⟩ |
    ⟨hsettles, -, hattempts, hdegraded, -⟩ | ⟨d, rfl, hst⟩ | ⟨d, rfl, hst⟩
  · exact ⟨h.observe hsettles hattempts hdegraded,
      fun hcleared ↦ absurd hcleared (not_cleared hattempts hdegraded)⟩
  · exact ⟨h.observe hsettles hattempts hdegraded,
      fun hcleared ↦ absurd hcleared (not_cleared hattempts hdegraded)⟩
  · rw [hst]
    refine ⟨⟨fun hflag ↦ absurd hflag Bool.false_ne_true, fun hexhausted ↦ ?_, h.written, h.dated,
      h.wrote⟩, fun hcleared ↦ ?_⟩
    · -- a spent budget means failures, so the drain has written, and the budget is no longer spent
      have hwrote := h.wrote d (hvouched (h.attempts (h.degraded hexhausted)))
      rw [show (audit.observe cfg inst (.drain d .resolve)).exhausted = audit.exhausted from rfl,
        h.written d hwrote] at hexhausted
      cases hexhausted
    · have hfailed := hcleared.elim (fun hflag ↦ h.attempts hflag.1) And.left
      exact ⟨d, h.wrote d (hvouched hfailed)⟩
  · obtain ⟨hattempts, -, hdegraded⟩ := inst.board.policy_handleFlushFailure cfg
    rw [hst]
    obtain ⟨hattempts, -, hdegraded⟩ := inst.board.policy_handleFlushFailure cfg
    refine ⟨h.fail d, fun hcleared ↦ ?_⟩
    rcases hcleared with ⟨hflag, hflag'⟩ | ⟨-, hzero⟩
    · rw [hdegraded, hflag] at hflag'
      cases hflag'
    · omega

theorem cleared_of_resolve {d : ℕ}
    (hs : Instance.Step cfg log inst (.drain d .resolve) log' inst')
    (hfailed : 0 < inst.board.flushAttempts) : Cleared inst.board inst'.board := by
  cases hs
  exact Or.inr ⟨hfailed, rfl⟩

end WriteAudit

namespace StrokeService

/-- What the readiness endpoint asks. -/
def isPersistenceHealthy (s : StrokeService) : Bool :=
  s.known.all fun b ↦ !(s.entry b).board.persistenceDegraded

theorem isPersistenceHealthy_eq_false {s : StrokeService} {b : String} (hb : b ∈ s.known)
    (h : (s.entry b).board.persistenceDegraded = true) : s.isPersistenceHealthy = false := by
  rw [isPersistenceHealthy, List.all_eq_false]
  exact ⟨b, hb, by simp [h]⟩

end StrokeService

/-- A service, with the history of the writes of every board. -/
structure Audited where
  service : StrokeService
  audits : String → WriteAudit

namespace Audited

open StrokeService

variable (cfg : Config) (s : Audited)

/-- The histories after an action of the service. -/
def observe : ServiceAction → String → WriteAudit
  | .board b a =>
    Function.update s.audits b ((s.audits b).observe cfg (s.service.entry b) a)
  | .flushAll _ => s.audits

def step (a : ServiceAction) : Option Audited :=
  (s.service.step cfg a).map fun service ↦ { service, audits := s.observe cfg a }

def init : Prop := s.service.init ∧ ∀ b, s.audits b = {}

def machine : Machine Audited ServiceAction := ⟨init, step cfg⟩

/-- The counter or the flag of board `b` is what the action clears. -/
def Cleared (s s' : Audited) (b : String) : Prop :=
  WriteAudit.Cleared (s.service.entry b).board (s'.service.entry b).board

/-- No drain with an empty batch ends on a board with failures, and none ends on one after a failure
that was counted since its `insertBatch`. -/
def Vouched (s : Audited) : ServiceAction → Prop
  | .board b a => (s.audits b).Vouched (s.service.entry b) a
  | .flushAll _ => True

instance (s : Audited) : (a : ServiceAction) → Decidable (s.Vouched a)
  | .board b a => inferInstanceAs (Decidable ((s.audits b).Vouched (s.service.entry b) a))
  | .flushAll _ => isTrue trivial

variable {cfg s} {s' : Audited} {b : String}

/-- The histories and the flags of all boards agree. -/
def Honest (s : Audited) : Prop := ∀ b, (s.audits b).Honest (s.service.entry b).board

theorem Honest.of_init (h : s.init) : s.Honest := by
  intro b
  rw [h.2 b, entry, (h.1.1 b).1.2.2]
  exact WriteAudit.honest_fresh

/-- **One step of the service.** -/
theorem Honest.step (h : s.Honest) {a : ServiceAction} (hs : s.step cfg a = some s')
    (hvouched : s.Vouched a) :
    s'.Honest ∧ ∀ b, s.Cleared s' b → ∃ d, (s.audits b).wrote d = true := by
  obtain ⟨service, hservice, rfl⟩ := Option.map_eq_some_iff.mp hs
  cases a with
  | board b a =>
    obtain ⟨w, hw, rfl⟩ := step_board_eq_some.mp hservice
    obtain ⟨log, inst, hstep, rfl⟩ := World.step_eq_some.mp hw
    have hboard := (h b).step (.of_step hstep) hvouched
    refine ⟨fun e ↦ ?_, fun e hcleared ↦ ?_⟩ <;> rcases eq_or_ne e b with rfl | he
    · change (Function.update s.audits e _ e).Honest ((s.service.setBoard e _).entry e).board
      rw [Function.update_self, entry_setBoard_self, World.put_insts_self]
      exact hboard.1
    · change (Function.update s.audits b _ e).Honest ((s.service.setBoard b _).entry e).board
      rw [Function.update_of_ne he, entry_setBoard_of_ne he]
      exact h e
    · rw [Cleared, entry_setBoard_self, World.put_insts_self] at hcleared
      exact hboard.2 hcleared
    · rw [Cleared, entry_setBoard_of_ne he] at hcleared
      exact absurd hcleared (WriteAudit.not_cleared rfl rfl)
  | flushAll f =>
    obtain ⟨-, rfl⟩ := step_flushAll_eq_some.mp hservice
    have hsame : ∀ e, ((s.service.flushAll f).entry e).board.flushAttempts
        = (s.service.entry e).board.flushAttempts ∧
        ((s.service.flushAll f).entry e).board.persistenceDegraded
        = (s.service.entry e).board.persistenceDegraded := by
      intro e
      rw [entry, boards_flushAll]
      split_ifs
      · rw [World.flush, World.put_insts_self, Instance.board_flush]
        exact ⟨rfl, rfl⟩
      · exact ⟨rfl, rfl⟩
    refine ⟨fun e ↦ ?_, fun e hcleared ↦ ?_⟩
    · obtain ⟨hattempts, hdegraded⟩ := hsame e
      exact ⟨by rw [hattempts, hdegraded]; exact (h e).attempts,
        by rw [hdegraded]; exact (h e).degraded, (h e).written, (h e).dated, (h e).wrote⟩
    · exact absurd hcleared (WriteAudit.not_cleared (hsame e).1 (hsame e).2)

/-- A run of the audited service is a run of the service. -/
theorem reaches_service {ok : Audited → ServiceAction → Prop} (h : (machine cfg).Reaches ok s) :
    (StrokeService.machine cfg).Reaches Machine.anyStep s.service := by
  obtain ⟨s₀, hinit, hsteps⟩ := h
  refine ⟨s₀.service, hinit.1, hsteps.simulate fun u a v _ hs ↦ ?_⟩
  obtain ⟨service, hservice, rfl⟩ := Option.map_eq_some_iff.mp hs
  exact .single (a := a) trivial hservice

/-- **Degraded health is cleared by a write**, in every run in which no drain with an empty batch
ends on a board with failures, nor one whose `insertBatch` a failure has come after. Until something
is written the service is not healthy. Every drain that ends on a board with failures clears them,
so it depends on the drain alone whether that is right. -/
theorem degraded_cleared_by_write (h : (machine cfg).Reaches Vouched s) :
    (∀ b, (s.audits b).exhausted = true → s.service.isPersistenceHealthy = false) ∧
    (∀ a s', s.step cfg a = some s' → s.Vouched a → ∀ b, s.Cleared s' b →
      ∃ d, (s.audits b).wrote d = true) ∧
    ∀ b d s', s.step cfg (.board b (.drain d .resolve)) = some s' →
      0 < (s.service.entry b).board.flushAttempts → s.Cleared s' b := by
  have hhonest : s.Honest :=
    h.invariant (fun _ ↦ .of_init) fun _ _ _ hu hok hs ↦ (hu.step hs hok).1
  refine ⟨fun b hexhausted ↦ ?_, fun a s' hs hvouched ↦ (hhonest.step hs hvouched).2,
    fun b d s' hs hfailed ↦ ?_⟩
  · have hdegraded := (hhonest b).degraded hexhausted
    refine isPersistenceHealthy_eq_false ?_ hdegraded
    by_contra hb
    rw [Instance.board, state_of_not_known (reaches_service h) b hb] at hdegraded
    cases hdegraded
  · obtain ⟨service, hservice, rfl⟩ := Option.map_eq_some_iff.mp hs
    obtain ⟨w, hw, rfl⟩ := step_board_eq_some.mp hservice
    obtain ⟨log, inst, hstep, rfl⟩ := World.step_eq_some.mp hw
    rw [Cleared, entry_setBoard_self, World.put_insts_self]
    exact WriteAudit.cleared_of_resolve (.of_step hstep) hfailed

/-! ## A flush that wipes out a failure -/

/-- Nobody has used the service, and nothing has been written. -/
def start : Audited := ⟨StrokeService.start, fun _ ↦ {}⟩

theorem init_start : start.init := ⟨init_startOver _, fun _ ↦ rfl⟩

/-- No retries. -/
def noRetries : Config :=
  StrokeServiceDeps.config
    { flushIntervalMs := 2000, flushBatchSize := 1, maxFlushRetries := some 0 }

/-- The first write fails, the board is degraded, and its retry has the stroke in flight. -/
def retryingRun : List Action :=
  sampleRestore ++ [.resume "a" 5 0, .drain 0 .fail, .drain 0 .reject, .retryFires 1]

private def recovered (s : Audited) : Bool := s.service.isPersistenceHealthy

/-- The retry succeeds. -/
theorem degraded_cleared_by_write_retrying : ∃ s, (machine noRetries).exec start
      (onBoard "board-1" (retryingRun ++ [.drain 1 .insert, .drain 1 .insertResolves,
        .drain 1 .touchResolves, .drain 1 .resolve])) = some s ∧
    s.service.isPersistenceHealthy = true ∧
    ((s.audits "board-1").exhausted = true → s.service.isPersistenceHealthy = false) := by
  obtain ⟨s, hexec, hsteps, hp⟩ : ∃ s, (machine noRetries).exec start
      (onBoard "board-1" (retryingRun ++ [.drain 1 .insert, .drain 1 .insertResolves,
        .drain 1 .touchResolves, .drain 1 .resolve])) = some s ∧
      (machine noRetries).Steps Vouched start s ∧ recovered s = true :=
    Machine.exists_of_guarded_any _ _ (by decide +kernel)
  exact ⟨s, hexec, hp, (degraded_cleared_by_write ⟨_, init_start, hsteps⟩).1 "board-1"⟩

/-- A flush that finds the buffer empty clears the flag while the stroke is still in flight. -/
theorem cleared_without_write : ∃ s s', (machine noRetries).Reaches Machine.anyStep s ∧
    s.step noRetries (.board "board-1" (.drain 2 .resolve)) = some s' ∧
    (s.service.entry "board-1").board.persistenceDegraded = true ∧
    (s'.service.entry "board-1").board.persistenceDegraded = false ∧
    (∀ d, (s.audits "board-1").wrote d = false) ∧
    (s'.audits "board-1").exhausted = true ∧ s'.service.isPersistenceHealthy = true ∧
    ∃ k ∈ (s'.service.log "board-1").accepted,
      ¬ (s'.service.boards "board-1").custody.Stored k := by
  obtain ⟨s, hexec, hsteps, -⟩ := Machine.exists_of_exec start (M := machine noRetries)
    (p := fun _ ↦ true) (onBoard "board-1" (retryingRun ++ [.flush 2])) (by decide +kernel)
  cases hexec
  refine ⟨_, _, ⟨start, init_start, hsteps⟩, rfl, rfl, rfl, fun _ ↦ rfl, rfl, rfl,
    ⟨sampleSegment, "a", 1, "ada", 5⟩, ?_⟩
  decide

end Audited

end Synapse
