import Synapse.Stroke.Boards

/-!
# Graceful shutdown

`gracefulShutdown` in `index.ts` closes the HTTP listener, awaits `flushAll`, closes Socket.IO,
releases the datastores and exits, in that order. The model lets draws arrive until Socket.IO is
closed. Node calls `server.close` back only when the last connection has ended, so no draw arrives
later than that; but an `append` that awaits its restore goes on without its connection.

What `flushAll` captures is what the buffers hold when it is called. A stroke accepted later stays
in a buffer that nobody flushes again, and a batch that an earlier drain captured is not awaited.
`ShutdownSafe` says that neither happens; `stored_of_exited` is that nothing is lost then.

The forced exit after 30 seconds is not modelled: it is not the exit the guarantee is about.
-/

namespace Synapse

open Transition

/-- How far `gracefulShutdown` has come. -/
inductive ShutdownPhase
  | running
  /-- A signal has arrived; awaiting `server.close`. -/
  | closingHttp
  /-- Awaiting call `f` of `flushAll`. -/
  | flushing (f : ℕ)
  /-- Awaiting `io.close`. -/
  | closingIo
  /-- Awaiting the pool and the Redis clients. -/
  | releasing
  /-- `process.exit(0)`. -/
  | exited
  deriving DecidableEq

/-- Whether a draw event can still arrive. -/
def ShutdownPhase.socketsOpen : ShutdownPhase → Bool
  | running | closingHttp | flushing _ | closingIo => true
  | releasing | exited => false

/-- Whether `flushAll` has been called. -/
def ShutdownPhase.flushed : ShutdownPhase → Bool
  | running | closingHttp => false
  | flushing _ | closingIo | releasing | exited => true

/-- The process: the stroke service and the shutdown sequence. -/
structure Server where
  service : StrokeService
  phase : ShutdownPhase

inductive ServerAction
  /-- The draw handler passes a validated stroke on. -/
  | draw (b : String) (call : ℕ) (userId : String) (seg : StrokeSegment)
  /-- Anything else that happens to a board. -/
  | board (b : String) (a : Action)
  /-- SIGTERM or SIGINT; a second one is ignored. -/
  | signal
  /-- `server.close` has called back, and `flushAll` is called. -/
  | httpClosed (f : ℕ)
  /-- `flushAll` has resolved, or rejected and been logged. -/
  | flushAllSettled
  | ioClosed
  | exit
  deriving DecidableEq

/-- Whether the action is the failure of a write of a drain. -/
def ServerAction.failsWrite : ServerAction → Bool
  | .board _ (.drain _ .fail) => true
  | _ => false

namespace Server

variable (cfg : Config) (s : Server)

/-- Every flush of call `f` has settled. -/
def FlushAllSettled (f : ℕ) : Prop :=
  ∀ b ∈ (s.service.flushAlls f).getD [],
    (s.service.entry b).drains f = some .resolved ∨ (s.service.entry b).drains f = some .rejected

instance (f : ℕ) : Decidable (s.FlushAllSettled f) :=
  inferInstanceAs (Decidable (∀ b ∈ _, _ ∨ _))

/-- Replaces the service by what one of its steps leads to. -/
def withService (a : ServiceAction) : Option Server :=
  (s.service.step cfg a).map fun service ↦ { s with service }

/-- The `await` of `flushAll` ends. -/
def leaveFlushAll : Option Server :=
  match s.phase with
  | .flushing f => if s.FlushAllSettled f then some { s with phase := .closingIo } else none
  | _ => none

def step : ServerAction → Option Server
  | .draw b call userId seg =>
    if s.phase.socketsOpen then s.withService cfg (.board b (.append call userId seg)) else none
  | .board b a =>
    if s.phase ≠ .exited ∧ a.isAppend = false then s.withService cfg (.board b a) else none
  | .signal => some (if s.phase = .running then { s with phase := .closingHttp } else s)
  | .httpClosed f =>
    if s.phase = .closingHttp then { s with phase := .flushing f }.withService cfg (.flushAll f)
    else none
  | .flushAllSettled => s.leaveFlushAll
  | .ioClosed => if s.phase = .closingIo then some { s with phase := .releasing } else none
  | .exit => if s.phase = .releasing then some { s with phase := .exited } else none

def init : Prop := s.service.init ∧ s.phase = .running

def machine : Machine Server ServerAction := ⟨init, step cfg⟩

variable {cfg s} {s' : Server} {a : ServerAction}

/-! ## What a step does -/

/-- What a step does to the service and to the shutdown sequence. -/
inductive Move (cfg : Config) (s : Server) : ServerAction → Server → Prop
  | draw {s' : Server} (b : String) (call : ℕ) (userId : String) (seg : StrokeSegment)
      (hstep : s.service.step cfg (.board b (.append call userId seg)) = some s'.service)
      (hphase : s'.phase = s.phase) (hlive : s.phase ≠ .exited) :
      Move cfg s (.draw b call userId seg) s'
  | board {s' : Server} (b : String) (x : Action)
      (hstep : s.service.step cfg (.board b x) = some s'.service)
      (hphase : s'.phase = s.phase) (hlive : s.phase ≠ .exited) : Move cfg s (.board b x) s'
  | flushAll {s' : Server} (f : ℕ) (hstep : s.service.step cfg (.flushAll f) = some s'.service)
      (hphase : s.phase = .closingHttp) (hphase' : s'.phase = .flushing f) :
      Move cfg s (.httpClosed f) s'
  | advance {a : ServerAction} {s' : Server} (hservice : s'.service = s.service)
      (hflushed : s'.phase.flushed → s.phase.flushed) (hexit : s'.phase = .exited →
        a = .exit ∨ s.phase = .exited) : Move cfg s a s'

theorem move_of_step (h : s.step cfg a = some s') : Move cfg s a s' := by
  cases a with
  | draw b call userId seg =>
    obtain ⟨hopen, h⟩ := Option.ite_none_right_eq_some.mp h
    obtain ⟨service, hstep, rfl⟩ := Option.map_eq_some_iff.mp h
    refine .draw b call userId seg hstep rfl fun hexited ↦ ?_
    rw [hexited] at hopen
    cases hopen
  | board b x =>
    obtain ⟨⟨hlive, -⟩, h⟩ := Option.ite_none_right_eq_some.mp h
    obtain ⟨service, hstep, rfl⟩ := Option.map_eq_some_iff.mp h
    exact .board b x hstep rfl hlive
  | signal =>
    cases h
    split_ifs with hrunning
    · exact .advance rfl (by intro h; cases h) (by intro h; cases h)
    · exact .advance rfl id Or.inr
  | httpClosed f =>
    obtain ⟨hphase, h⟩ := Option.ite_none_right_eq_some.mp h
    obtain ⟨service, hstep, rfl⟩ := Option.map_eq_some_iff.mp h
    exact .flushAll f hstep hphase rfl
  | flushAllSettled =>
    change s.leaveFlushAll = some s' at h
    unfold leaveFlushAll at h
    split at h
    · next f hphase =>
      obtain ⟨-, h⟩ := Option.ite_none_right_eq_some.mp h
      cases h
      exact .advance rfl (fun _ ↦ by rw [hphase]; rfl) (by intro h; cases h)
    · cases h
  | ioClosed =>
    obtain ⟨hphase, h⟩ := Option.ite_none_right_eq_some.mp h
    cases h
    exact .advance rfl (fun _ ↦ by rw [hphase]; rfl) (by intro h; cases h)
  | exit =>
    obtain ⟨hphase, h⟩ := Option.ite_none_right_eq_some.mp h
    cases h
    exact .advance rfl (fun _ ↦ by rw [hphase]; rfl) fun _ ↦ Or.inl rfl

theorem steps_service {ok : Server → ServerAction → Prop} (h : (machine cfg).Steps ok s s') :
    (StrokeService.machine cfg).Steps Machine.anyStep s.service s'.service := by
  refine h.simulate (f := Server.service) fun u a v _ hstep ↦ ?_
  cases move_of_step hstep with
  | draw b call userId seg hstep =>
    exact .single (a := .board b (.append call userId seg)) trivial hstep
  | board b x hstep => exact .single (a := .board b x) trivial hstep
  | flushAll f hstep => exact .single (a := .flushAll f) trivial hstep
  | advance hservice =>
    rw [hservice]
    exact .refl

/-! ## What shutdown keeps -/

/-- The two things that must not happen: an `append` going on after `flushAll` was called, and the
exit overtaking an insert. -/
def ShutdownSafe (s : Server) : ServerAction → Prop
  | .board b (.resume _ _ _) => s.phase.flushed → (s.service.entry b).resumesAppend = false
  | .exit => ∀ b d batch, (s.service.entry b).drains d ≠ some (.inserting batch)
  | _ => True

/-- The runs in which every write succeeds and shutdown is safe. -/
def SafeRun (s : Server) (a : ServerAction) : Prop := a.failsWrite = false ∧ s.ShutdownSafe a

/-- From the call of `flushAll` on, a safe run keeps every buffer empty. -/
def Drained (s : Server) : Prop := s.phase.flushed → ∀ b, (s.service.entry b).buffer = []

/-- A board step that neither resumes an append nor fails a drain leaves an empty buffer empty. -/
theorem buffer_of_step {w w' : World Unit} {x : Action}
    (h : w.step (fun _ ↦ cfg) ((), x) = some w') (hbuffer : (w.insts ()).buffer = [])
    (hresume : ∀ id ts d, x = .resume id ts d → (w.insts ()).resumesAppend = false)
    (hfail : ∀ d, x ≠ .drain d .fail) : (w'.insts ()).buffer = [] := by
  obtain ⟨log, inst, hstep, rfl⟩ := World.step_eq_some.mp h
  rw [World.put_insts_self]
  have heffect := (Instance.Step.of_step hstep).effect
  cases heffect with
  | quiet hheld | ensure hheld | setSnapshot _ _ _ hheld | insert _ _ hheld
  | prune _ _ _ _ _ hheld => exact (congrFun hheld none).trans hbuffer
  | accept k _ hready | acceptCapture k _ hready =>
    rw [hresume _ _ _ rfl] at hready
    cases hready
  | capture d _ _ hheld => exact (congrFun hheld none).trans (Function.update_self _ _ _)
  | release d _ hheld =>
    exact (congrFun hheld none).trans ((Function.update_of_ne (by simp) _ _).trans hbuffer)
  | rebuffer d => exact absurd rfl (hfail d)

theorem buffer_flushAll {ok : StrokeService → ServiceAction → Prop} {service : StrokeService}
    (hs : (StrokeService.machine cfg).Reaches ok service) (f : ℕ) (b : String) :
    ((service.flushAll f).entry b).buffer = [] := by
  rw [StrokeService.entry, StrokeService.boards_flushAll]
  split_ifs with hb
  · rw [World.flush, World.put_insts_self, Instance.buffer, Instance.board_flush]
  · exact Instance.buffer_of_unseen (StrokeService.state_of_not_known hs b hb)

/-- **A step of a safe run keeps the buffers empty.** -/
theorem Drained.step (hd : s.Drained)
    (hs : (StrokeService.machine cfg).Reaches Machine.anyStep s.service) (hsafe : s.SafeRun a)
    (h : s.step cfg a = some s') : s'.Drained := by
  -- a draw is a board step too, so the two cases share this
  have hboard : ∀ {b x}, s.service.step cfg (.board b x) = some s'.service → s'.phase = s.phase →
      (∀ id ts d, x = .resume id ts d → s.phase.flushed →
        (s.service.entry b).resumesAppend = false) → (∀ d, x ≠ .drain d .fail) → s'.Drained := by
    intro b x hstep hphase hresume hfail hflushed b'
    rw [hphase] at hflushed
    obtain ⟨w, hw, hservice⟩ := StrokeService.step_board_eq_some.mp hstep
    rw [hservice, StrokeService.entry]
    by_cases hb : b' = b
    · subst hb
      rw [StrokeService.setBoard_boards_self]
      exact buffer_of_step hw (hd hflushed b') (fun id ts d hx ↦ hresume id ts d hx hflushed) hfail
    · rw [StrokeService.setBoard_boards_of_ne hb]
      exact hd hflushed b'
  cases move_of_step h with
  | draw b call userId seg hstep hphase =>
    exact hboard hstep hphase (by simp) (by simp)
  | board b x hstep hphase =>
    refine hboard hstep hphase (fun id ts d hx ↦ ?_) fun d hx ↦ ?_
    · subst hx
      exact hsafe.2
    · subst hx
      cases hsafe.1
  | flushAll f hstep _ hphase =>
    obtain ⟨-, hservice⟩ := StrokeService.step_flushAll_eq_some.mp hstep
    intro _ b
    rw [hservice]
    exact buffer_flushAll hs f b
  | advance hservice hflushed =>
    intro h b
    rw [hservice]
    exact hd (hflushed h) b

/-- With the buffers empty and no insert under way, everything accepted is stored. -/
theorem stored_of_drained {ok : StrokeService → ServiceAction → Prop} {service : StrokeService}
    (hs : (StrokeService.machine cfg).Reaches ok service) {b : String}
    (hbuffer : (service.entry b).buffer = [])
    (hinsert : ∀ d batch, (service.entry b).drains d ≠ some (.inserting batch)) :
    ∀ k ∈ (service.log b).accepted, (service.boards b).custody.Stored k := by
  have hw := (StrokeService.owned_of_reaches hs b).accounted
  have hwritten : (service.boards b).BatchesWritten := by
    intro d k hk
    change k ∈ (service.entry b).batch d at hk
    rcases hphase : (service.entry b).drains d with _ | phase
    · rw [Instance.batch_of_idle hphase] at hk
      cases hk
    · rw [Instance.batch_eq hphase] at hk
      cases phase with
      | inserting batch => exact absurd hphase (hinsert d batch)
      | inserted batch => exact hw.written () d batch (Or.inl hphase) k hk
      | touching batch => exact hw.written () d batch (Or.inr hphase) k hk
      | succeeded | failed | resolved | rejected => cases hk
  intro k hk
  rcases World.stored_or_buffered hw hwritten hk with hk | hk
  · exact hk
  · rw [show ((service.boards b).insts ()).buffer = [] from hbuffer] at hk
    cases hk

/-- Everything the service ever accepted is stored. -/
def AllStored (s : Server) : Prop :=
  ∀ b, ∀ k ∈ (s.service.log b).accepted, (s.service.boards b).custody.Stored k

/-- **Graceful shutdown.** In every run in which all writes succeed, no append goes on once
`flushAll` has been called and the exit does not overtake an insert, everything accepted is stored
when the process exits. -/
theorem allStored_of_exited (h : (machine cfg).Reaches SafeRun s) (hexit : s.phase = .exited) :
    s.AllStored := by
  have hinv := h.invariant
    (P := fun s ↦ (StrokeService.machine cfg).Reaches Machine.anyStep s.service ∧ s.Drained ∧
      (s.phase = .exited → s.AllStored)) (fun s hs ↦ ?_) fun s a s' hs hsafe hstep ↦ ?_
  · exact hinv.2.2 hexit
  · refine ⟨.init hs.1, fun hflushed ↦ ?_, fun hexited ↦ ?_⟩
    · rw [hs.2] at hflushed
      cases hflushed
    · rw [hs.2] at hexited
      cases hexited
  · obtain ⟨hreaches, hdrained, hstored⟩ := hs
    have hdrained' := hdrained.step hreaches hsafe hstep
    have hreaches' := hreaches.trans (steps_service (.single hsafe hstep))
    refine ⟨hreaches', hdrained', fun hexited ↦ ?_⟩
    cases move_of_step hstep with
    | draw _ _ _ _ _ hphase hlive | board _ _ _ hphase hlive =>
      exact absurd (hphase.symm.trans hexited) hlive
    | flushAll _ _ _ hphase =>
      rw [hphase] at hexited
      cases hexited
    | advance hservice hflushed hexit =>
      -- either this is the exit, where the drained buffers are looked at, or it was before
      rcases hexit hexited with rfl | hbefore
      · have hflushed' : s.phase.flushed := hflushed (by rw [hexited]; rfl)
        intro b
        rw [hservice]
        exact stored_of_drained hreaches (hdrained hflushed' b) (hsafe.2 b)
      · intro b
        rw [hservice]
        exact hstored hbefore b

/-- The process at start-up, over the rows of `stores`. -/
def start (stores : String → BoardStore) : Server := ⟨.startOver stores, .running⟩

theorem init_start (stores : String → BoardStore) : (start stores).init :=
  ⟨StrokeService.init_startOver stores, rfl⟩

/-- A process over a database with a stored stroke is terminated before anybody joins. -/
theorem allStored_of_idle_shutdown : ∃ s, (machine (sampleConfig 9 9)).exec
      (start fun _ ↦ sampleStoreOf 1) [.signal, .httpClosed 0, .flushAllSettled, .ioClosed, .exit]
        = some s ∧
    sampleStroke 1 ∈ (s.service.log "board-1").accepted ∧ s.AllStored := by
  refine ⟨_, rfl, by decide, ?_⟩
  have hsignal : (machine (sampleConfig 9 9)).Steps SafeRun (start fun _ ↦ sampleStoreOf 1) _ :=
    .single (a := .signal) ⟨rfl, trivial⟩ rfl
  have hflushing := hsignal.tail (a := ServerAction.httpClosed 0) ⟨rfl, trivial⟩ rfl
  have hsettled := hflushing.tail (a := ServerAction.flushAllSettled) ⟨rfl, trivial⟩ rfl
  have hreleasing := hsettled.tail (a := ServerAction.ioClosed) ⟨rfl, trivial⟩ rfl
  have hexited := hreleasing.tail (a := ServerAction.exit)
    ⟨rfl, fun b d batch h ↦ by cases h⟩ rfl
  exact allStored_of_exited ⟨_, init_start _, hexited⟩ rfl

/-! ## A stroke accepted while the flush is under way -/

def onBoard (b : String) (as : List Action) : List ServerAction := as.map (.board b)

/-- Ada's draw is buffered. Bob's is the first on another board, and its `append` awaits the restore
of that board when the signal arrives. Both leave, so `server.close` calls back, and `flushAll`
captures what is buffered: Ada's stroke. While its insert is under way the restore ends, and the
`append` puts Bob's stroke into a buffer that is not flushed again. -/
def lateAppendRun : List ServerAction :=
  .draw "board-1" 0 "ada" sampleSegment ::
    onBoard "board-1" [.restore .ensure, .restore .readSnapshotSeq, .restore .readTail,
      .restore .finish, .resume "a" 5 0] ++
    [.draw "board-2" 1 "bob" sampleSegment, .signal, .httpClosed 0] ++
    onBoard "board-1" [.drain 0 .insert] ++
    onBoard "board-2" [.restore .ensure, .restore .readSnapshotSeq, .restore .readTail,
      .restore .finish, .resume "b" 6 1] ++
    onBoard "board-1" [.drain 0 .insertResolves, .drain 0 .touchResolves, .drain 0 .resolve] ++
    onBoard "board-2" [.drain 0 .resolve] ++
    [.flushAllSettled, .ioClosed, .exit]

/-- Bob's stroke is lost, although no write fails and nobody draws after the signal. -/
theorem late_append_lost : ∃ s k,
    (machine (sampleConfig 9 9)).exec (start fun _ ↦ sampleStore) lateAppendRun = some s ∧
      (∀ a ∈ lateAppendRun, a.failsWrite = false) ∧ s.phase = .exited ∧
      k ∈ (s.service.log "board-2").accepted ∧
      ¬ (s.service.boards "board-2").custody.Stored k := by
  refine ⟨_, ⟨sampleSegment, "b", 1, "bob", 6⟩, rfl, ?_⟩
  decide

end Server

end Synapse
