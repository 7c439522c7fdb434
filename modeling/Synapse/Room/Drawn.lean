import Synapse.Room.Provenance

/-!
# What becomes of a drawn segment

A session commits its own segment before the server has heard of it, and nothing ever tells it which
stroke the segment became. What connects the two is the path of the draw: the message, the call of
`append` that awaits the restore of the board, and the stroke it is accepted as. The invariant is
`Drawn`: the draw of every segment in a scene is still on this path, or has been issued.

The path ends early when a draw is rejected, when its connection goes, and when the restore fails,
since nobody retries the call. `calm` excludes the three, along with the failure of a load.
-/

namespace Synapse

open Transition

/-! ## The calls that await the service -/

namespace Instance

variable {cfg : Config} {log log' : BoardLog} {inst inst' : Instance} {a : Action} {c : Caller}

/-- The calls that await the restore or have yet to resume. -/
def callers (inst : Instance) : List Caller := inst.ready ++ inst.waiting

theorem mem_callers_ensureInitialized (caller : Caller) :
    c ∈ (inst.ensureInitialized caller).callers ↔ c ∈ inst.callers ∨ c = caller := by
  unfold ensureInitialized callers
  split
  · simp [setInitPromise, setBoard, setWaiting, or_assoc]
  · simp [setReady, or_assoc, or_comm]
  · simp [setWaiting, or_assoc]

theorem Step.mem_callers (h : Step cfg log inst a log' inst') (hc : c ∈ inst.callers)
    (hfail : a ≠ .restore .fail)
    (hresume : ∀ id ts d, a = .resume id ts d → inst.ready.head? ≠ some c) :
    c ∈ inst'.callers := by
  have hrest : ∀ {first ready}, inst.ready = first :: ready → first ≠ c →
      c ∈ ready ++ inst.waiting := by
    intro first ready hready hne
    rw [callers, hready, List.cons_append, List.mem_cons] at hc
    exact hc.resolve_left hne.symm
  cases h with
  | append | maybeCompact => exact (mem_callers_ensureInitialized _).mpr (Or.inl hc)
  | resumeAppend id ts d call userId seg ready hready =>
    have hne := hresume id ts d rfl
    rw [hready] at hne
    rw [Instance.callers, ready_push, waiting_push]
    exact hrest hready fun h ↦ hne (congrArg some h)
  | resumeCompact id ts d e ready hready =>
    have hne := hresume id ts d rfl
    rw [hready] at hne
    exact hrest hready fun h ↦ hne (congrArg some h)
  | flush | timerFires =>
    rw [Instance.callers, ready_flush, waiting_flush]
    exact hc
  | restoreFinish =>
    change c ∈ (inst.ready ++ inst.waiting) ++ []
    rwa [List.append_nil]
  | restoreFail => exact absurd rfl hfail
  | _ => exact hc

end Instance

/-- Whether the action is a failure that its caller does not recover from. -/
def Action.fails : Action → Bool
  | .restore .fail | .load _ .fail => true
  | _ => false

namespace Room

variable {κ : Type*} {r r' : Room κ} {i : κ} {n : ℕ}

/-- Whether the next message of client `i` is a draw that will be dropped. -/
def rejects (r : Room κ) (i : κ) : Bool :=
  match (r.sockets i).up with
  | .draw _ _ :: _ => !(r.sockets i).inRoom
  | _ => false

/-- Whether the step neither rejects a draw nor loses a connection, a restore or a load. -/
def calm (r : Room κ) : RoomAction κ → Bool
  | .disconnect _ => false
  | .receive i _ => !r.rejects i
  | .service b => !b.fails
  | _ => true

theorem ne_disconnect_of_calm {a : RoomAction κ} (hcalm : r.calm a) : a ≠ .disconnect i := by
  rintro rfl
  cases hcalm

theorem ne_fail_of_calm {a : RoomAction κ} (hcalm : r.calm a) (l : ℕ) :
    a ≠ .service (.load l .fail) := by
  rintro rfl
  cases hcalm

/-- Draw `n` of client `i` is on its way to `append` or awaits it. -/
inductive Underway (r : Room κ) (i : κ) (n : ℕ) : Prop
  | sent (seg : StrokeSegment) (h : .draw n seg ∈ (r.sockets i).up)
  | called (call : ℕ) (userId : String) (seg : StrokeSegment) (attached : Bool)
      (h : .append call userId seg ∈ (r.board.insts ()).callers)
      (hauthor : r.authors[call]? = some ⟨i, n, attached⟩)

/-- Draw `n` of client `i` has become a stroke. -/
def Issued (r : Room κ) (i : κ) (n : ℕ) : Prop := ∃ k, ⟨i, n, k⟩ ∈ r.issued

/-- Every segment drawn is on the path of its draw, and every draw on that path is shown. -/
structure Drawn (r : Room κ) : Prop where
  scene : ∀ i n seg, .drawn n seg ∈ (r.sessions i).scene → r.Underway i n ∨ r.Issued i n
  up : ∀ i n seg, .draw n seg ∈ (r.sockets i).up → .drawn n seg ∈ (r.sessions i).scene
  authors : ∀ x ∈ r.authors, ∃ seg, .drawn x.draw seg ∈ (r.sessions x.client).scene

theorem Drawn.of_init (h : r.init) : r.Drawn := by
  obtain ⟨-, hsessions, hsockets, -, hauthors, -⟩ := h
  constructor
  · simp [hsessions]
  · simp [hsockets]
  · simp [hauthors]

variable [DecidableEq κ] {cfg : Config} {userOf : κ → String} {a : RoomAction κ}

/-! ## A calm step -/

theorem Step.authors (h : Step cfg userOf r a r') (hcalm : r.calm a) :
    r'.authors = r.authors ∨ ∃ i draw seg, r'.authors = r.authors ++ [⟨i, draw, true⟩] ∧
      .draw draw seg ∈ (r.sockets i).up := by
  cases h with
  | disconnect => cases hcalm
  | receiveDraw i l draw seg up hup => exact Or.inr ⟨i, draw, seg, rfl, by simp [hup]⟩
  | _ => exact Or.inl rfl

theorem Step.author (h : Step cfg userOf r a r') (hcalm : r.calm a) {call : ℕ} {x : Author κ}
    (hx : r.authors[call]? = some x) : r'.authors[call]? = some x := by
  rcases h.authors hcalm with hsame | ⟨i, draw, seg, hnew, -⟩
  · rw [hsame, hx]
  · obtain ⟨hlt, -⟩ := List.getElem?_eq_some_iff.mp hx
    rw [hnew, List.getElem?_append_left hlt, hx]

theorem Step.mem_callers (h : Step cfg userOf r a r') (hcalm : r.calm a) {c : Caller}
    (hc : c ∈ (r.board.insts ()).callers)
    (hresume : ∀ id ts d, a = .resume id ts d → (r.board.insts ()).ready.head? ≠ some c) :
    c ∈ (r'.board.insts ()).callers := by
  have hsteps : (World.machine fun _ ↦ cfg).Steps (fun u b ↦ b.2 ≠ .restore .fail ∧
      ∀ id ts d, b.2 = .resume id ts d → (u.insts ()).ready.head? ≠ some c) r.board r'.board := by
    apply h.board
    · intro u b hb
      constructor
      · rintro rfl
        cases hb
      · rintro id ts d rfl
        cases hb
    · intro b hb
      constructor
      · rintro rfl
        cases a <;> cases hb
        cases hcalm
      · rintro id ts d rfl
        cases a <;> cases hb
        · exact hresume id ts d rfl
        · cases h with
          | service _ hinternal => cases hinternal
  refine hsteps.invariant (P := fun u ↦ c ∈ (u.insts ()).callers) hc fun u b v hu hb hs ↦ ?_
  obtain ⟨_, b⟩ := b
  change u.step (fun _ ↦ cfg) ((), b) = some v at hs
  obtain ⟨log, inst, hstep, rfl⟩ := World.step_eq_some.mp hs
  exact (Instance.Step.of_step hstep).mem_callers hu hb.1 hb.2

/-- A call that awaits the service still does after a calm step, or its draw is issued. -/
theorem Step.called (h : Step cfg userOf r a r') (hcalm : r.calm a) {call : ℕ} {userId : String}
    {seg : StrokeSegment} {attached : Bool}
    (hcall : .append call userId seg ∈ (r.board.insts ()).callers)
    (hauthor : r.authors[call]? = some ⟨i, n, attached⟩) : r'.Underway i n ∨ r'.Issued i n := by
  by_cases hresumes : (∃ id ts d, a = .resume id ts d) ∧
      (r.board.insts ()).ready.head? = some (.append call userId seg)
  · obtain ⟨⟨id, ts, d, rfl⟩, hhead⟩ := hresumes
    refine Or.inr ?_
    obtain ⟨ready, hready⟩ := List.head?_eq_some_iff.mp hhead
    cases h with
    | resumeAppend _ _ _ call' k hresuming w hw =>
      obtain ⟨_, _, _, hready', -, -⟩ := exists_of_resuming hresuming hw
      cases hready.symm.trans hready'
      -- the stroke is issued to the author the call was made for
      refine ⟨k, List.mem_append_right _ ?_⟩
      simp [hauthor]
    | resumeOther _ _ _ hresuming =>
      simp [Instance.resuming, hready] at hresuming
  · have hcall' := h.mem_callers hcalm hcall fun id ts d ha hhead ↦
      hresumes ⟨⟨id, ts, d, ha⟩, hhead⟩
    exact Or.inl (.called call userId seg attached hcall' (h.author hcalm hauthor))

theorem Step.sent (h : Step cfg userOf r a r') (hcalm : r.calm a) {seg : StrokeSegment}
    (hsent : .draw n seg ∈ (r.sockets i).up) : r'.Underway i n := by
  have hkeep : .draw n seg ∈ (r'.sockets i).up → r'.Underway i n := .sent seg
  have hmove := h.clientMove i
  generalize r'.sessions i = session, hsocket : r'.sockets i = socket at hmove hkeep
  cases hmove with
  | connect | draw | reports => exact hkeep (Socket.mem_up_emit.mpr (Or.inl hsent))
  | disconnect ha =>
    subst ha
    cases hcalm
  | joins sinceSeq up hup | resyncs sinceSeq up hup =>
    rw [hup] at hsent
    exact hkeep ((List.mem_cons.mp hsent).resolve_left (by simp))
  | appends draw stroke up hup hroom hauthors hinst =>
    rw [hup, List.mem_cons] at hsent
    rcases hsent with hfirst | hsent
    · cases hfirst
      refine .called r.authors.length (userOf i) seg true ?_ ?_
      · rw [hinst]
        exact (Instance.mem_callers_ensureInitialized _).mpr (Or.inr rfl)
      · rw [hauthors, List.getElem?_concat_length]
    · exact hkeep hsent
  | rejected l draw stroke up ha hup hroom =>
    subst ha
    simp [calm, rejects, hup, hroom] at hcalm
  | _ => exact hkeep hsent

theorem Drawn.scene_step (hr : r.Drawn) (h : Step cfg userOf r a r') (hcalm : r.calm a)
    {seg : StrokeSegment} (hs : .drawn n seg ∈ (r'.sessions i).scene) :
    r'.Underway i n ∨ r'.Issued i n := by
  have hold : .drawn n seg ∈ (r.sessions i).scene → r'.Underway i n ∨ r'.Issued i n := by
    intro hs
    rcases hr.scene i n seg hs with (⟨seg', hsent⟩ | ⟨call, userId, seg', attached, hcall, hauthor⟩)
      | ⟨k, hk⟩
    · exact Or.inl (h.sent hcalm hsent)
    · exact h.called hcalm hcall hauthor
    · exact Or.inr ⟨k, h.issued_subset hk⟩
  have hsent : .draw n seg ∈ (r'.sockets i).up → r'.Underway i n := .sent seg
  have hmove := h.clientMove i
  generalize r'.sessions i = session, r'.sockets i = socket at hmove hs hsent
  cases hmove with
  | draw stroke =>
    rcases Session.drawn_mem_commitLocal.mp hs with hs | ⟨rfl, rfl⟩
    · exact hold hs
    · exact Or.inl (hsent (Socket.mem_up_emit.mpr (Or.inr rfl)))
  | applies => exact hold (Session.drawn_mem_commitRemote.mp hs)
  | adopts => exact hold (Session.drawn_mem_roomHistory.mp hs)
  | _ => exact hold hs

theorem Drawn.up_step (hr : r.Drawn) (h : Step cfg userOf r a r') {seg : StrokeSegment}
    (hs : .draw n seg ∈ (r'.sockets i).up) : .drawn n seg ∈ (r'.sessions i).scene := by
  have hold : .draw n seg ∈ (r.sockets i).up → .drawn n seg ∈ (r'.sessions i).scene :=
    fun hs ↦ h.scene_subset i (hr.up i n seg hs)
  have hmove := h.clientMove i
  generalize r'.sessions i = session, r'.sockets i = socket at hmove hs hold
  cases hmove with
  | draw stroke =>
    rcases Socket.mem_up_emit.mp hs with hs | heq
    · exact hold hs
    · cases heq
      exact Session.drawn_mem_commitLocal.mpr (Or.inr ⟨rfl, rfl⟩)
  | connect | reports =>
    rcases Socket.mem_up_emit.mp hs with hs | heq
    · exact hold hs
    · cases heq
  | disconnect => cases hs
  | joins _ _ hup | appends _ _ _ hup | rejected _ _ _ _ _ hup | resyncs _ _ hup =>
    exact hold (hup ▸ List.mem_cons_of_mem _ hs)
  | _ => exact hold hs

/-- **A calm step keeps every draw on its path.** -/
theorem Drawn.step (hr : r.Drawn) (h : Step cfg userOf r a r') (hcalm : r.calm a) : r'.Drawn := by
  constructor
  · intro i n seg hs
    exact hr.scene_step h hcalm hs
  · intro i n seg hs
    exact hr.up_step h hs
  · intro x hx
    have hold : x ∈ r.authors → ∃ seg, .drawn x.draw seg ∈ (r'.sessions x.client).scene := by
      intro hx
      obtain ⟨seg, hseg⟩ := hr.authors x hx
      exact ⟨seg, h.scene_subset x.client hseg⟩
    rcases h.authors hcalm with hsame | ⟨i, n, seg, hnew, hsent⟩
    · exact hold (hsame ▸ hx)
    · rw [hnew, List.mem_append, List.mem_singleton] at hx
      rcases hx with hx | rfl
      · exact hold hx
      · exact ⟨seg, h.scene_subset i (hr.up i n seg hsent)⟩

end Room

end Synapse
