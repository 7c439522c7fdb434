import Synapse.Room.Model

/-!
# The ways a room can take a step

`Room.Step` lists the ways in which `Room.step` can succeed, with the step of the service each of
them contains, and `Room.Step.of_step` is the inversion.
-/

namespace Synapse

open Transition

/-- The three ways in which a session handles a live stroke. -/
theorem Session.draw_cases (session : Session) (k : PersistedStroke) :
    (k.seq ≤ session.resync.lastAppliedSeq ∧ session.draw k = (session, none)) ∨
    (k.seq = session.resync.lastAppliedSeq + 1 ∧
      session.draw k = ({ session with resync := ⟨k.seq⟩ }.commitRemote k, none)) ∨
    (session.resync.lastAppliedSeq + 1 < k.seq ∧
      session.draw k = (session, some session.resync.lastAppliedSeq)) := by
  unfold draw
  rcases session.resync.ingest_cases k with ⟨h, hi⟩ | ⟨h, hi⟩ | ⟨h, hi⟩ <;> rw [hi]
  · exact Or.inl ⟨h, rfl⟩
  · exact Or.inr (Or.inl ⟨h, rfl⟩)
  · exact Or.inr (Or.inr ⟨h, rfl⟩)

/-- A session applies a live stroke. -/
def Session.apply (session : Session) (k : PersistedStroke) : Session :=
  { session with resync := ⟨k.seq⟩ }.commitRemote k

/-- Whether the action only calls the service, or takes its reply. -/
def Action.calls : Action → Bool
  | .append _ _ _ | .loadForJoin _ _ | .load _ (.resolve _) => true
  | _ => false

variable {κ : Type*}

/-- The service's own part of the action, if it has one. -/
def RoomAction.ofService : RoomAction κ → Option Action
  | .resume id ts d => some (.resume id ts d)
  | .service a => some a
  | _ => none

namespace Room

variable [DecidableEq κ]

/-- Every way in which a room can take a step, with what it does. -/
inductive Step (cfg : Config) (userOf : κ → String) (r : Room κ) : RoomAction κ → Room κ → Prop
  | connect (i : κ) : Step cfg userOf r (.connect i)
      (r.setSocket i ((r.sockets i).emit (.joinRoom (r.sessions i).resync.sinceSeq)))
  | disconnect (i : κ) : Step cfg userOf r (.disconnect i) (r.dropSocket i)
  | draw (i : κ) (stroke : StrokeSegment) : Step cfg userOf r (.draw i stroke)
      ((r.setSession i ((r.sessions i).commitLocal stroke)).setSocket i
        ((r.sockets i).emit (.draw (r.sessions i).draws stroke)))
  | receiveJoin (i : κ) (l sinceSeq : ℕ) (up : List ClientMessage)
      (hup : (r.sockets i).up = .joinRoom sinceSeq :: up) :
      Step cfg userOf r (.receive i l)
        (r.setSocket i (((r.sockets i).setUp up).join sinceSeq))
  | receiveDraw (i : κ) (l draw : ℕ) (stroke : StrokeSegment) (up : List ClientMessage)
      (hup : (r.sockets i).up = .draw draw stroke :: up) (hroom : (r.sockets i).inRoom)
      (w : World Unit) (hw : r.board.step (fun _ ↦ cfg)
        ((), .append r.authors.length (userOf i) stroke) = some w) :
      Step cfg userOf r (.receive i l)
        (((r.setSocket i ((r.sockets i).setUp up)).addAuthor ⟨i, draw, true⟩).setBoard w)
  | rejectDraw (i : κ) (l draw : ℕ) (stroke : StrokeSegment) (up : List ClientMessage)
      (hup : (r.sockets i).up = .draw draw stroke :: up) (hroom : (r.sockets i).inRoom = false) :
      Step cfg userOf r (.receive i l) (r.setSocket i ((r.sockets i).setUp up))
  | receiveResync (i : κ) (l sinceSeq : ℕ) (up : List ClientMessage)
      (hup : (r.sockets i).up = .requestResync sinceSeq :: up) (w : World Unit)
      (hw : r.board.step (fun _ ↦ cfg) ((), .loadForJoin l none) = some w) :
      Step cfg userOf r (.receive i l) (((r.setSocket i ((r.sockets i).setUp up)).setRequest l
        (some (i, .probe (normalizeSinceSeq sinceSeq)))).setBoard w)
  | presence (i : κ) (sinceSeq : Option ℕ) (l : ℕ) (harriving : sinceSeq ∈ (r.sockets i).arriving)
      (w : World Unit)
      (hw : r.board.step (fun _ ↦ cfg) ((), .loadForJoin l sinceSeq) = some w) :
      Step cfg userOf r (.presence i sinceSeq l) (((r.setSocket i
        ((r.sockets i).arrive sinceSeq)).setRequest l (some (i, .join))).setBoard w)
  | resumeAppend (id : String) (ts d call : ℕ) (stroke : PersistedStroke)
      (hresuming : (r.board.insts ()).resuming id ts = some (call, stroke)) (w : World Unit)
      (hw : r.board.step (fun _ ↦ cfg) ((), .resume id ts d) = some w) :
      Step cfg userOf r (.resume id ts d)
        (((r.broadcast r.authors[call]? stroke).issue r.authors[call]? stroke).setBoard w)
  | resumeOther (id : String) (ts d : ℕ) (hresuming : (r.board.insts ()).resuming id ts = none)
      (w : World Unit) (hw : r.board.step (fun _ ↦ cfg) ((), .resume id ts d) = some w) :
      Step cfg userOf r (.resume id ts d) (r.setBoard w)
  | resolveUnasked (l now m : ℕ) (w : World Unit)
      (hw : r.board.step (fun _ ↦ cfg) ((), .load l (.resolve now)) = some w)
      (hnone : r.requests l = none ∨ (r.setBoard w).reply l = none) :
      Step cfg userOf r (.resolve l now m) (r.setBoard w)
  | resolveReply (l now m : ℕ) (i : κ) (request : Request) (history : RoomHistory) (w : World Unit)
      (hw : r.board.step (fun _ ↦ cfg) ((), .load l (.resolve now)) = some w)
      (hrequest : r.requests l = some (i, request))
      (hreply : (r.setBoard w).reply l = some history) :
      Step cfg userOf r (.resolve l now m) (((r.setBoard w).setRequest l none).setSocket i
        ((r.sockets i).send (.roomHistory history)))
  | resolveProbe (l now m : ℕ) (i : κ) (sinceSeq : Option ℕ) (history : RoomHistory)
      (w w' : World Unit)
      (hw : r.board.step (fun _ ↦ cfg) ((), .load l (.resolve now)) = some w)
      (hrequest : r.requests l = some (i, .probe sinceSeq))
      (hreply : (r.setBoard w).reply l = some history)
      (hw' : w.step (fun _ ↦ cfg) ((), .loadForJoin m sinceSeq) = some w') :
      Step cfg userOf r (.resolve l now m)
        ((((r.setBoard w).setRequest l none).setRequest m (some (i, .delta))).setBoard w')
  | deliverIgnored (i : κ) (k : PersistedStroke) (down : List ServerMessage)
      (hdown : (r.sockets i).down = .draw k :: down)
      (hseq : k.seq ≤ (r.sessions i).resync.lastAppliedSeq) :
      Step cfg userOf r (.deliver i) (r.setSocket i ((r.sockets i).setDown down))
  | deliverApplied (i : κ) (k : PersistedStroke) (down : List ServerMessage)
      (hdown : (r.sockets i).down = .draw k :: down)
      (hseq : k.seq = (r.sessions i).resync.lastAppliedSeq + 1) :
      Step cfg userOf r (.deliver i)
        ((r.setSession i ((r.sessions i).apply k)).setSocket i ((r.sockets i).setDown down))
  | deliverGap (i : κ) (k : PersistedStroke) (down : List ServerMessage)
      (hdown : (r.sockets i).down = .draw k :: down)
      (hseq : (r.sessions i).resync.lastAppliedSeq + 1 < k.seq) :
      Step cfg userOf r (.deliver i) (r.setSocket i (((r.sockets i).setDown down).emit
        (.requestResync (r.sessions i).resync.lastAppliedSeq)))
  | deliverHistory (i : κ) (history : RoomHistory) (down : List ServerMessage)
      (hdown : (r.sockets i).down = .roomHistory history :: down) :
      Step cfg userOf r (.deliver i)
        ((r.setSession i ((r.sessions i).roomHistory history)).setSocket i
          ((r.sockets i).setDown down))
  | service (a : Action) (hinternal : a.internal) (hfail : ∀ l, a ≠ .load l .fail) (w : World Unit)
      (hw : r.board.step (fun _ ↦ cfg) ((), a) = some w) :
      Step cfg userOf r (.service a) (r.setBoard w)
  | loadFails (l : ℕ) (w : World Unit)
      (hw : r.board.step (fun _ ↦ cfg) ((), .load l .fail) = some w) :
      Step cfg userOf r (.service (.load l .fail)) ((r.setRequest l none).setBoard w)

variable {cfg : Config} {userOf : κ → String} {r r' : Room κ}

theorem setSession_self (r : Room κ) (i : κ) : r.setSession i (r.sessions i) = r := by
  rw [setSession, Function.update_eq_self]

omit [DecidableEq κ] in
theorem onBoard_eq_some {a : Action} : r.onBoard cfg a = some r' ↔
    ∃ w, r.board.step (fun _ ↦ cfg) ((), a) = some w ∧ r' = r.setBoard w := by
  rw [onBoard, Option.map_eq_some_iff]
  exact exists_congr fun w ↦ and_congr_right fun _ ↦ eq_comm

theorem Step.of_receive {i : κ} {l : ℕ} (h : r.receive cfg userOf i l = some r') :
    Step cfg userOf r (.receive i l) r' := by
  unfold receive at h
  split at h
  · cases h
  · next sinceSeq up hup =>
    cases h
    exact .receiveJoin i l sinceSeq up hup
  · next draw stroke up hup =>
    split_ifs at h with hroom
    · obtain ⟨w, hw, rfl⟩ := onBoard_eq_some.mp h
      exact .receiveDraw i l draw stroke up hup hroom w hw
    · cases h
      exact .rejectDraw i l draw stroke up hup (Bool.eq_false_of_not_eq_true hroom)
  · next sinceSeq up hup =>
    obtain ⟨w, hw, rfl⟩ := onBoard_eq_some.mp h
    exact .receiveResync i l sinceSeq up hup w hw

theorem Step.of_resolve {l now m : ℕ} (h : r.resolve cfg l now m = some r') :
    Step cfg userOf r (.resolve l now m) r' := by
  obtain ⟨r₁, h₁, h₂⟩ := Option.bind_eq_some_iff.mp h
  obtain ⟨w, hw, rfl⟩ := onBoard_eq_some.mp h₁
  split at h₂
  · next i request history hrequest hreply =>
    unfold respond at h₂
    dsimp only at h₂
    split at h₂
    · cases h₂
      exact .resolveReply l now m i _ history w hw hrequest hreply
    · cases h₂
      exact .resolveReply l now m i _ history w hw hrequest hreply
    · next sinceSeq =>
      split_ifs at h₂ with hreload
      · cases h₂
        exact .resolveReply l now m i _ history w hw hrequest hreply
      · -- the delta is enough, so the handler loads again
        obtain ⟨w', hw', rfl⟩ := onBoard_eq_some.mp h₂
        exact .resolveProbe l now m i sinceSeq history w w' hw hrequest hreply hw'
  · next hnone =>
    cases h₂
    refine .resolveUnasked l now m w hw ?_
    rcases hrequest : r.requests l with _ | ⟨i, request⟩
    · exact Or.inl rfl
    · rcases hreply : (r.setBoard w).reply l with _ | history
      · exact Or.inr rfl
      · exact absurd hreply (hnone i request history hrequest)

theorem Step.of_deliver {i : κ} (h : r.deliver i = some r') :
    Step cfg userOf r (.deliver i) r' := by
  unfold deliver at h
  split at h
  · cases h
  · next k down hdown =>
    rcases (r.sessions i).draw_cases k with ⟨hseq, hdraw⟩ | ⟨hseq, hdraw⟩ | ⟨hseq, hdraw⟩ <;>
      rw [hdraw] at h <;> cases h
    · rw [setSession_self]
      exact .deliverIgnored i k down hdown hseq
    · exact .deliverApplied i k down hdown hseq
    · rw [setSession_self]
      exact .deliverGap i k down hdown hseq
  · next history down hdown =>
    cases h
    exact .deliverHistory i history down hdown

/-- **Inversion of a step.** -/
theorem Step.of_step {a : RoomAction κ} (h : r.step cfg userOf a = some r') :
    Step cfg userOf r a r' := by
  cases a with
  | connect i =>
    cases h
    exact .connect i
  | disconnect i =>
    cases h
    exact .disconnect i
  | draw i stroke =>
    cases h
    exact .draw i stroke
  | receive i l => exact .of_receive h
  | presence i sinceSeq l =>
    obtain ⟨harriving, h'⟩ := Option.ite_none_right_eq_some.mp h
    obtain ⟨w, hw, rfl⟩ := onBoard_eq_some.mp h'
    exact .presence i sinceSeq l harriving w hw
  | resume id ts d =>
    rcases hresuming : (r.board.insts ()).resuming id ts with _ | ⟨call, stroke⟩ <;>
      simp only [step, hresuming] at h <;> obtain ⟨w, hw, rfl⟩ := onBoard_eq_some.mp h
    · exact .resumeOther id ts d hresuming w hw
    · exact .resumeAppend id ts d call stroke hresuming w hw
  | resolve l now m => exact .of_resolve h
  | deliver i => exact .of_deliver h
  | service a =>
    obtain ⟨hinternal, h'⟩ := Option.ite_none_right_eq_some.mp h
    split at h'
    · next l =>
      obtain ⟨w, hw, rfl⟩ := onBoard_eq_some.mp h'
      exact .loadFails l w hw
    · next hfail =>
      obtain ⟨w, hw, rfl⟩ := onBoard_eq_some.mp h'
      exact .service a hinternal hfail w hw

/-! ## What happens to the board -/

/-- A step of the room takes the board through steps of the service, of which only `ofService` is
more than a call or its reply. -/
theorem Step.board {ok : World Unit → Unit × Action → Prop} {a : RoomAction κ}
    (h : Step cfg userOf r a r') (hcalls : ∀ w b, b.calls → ok w ((), b))
    (hown : ∀ b ∈ a.ofService, ok r.board ((), b)) :
    (World.machine fun _ ↦ cfg).Steps ok r.board r'.board := by
  have hcall : ∀ {u v b}, b.calls → u.step (fun _ ↦ cfg) ((), b) = some v →
      (World.machine fun _ ↦ cfg).Steps ok u v := fun hb hs ↦ .single (hcalls _ _ hb) hs
  have hservice : ∀ {v b}, b ∈ a.ofService → r.board.step (fun _ ↦ cfg) ((), b) = some v →
      (World.machine fun _ ↦ cfg).Steps ok r.board v := fun hb hs ↦ .single (hown _ hb) hs
  cases h with
  | receiveDraw _ _ _ _ _ _ _ _ hw | receiveResync _ _ _ _ _ _ hw | presence _ _ _ _ _ hw
  | resolveUnasked _ _ _ _ hw | resolveReply _ _ _ _ _ _ _ hw => exact hcall rfl hw
  | resolveProbe _ _ _ _ _ _ _ _ hw _ _ hw' => exact (hcall rfl hw).trans (hcall rfl hw')
  | resumeAppend _ _ _ _ _ _ _ hw | resumeOther _ _ _ _ _ hw | service _ _ _ _ hw
  | loadFails _ _ hw => exact hservice rfl hw
  | _ => exact .refl

/-- What every step of the service preserves, every step of the room preserves. -/
theorem Step.board_invariant {P : World Unit → Prop} {a : RoomAction κ}
    (h : Step cfg userOf r a r') (hP : ∀ u b v, P u → u.step (fun _ ↦ cfg) b = some v → P v)
    (hr : P r.board) : P r'.board :=
  have hsteps : (World.machine fun _ ↦ cfg).Steps Machine.anyStep r.board r'.board :=
    h.board (fun _ _ _ ↦ trivial) fun _ _ ↦ trivial
  hsteps.invariant hr fun u b v hu _ hs ↦ hP u b v hu hs

/-! ## What happens to one client -/

/-- Load `load` is under way, or done, for a handler of client `i`. -/
def Loading (r : Room κ) (i : κ) (request : Request) (load : Load) : Prop :=
  ∃ l, r.requests l = some (i, request) ∧ (r.board.insts ()).loads l = some load

/-- What the step `a` from `r` to `r'` makes of the session and the socket of client `i`. -/
inductive ClientMove (userOf : κ → String) (r : Room κ) (a : RoomAction κ) (r' : Room κ) (i : κ) :
    Session → Socket → Prop
  | stay : ClientMove userOf r a r' i (r.sessions i) (r.sockets i)
  | connect : ClientMove userOf r a r' i (r.sessions i)
      ((r.sockets i).emit (.joinRoom (r.sessions i).resync.sinceSeq))
  | disconnect (ha : a = .disconnect i) : ClientMove userOf r a r' i (r.sessions i) {}
  | draw (stroke : StrokeSegment) : ClientMove userOf r a r' i ((r.sessions i).commitLocal stroke)
      ((r.sockets i).emit (.draw (r.sessions i).draws stroke))
  | joins (sinceSeq : ℕ) (up : List ClientMessage)
      (hup : (r.sockets i).up = .joinRoom sinceSeq :: up) :
      ClientMove userOf r a r' i (r.sessions i) (((r.sockets i).setUp up).join sinceSeq)
  /-- A draw reaches `append`. -/
  | appends (draw : ℕ) (stroke : StrokeSegment) (up : List ClientMessage)
      (hup : (r.sockets i).up = .draw draw stroke :: up) (hroom : (r.sockets i).inRoom)
      (hauthors : r'.authors = r.authors ++ [⟨i, draw, true⟩])
      (hinst : r'.board.insts () = (r.board.insts ()).ensureInitialized
        (.append r.authors.length (userOf i) stroke)) :
      ClientMove userOf r a r' i (r.sessions i) ((r.sockets i).setUp up)
  | rejected (l draw : ℕ) (stroke : StrokeSegment) (up : List ClientMessage)
      (ha : a = .receive i l) (hup : (r.sockets i).up = .draw draw stroke :: up)
      (hroom : (r.sockets i).inRoom = false) :
      ClientMove userOf r a r' i (r.sessions i) ((r.sockets i).setUp up)
  | resyncs (sinceSeq : ℕ) (up : List ClientMessage)
      (hup : (r.sockets i).up = .requestResync sinceSeq :: up)
      (hload : r'.Loading i (.probe (normalizeSinceSeq sinceSeq))
        ⟨none, r.board.log.accepted, .readingSnapshot⟩) :
      ClientMove userOf r a r' i (r.sessions i) ((r.sockets i).setUp up)
  | arrives (sinceSeq : Option ℕ) (harriving : sinceSeq ∈ (r.sockets i).arriving)
      (hload : r'.Loading i .join ⟨sinceSeq, r.board.log.accepted, .readingSnapshot⟩) :
      ClientMove userOf r a r' i (r.sessions i) ((r.sockets i).arrive sinceSeq)
  /-- The stroke that an `append` accepts is sent. -/
  | broadcast (k : PersistedStroke) (hroom : (r.sockets i).inRoom)
      (hready : (r.board.insts ()).ready ≠ []) (hseq : k.seq = (r.board.insts ()).board.nextSeq)
      (haccepted : r'.board.log.accepted = r.board.log.accepted ++ [k]) :
      ClientMove userOf r a r' i (r.sessions i) ((r.sockets i).send (.draw k))
  /-- The reply of a load is sent. -/
  | replies (l : ℕ) (request : Request) (history : RoomHistory)
      (hrequest : r.requests l = some (i, request)) (hreply : r'.reply l = some history) :
      ClientMove userOf r a r' i (r.sessions i) ((r.sockets i).send (.roomHistory history))
  | ignores (k : PersistedStroke) (down : List ServerMessage)
      (hdown : (r.sockets i).down = .draw k :: down)
      (hseq : k.seq ≤ (r.sessions i).resync.lastAppliedSeq) (ha : a = .deliver i) :
      ClientMove userOf r a r' i (r.sessions i) ((r.sockets i).setDown down)
  | applies (k : PersistedStroke) (down : List ServerMessage)
      (hdown : (r.sockets i).down = .draw k :: down)
      (hseq : k.seq = (r.sessions i).resync.lastAppliedSeq + 1) (ha : a = .deliver i) :
      ClientMove userOf r a r' i ((r.sessions i).apply k) ((r.sockets i).setDown down)
  | reports (k : PersistedStroke) (down : List ServerMessage)
      (hdown : (r.sockets i).down = .draw k :: down)
      (hseq : (r.sessions i).resync.lastAppliedSeq + 1 < k.seq) (ha : a = .deliver i) :
      ClientMove userOf r a r' i (r.sessions i) (((r.sockets i).setDown down).emit
        (.requestResync (r.sessions i).resync.lastAppliedSeq))
  | adopts (history : RoomHistory) (down : List ServerMessage)
      (hdown : (r.sockets i).down = .roomHistory history :: down) (ha : a = .deliver i) :
      ClientMove userOf r a r' i ((r.sessions i).roomHistory history)
        ((r.sockets i).setDown down)

theorem ClientMove.of_setSocket {a : RoomAction κ} {i j : κ} {socket : Socket}
    (h : ClientMove userOf r a r' i (r.sessions i) socket) :
    ClientMove userOf r a r' j (r.sessions j) ((r.setSocket i socket).sockets j) := by
  rw [sockets_setSocket]
  split_ifs with hj
  · exact hj ▸ h
  · exact .stay

theorem ClientMove.of_setSession {a : RoomAction κ} {i j : κ} {session : Session} {socket : Socket}
    (h : ClientMove userOf r a r' i session socket) :
    ClientMove userOf r a r' j ((r.setSession i session).sessions j)
      (((r.setSession i session).setSocket i socket).sockets j) := by
  rw [sockets_setSocket, sessions_setSession]
  split_ifs with hj
  · exact hj ▸ h
  · exact .stay

omit [DecidableEq κ] in
theorem loading_of_loadForJoin {u w : World Unit} {l : ℕ} {sinceSeq : Option ℕ}
    (hw : u.step (fun _ ↦ cfg) ((), .loadForJoin l sinceSeq) = some w) (i : κ) (request : Request)
    (q : Room κ) : Loading ((q.setRequest l (some (i, request))).setBoard w) i request
      ⟨sinceSeq, u.log.accepted, .readingSnapshot⟩ := by
  obtain ⟨log, inst, hstep, rfl⟩ := World.step_eq_some.mp hw
  obtain ⟨-, hstep⟩ := Option.ite_none_right_eq_some.mp hstep
  cases hstep
  exact ⟨l, Function.update_self _ _ _, Function.update_self _ _ _⟩

theorem exists_of_resuming {u w : World Unit} {id : String} {ts d call : ℕ} {k : PersistedStroke}
    (hresuming : (u.insts ()).resuming id ts = some (call, k))
    (hw : u.step (fun _ ↦ cfg) ((), .resume id ts d) = some w) :
    ∃ userId seg ready, (u.insts ()).ready = .append call userId seg :: ready ∧
      k = (u.insts ()).nextStroke userId seg id ts ∧
      w = u.put () (u.log.accept k, ((u.insts ()).setReady ready).push cfg k d) := by
  obtain ⟨log, inst, hstep, rfl⟩ := World.step_eq_some.mp hw
  have hs := Instance.Step.of_resume hstep
  unfold Instance.resuming at hresuming
  split at hresuming
  · next call' userId seg ready hready =>
    cases hresuming
    cases hs with
    | resumeAppend _ _ _ call' userId' seg' ready' hready' =>
      rw [hready] at hready'
      cases hready'
      exact ⟨userId, seg, ready, hready, rfl, rfl⟩
    | resumeCompact _ _ _ c ready' hready' =>
      rw [hready] at hready'
      cases hready'
  · cases hresuming

theorem Step.clientMove {a : RoomAction κ} (h : Step cfg userOf r a r') (j : κ) :
    ClientMove userOf r a r' j (r'.sessions j) (r'.sockets j) := by
  cases h with
  | connect i => exact .of_setSocket .connect
  | disconnect i => exact .of_setSocket (.disconnect rfl)
  | draw i stroke => exact .of_setSession (.draw stroke)
  | receiveJoin i l sinceSeq up hup => exact .of_setSocket (.joins sinceSeq up hup)
  | receiveDraw i l draw stroke up hup hroom w hw =>
    obtain ⟨_, _, hstep, rfl⟩ := World.step_eq_some.mp hw
    cases hstep
    exact .of_setSocket (.appends draw stroke up hup hroom rfl rfl)
  | rejectDraw i l draw stroke up hup hroom =>
    exact .of_setSocket (.rejected l draw stroke up rfl hup hroom)
  | receiveResync i l sinceSeq up hup w hw =>
    exact .of_setSocket (.resyncs sinceSeq up hup (loading_of_loadForJoin hw i _ _))
  | presence i sinceSeq l harriving w hw =>
    exact .of_setSocket (.arrives sinceSeq harriving (loading_of_loadForJoin hw i _ _))
  | resumeAppend id ts d call stroke hresuming w hw =>
    obtain ⟨_, _, _, hready, rfl, rfl⟩ := exists_of_resuming hresuming hw
    change ClientMove userOf r _ _ j (r.sessions j) ((r.broadcast _ _).sockets j)
    rw [sockets_broadcast]
    split_ifs with hsent
    · exact .broadcast _ hsent.1 (by simp [hready]) rfl rfl
    · exact .stay
  | resumeOther id ts d _ w hw => exact .stay
  | resolveUnasked l now m w hw => exact .stay
  | resolveReply l now m i request history w hw hrequest hreply =>
    exact .of_setSocket (.replies l request history hrequest hreply)
  | resolveProbe => exact .stay
  | deliverIgnored i k down hdown hseq => exact .of_setSocket (.ignores k down hdown hseq rfl)
  | deliverApplied i k down hdown hseq => exact .of_setSession (.applies k down hdown hseq rfl)
  | deliverGap i k down hdown hseq => exact .of_setSocket (.reports k down hdown hseq rfl)
  | deliverHistory i history down hdown => exact .of_setSession (.adopts history down hdown rfl)
  | service | loadFails => exact .stay

/-! ## What happens to a load of a handler -/

/-- The load is still under way. -/
structure Continues (load load' : Load) : Prop where
  pending : load'.phase.pending
  before : load'.before = load.before
  sinceSeq : load'.sinceSeq = load.sinceSeq

theorem Continues.trans {load₁ load₂ load₃ : Load} (h : Continues load₁ load₂)
    (h' : Continues load₂ load₃) : Continues load₁ load₃ :=
  ⟨h'.pending, h'.before.trans h.before, h'.sinceSeq.trans h.sinceSeq⟩

theorem continues_of_step {u w : World Unit} {b : Action}
    (hw : u.step (fun _ ↦ cfg) ((), b) = some w) {l : ℕ} {load : Load}
    (hload : (u.insts ()).loads l = some load) (hpending : load.phase.pending)
    (hresolve : ∀ now, b ≠ .load l (.resolve now)) (hfail : b ≠ .load l .fail) :
    ∃ load', (w.insts ()).loads l = some load' ∧ Continues load load' := by
  obtain ⟨log, inst, hstep, rfl⟩ := World.step_eq_some.mp hw
  have hmove := (Instance.Step.of_step hstep).loadMove l
  rw [hload] at hmove
  rw [World.put_insts_self]
  generalize inst.loads l = new at hmove
  cases hmove with
  | stay => exact ⟨load, rfl, hpending, rfl, rfl⟩
  | readSnapshotSeq | readRows => exact ⟨_, rfl, rfl, rfl, rfl⟩
  | resolve _ _ _ _ now ha => exact absurd ha (hresolve now)
  | fail _ ha => exact absurd ha hfail

/-- The reply is what the load, having read the rows, merges with the buffer. -/
def Merges (buffer : List PersistedStroke) (load : Load) (snapshotSeq : ℕ)
    (history : RoomHistory) : Prop :=
  ∃ persisted, load.phase = .rowsRead snapshotSeq persisted ∧
    history.strokes = mergeBufferedStrokes persisted buffer (fromSeq load.sinceSeq snapshotSeq)

theorem resolved_of_step {u w : World Unit} {l now : ℕ}
    (hw : u.step (fun _ ↦ cfg) ((), .load l (.resolve now)) = some w) :
    w.log = u.log ∧ ∃ load snapshotSeq history, (u.insts ()).loads l = some load ∧
      (w.insts ()).loads l = some { load with phase := .resolved snapshotSeq history } ∧
        Merges (u.insts ()).buffer load snapshotSeq history := by
  obtain ⟨log, inst, hstep, rfl⟩ := World.step_eq_some.mp hw
  cases Instance.Step.of_step hstep with
  | loadResolves _ load hload snapshotSeq persisted hphase =>
    exact ⟨rfl, load, snapshotSeq, _, hload, Function.update_self _ _ _, persisted, hphase, rfl⟩

theorem idle_of_loadForJoin {u w : World Unit} {l : ℕ} {sinceSeq : Option ℕ}
    (hw : u.step (fun _ ↦ cfg) ((), .loadForJoin l sinceSeq) = some w) :
    (u.insts ()).loads l = none := by
  obtain ⟨_, _, hstep, -⟩ := World.step_eq_some.mp hw
  exact (Option.ite_none_right_eq_some.mp hstep).1

omit [DecidableEq κ] in
theorem reply_eq {l snapshotSeq : ℕ} {load : Load} {history : RoomHistory}
    (h : (r.board.insts ()).loads l = some { load with phase := .resolved snapshotSeq history }) :
    r.reply l = some history := by
  rw [reply, h]
  rfl

theorem Step.loading {a : RoomAction κ} (h : Step cfg userOf r a r') {i : κ} {request : Request}
    {load : Load} (hloading : r.Loading i request load) (hpending : load.phase.pending)
    (hdisconnect : a ≠ .disconnect i) (hfail : ∀ l, a ≠ .service (.load l .fail)) :
    (∃ load', r'.Loading i request load' ∧ Continues load load') ∨
    (∃ l snapshotSeq history, (r'.board.insts ()).loads l
      = some { load with phase := .resolved snapshotSeq history } ∧
        Merges (r.board.insts ()).buffer load snapshotSeq history ∧
        .roomHistory history ∈ (r'.sockets i).down) ∨
    (∃ sinceSeq, request = .probe sinceSeq ∧
      r'.Loading i .delta ⟨sinceSeq, r.board.log.accepted, .readingSnapshot⟩) := by
  obtain ⟨l, hrequest, hload⟩ := hloading
  have hgoes {b : Action} {w : World Unit} (hw : r.board.step (fun _ ↦ cfg) ((), b) = some w)
      (hresolve : ∀ now, b ≠ .load l (.resolve now)) (hfail : b ≠ .load l .fail) :=
    continues_of_step hw hload hpending hresolve hfail
  cases h with
  | connect | draw | receiveJoin | rejectDraw | deliverIgnored | deliverApplied | deliverGap
  | deliverHistory => exact Or.inl ⟨load, ⟨l, hrequest, hload⟩, hpending, rfl, rfl⟩
  | disconnect j =>
    refine Or.inl ⟨load, ⟨l, ?_, hload⟩, hpending, rfl, rfl⟩
    have hne : i ≠ j := fun hj ↦ hdisconnect (hj ▸ rfl)
    simp [dropSocket, hrequest, hne]
  | receiveDraw _ _ _ _ _ _ _ w hw | resumeAppend _ _ _ _ _ _ w hw | resumeOther _ _ _ _ w hw =>
    obtain ⟨load', hload', hcontinues⟩ := hgoes hw (by simp) (by simp)
    exact Or.inl ⟨load', ⟨l, hrequest, hload'⟩, hcontinues⟩
  | receiveResync j m sinceSeq up hup w hw | presence j sinceSeq m harriving w hw =>
    obtain ⟨load', hload', hcontinues⟩ := hgoes hw (by simp) (by simp)
    refine Or.inl ⟨load', ⟨l, ?_, hload'⟩, hcontinues⟩
    have hne : l ≠ m := fun hl ↦ by simp [hl, idle_of_loadForJoin hw] at hload
    exact (requests_setRequest _ m l _).trans ((if_neg hne).trans hrequest)
  | resolveUnasked m now _ w hw hnone =>
    have hne : l ≠ m := by
      rintro rfl
      obtain ⟨-, _, _, _, -, hresolved, -⟩ := resolved_of_step hw
      rcases hnone with hnone | hnone
      · simp [hnone] at hrequest
      · simp [reply_eq (r := r.setBoard w) hresolved] at hnone
    obtain ⟨load', hload', hcontinues⟩ := hgoes hw (by simp [hne.symm]) (by simp)
    exact Or.inl ⟨load', ⟨l, hrequest, hload'⟩, hcontinues⟩
  | resolveReply m now _ j request' history w hw hrequest' hreply =>
    rcases eq_or_ne l m with rfl | hne
    · obtain ⟨-, load', snapshotSeq, history', hload', hresolved, hmerges⟩ := resolved_of_step hw
      cases hload.symm.trans hload'
      cases hrequest.symm.trans hrequest'
      cases hreply.symm.trans (reply_eq (r := r.setBoard w) hresolved)
      refine Or.inr (Or.inl ⟨l, snapshotSeq, history, hresolved, hmerges, ?_⟩)
      rw [sockets_setSocket, if_pos rfl]
      exact Socket.mem_down_send.mpr (Or.inr rfl)
    · obtain ⟨load', hload', hcontinues⟩ := hgoes hw (by simp [hne.symm]) (by simp)
      refine Or.inl ⟨load', ⟨l, ?_, hload'⟩, hcontinues⟩
      exact (requests_setRequest _ m l _).trans ((if_neg hne).trans hrequest)
  | resolveProbe m now n j sinceSeq history w w' hw hrequest' hreply hw' =>
    rcases eq_or_ne l m with rfl | hne
    · obtain ⟨hlog, -⟩ := resolved_of_step hw
      cases hrequest.symm.trans hrequest'
      refine Or.inr (Or.inr ⟨sinceSeq, rfl, ?_⟩)
      rw [← hlog]
      exact loading_of_loadForJoin hw' i .delta _
    · obtain ⟨load', hload', hcontinues⟩ := hgoes hw (by simp [hne.symm]) (by simp)
      obtain ⟨load'', hload'', hcontinues'⟩ :=
        continues_of_step hw' hload' hcontinues.pending (by simp) (by simp)
      have hne' : l ≠ n := fun hl ↦ by simp [hl, idle_of_loadForJoin hw'] at hload'
      refine Or.inl ⟨load'', ⟨l, ?_, hload''⟩, hcontinues.trans hcontinues'⟩
      have hrequest₁ := (requests_setRequest (r.setBoard w) m l none).trans
        ((if_neg hne).trans hrequest)
      exact (requests_setRequest _ n l _).trans ((if_neg hne').trans hrequest₁)
  | service b hinternal hne w hw =>
    have hresolve : ∀ now, b ≠ .load l (.resolve now) := by
      rintro now rfl
      cases hinternal
    obtain ⟨load', hload', hcontinues⟩ := hgoes hw hresolve (hne l)
    exact Or.inl ⟨load', ⟨l, hrequest, hload'⟩, hcontinues⟩
  | loadFails m => exact absurd rfl (hfail m)

end Room

end Synapse
