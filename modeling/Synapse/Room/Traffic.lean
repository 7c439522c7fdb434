import Synapse.Room.Clear

/-!
# The traffic of one client

A clear takes its effect from its place among the messages, so the order on the channels matters
here, and not only what is on them. `Traffic` says what a step does to the two channels of a client
and to its scene. `Numbered` says that the numbers of the draws and of the calls tell them apart,
from which `called_of_step` and `issued_of_step` follow: a draw that awaits `append` was next on its
channel or awaited it before, and a draw that is issued awaited it.
-/

namespace Synapse

open Transition

theorem Instance.Step.append_mem {cfg : Config} {log log' : BoardLog} {inst inst' : Instance}
    {b : Action} (h : Step cfg log inst b log' inst') (hb : b.isAppend = false) {call : ℕ}
    {userId : String} {seg : StrokeSegment} (hc : .append call userId seg ∈ inst'.callers) :
    .append call userId seg ∈ inst.callers := by
  cases h with
  | append => cases hb
  | maybeCompact c =>
    rcases (mem_callers_ensureInitialized _).mp hc with hc | hc
    · exact hc
    · cases hc
  | resumeAppend id ts d call' userId' seg' ready hready =>
    rw [callers, ready_push, waiting_push] at hc
    rw [callers, hready]
    exact List.mem_cons_of_mem _ hc
  | resumeCompact id ts d c ready hready =>
    rw [callers, hready]
    exact List.mem_cons_of_mem _ hc
  | flush | timerFires =>
    rw [callers, ready_flush, waiting_flush] at hc
    exact hc
  | restoreFinish =>
    change _ ∈ (inst.ready ++ inst.waiting) ++ [] at hc
    rwa [List.append_nil] at hc
  | restoreFail =>
    change _ ∈ inst.ready ++ [] at hc
    exact List.mem_append_left _ (by rwa [List.append_nil] at hc)
  | _ => exact hc

namespace Room

variable {κ : Type*} {r r' : Room κ} {i : κ} {n : ℕ} {k : PersistedStroke}

/-- Draw `n` of client `i` awaits `append`. -/
def Called (r : Room κ) (i : κ) (n : ℕ) : Prop :=
  ∃ call userId seg attached, .append call userId seg ∈ (r.board.insts ()).callers ∧
    r.authors[call]? = some ⟨i, n, attached⟩

theorem Called.underway (h : r.Called i n) : r.Underway i n := by
  obtain ⟨call, userId, seg, attached, hcall, hauthor⟩ := h
  exact .called call userId seg attached hcall hauthor

/-- The numbers of the draws and of the calls tell them apart. -/
structure Numbered (r : Room κ) : Prop where
  calls : ∀ call userId seg, .append call userId seg ∈ (r.board.insts ()).callers →
    call < r.authors.length
  draws : ∀ i n seg, .drawn n seg ∈ (r.sessions i).scene → n < (r.sessions i).draws
  issued : ∀ x ∈ r.issued, ∃ seg, .drawn x.draw seg ∈ (r.sessions x.client).scene

theorem Numbered.of_init (h : r.init) : r.Numbered := by
  obtain ⟨⟨-, -, hboard⟩, hsessions, -, -, -, hissued⟩ := h
  constructor
  · intro call userId seg hcall
    rw [hboard] at hcall
    cases hcall
  · simp [hsessions]
  · simp [hissued]

theorem Called.lt_draws (hr : r.Numbered) (hdrawn : r.Drawn) (h : r.Called i n) :
    n < (r.sessions i).draws := by
  obtain ⟨call, _, _, attached, -, hauthor⟩ := h
  obtain ⟨seg, hseg⟩ := hdrawn.authors _ (List.mem_of_getElem? hauthor)
  exact hr.draws i n seg hseg

theorem Numbered.lt_draws_of_issued (hr : r.Numbered) (h : ⟨i, n, k⟩ ∈ r.issued) :
    n < (r.sessions i).draws := by
  obtain ⟨seg, hseg⟩ := hr.issued _ h
  exact hr.draws i n seg hseg

variable [DecidableEq κ] {cfg : Config} {userOf : κ → String} {a : RoomAction κ}

omit [DecidableEq κ] in
theorem append_mem_of_step {u w : World Unit} {b : Action}
    (hw : u.step (fun _ ↦ cfg) ((), b) = some w) (hb : b.isAppend = false) {call : ℕ}
    {userId : String} {seg : StrokeSegment}
    (hc : .append call userId seg ∈ (w.insts ()).callers) :
    .append call userId seg ∈ (u.insts ()).callers := by
  obtain ⟨log, inst, hstep, rfl⟩ := World.step_eq_some.mp hw
  exact (Instance.Step.of_step hstep).append_mem hb hc

theorem Step.append_mem (h : Step cfg userOf r a r') {call : ℕ} {userId : String}
    {seg : StrokeSegment} (hc : .append call userId seg ∈ (r'.board.insts ()).callers) :
    .append call userId seg ∈ (r.board.insts ()).callers ∨
    ∃ i l draw up, a = .receive i l ∧ (r.sockets i).up = .draw draw seg :: up ∧
      call = r.authors.length ∧ r'.authors = r.authors ++ [⟨i, draw, true⟩] := by
  cases h with
  | receiveDraw i l draw stroke up hup _ w hw =>
    obtain ⟨_, _, hstep, rfl⟩ := World.step_eq_some.mp hw
    cases hstep
    rcases (Instance.mem_callers_ensureInitialized _).mp hc with hc | heq
    · exact Or.inl hc
    · cases heq
      exact Or.inr ⟨i, l, draw, up, rfl, hup, rfl, rfl⟩
  | receiveResync _ _ _ _ _ w hw | presence _ _ _ _ w hw | resumeAppend _ _ _ _ _ _ w hw
  | resumeOther _ _ _ _ w hw | resolveUnasked _ _ _ w hw | resolveReply _ _ _ _ _ _ w hw
  | loadFails _ w hw => exact Or.inl (append_mem_of_step hw rfl hc)
  | resolveProbe _ _ _ _ _ _ w w' hw _ _ hw' =>
    exact Or.inl (append_mem_of_step hw rfl (append_mem_of_step hw' rfl hc))
  | service b hinternal _ w hw =>
    refine Or.inl (append_mem_of_step hw ?_ hc)
    cases b <;> first | rfl | cases hinternal
  | _ => exact Or.inl hc

/-- A draw that awaits `append` was next on its channel, or awaited it before. -/
theorem called_of_step (hr : r.Numbered) (h : Step cfg userOf r a r') (hcalm : r.calm a)
    (hcalled : r'.Called i n) : r.Called i n ∨
      ∃ l seg up, a = .receive i l ∧ (r.sockets i).up = .draw n seg :: up := by
  obtain ⟨call, userId, seg, attached, hcall, hauthor⟩ := hcalled
  rcases h.append_mem hcall with hold | ⟨j, l, draw, up, ha, hup, rfl, hnew⟩
  · refine Or.inl ⟨call, userId, seg, attached, hold, ?_⟩
    have hlt := hr.calls call userId seg hold
    rcases h.authors hcalm with hsame | ⟨_, _, _, hnew, -⟩
    · rwa [hsame] at hauthor
    · rwa [hnew, List.getElem?_append_left hlt] at hauthor
  · rw [hnew, List.getElem?_concat_length] at hauthor
    cases hauthor
    exact Or.inr ⟨l, seg, up, ha, hup⟩

/-- A draw that is issued awaited `append`, and its stroke comes after all others. -/
theorem issued_of_step (hr : r.Genuine) (h : Step cfg userOf r a r')
    (hissued : ⟨i, n, k⟩ ∈ r'.issued) : ⟨i, n, k⟩ ∈ r.issued ∨
      (r.Called i n ∧ k.seq = (r.board.insts ()).board.nextSeq ∧
        ∀ x ∈ r.board.log.accepted, x.seq < k.seq) := by
  rcases h.accepts with ⟨-, hsame⟩ | ⟨call, userId, seg, ready, x, hready, hseq, -, hr'⟩
  · exact Or.inl (hsame ▸ hissued)
  · rw [hr'] at hissued
    rcases List.mem_append.mp hissued with hold | hnew
    · exact Or.inl hold
    · obtain ⟨⟨j, m, attached⟩, hauthor, heq⟩ := List.mem_map.mp hnew
      cases heq
      refine Or.inr ⟨⟨call, userId, seg, attached, ?_, Option.mem_toList.mp hauthor⟩, hseq, ?_⟩
      · rw [Instance.callers, hready]
        exact List.mem_cons_self
      · intro y hy
        rw [hseq]
        exact hr.lt_nextSeq (by simp [hready]) hy

theorem Numbered.step (hr : r.Numbered) (hgenuine : r.Genuine) (hdrawn : r.Drawn)
    (h : Step cfg userOf r a r') (hcalm : r.calm a) : r'.Numbered where
  calls := by
    intro call userId seg hcall
    rcases h.append_mem hcall with hold | ⟨_, _, _, _, -, -, rfl, hnew⟩
    · have hlt := hr.calls call userId seg hold
      rcases h.authors hcalm with hsame | ⟨_, _, _, hnew, -⟩
      · rwa [hsame]
      · rw [hnew, List.length_append]
        omega
    · rw [hnew, List.length_append]
      exact Nat.lt_succ_self _
  draws i := h.lt_draws i (hr.draws i)
  issued := by
    rintro ⟨i, n, k⟩ hx
    rcases issued_of_step hgenuine h hx with hold | ⟨⟨call, _, _, attached, -, hauthor⟩, -, -⟩
    · obtain ⟨seg, hseg⟩ := hr.issued _ hold
      exact ⟨seg, h.scene_subset i hseg⟩
    · obtain ⟨seg, hseg⟩ := hdrawn.authors _ (List.mem_of_getElem? hauthor)
      exact ⟨seg, h.scene_subset i hseg⟩

/-! ## The channels -/

/-- What a step that loses no connection does to the channels and the scene of client `i`. -/
inductive Traffic (r : Room κ) (a : RoomAction κ) (r' : Room κ) (i : κ) : Prop
  /-- Something may be sent, either way, but no draw of the client. -/
  | sends (hreceive : ∀ l, a ≠ .receive i l) (hdeliver : a ≠ .deliver i)
      (up : List ClientMessage) (down : List ServerMessage)
      (hup : (r'.sockets i).up = (r.sockets i).up ++ up) (hother : ∀ n seg, .draw n seg ∉ up)
      (hdown : (r'.sockets i).down = (r.sockets i).down ++ down)
      (hscene : (r'.sessions i).scene = (r.sessions i).scene)
  | draws (seg : StrokeSegment) (ha : a = .draw i seg)
      (hup : (r'.sockets i).up = (r.sockets i).up ++ [.draw (r.sessions i).draws seg])
      (hdown : (r'.sockets i).down = (r.sockets i).down)
      (hscene : (r'.sessions i).scene
        = (r.sessions i).scene ++ [.drawn (r.sessions i).draws seg])
  | receives (l : ℕ) (ha : a = .receive i l) (m : ClientMessage)
      (hup : (r.sockets i).up = m :: (r'.sockets i).up)
      (hdown : (r'.sockets i).down = (r.sockets i).down)
      (hscene : (r'.sessions i).scene = (r.sessions i).scene)
  /-- A delivery may reveal a gap, which is then reported. -/
  | delivers (ha : a = .deliver i) (m : ServerMessage) (up : List ClientMessage)
      (hup : (r'.sockets i).up = (r.sockets i).up ++ up) (hother : ∀ n seg, .draw n seg ∉ up)
      (hdown : (r.sockets i).down = m :: (r'.sockets i).down) (hadds : r.adds i ⊆ m.strokes)
      (hscene : (r'.sessions i).scene = (r.sessions i).scene ++ (r.adds i).map .received)

omit [DecidableEq κ] in
theorem adds_draw {down : List ServerMessage} (hdown : (r.sockets i).down = .draw k :: down) :
    r.adds i = if k.seq = (r.sessions i).resync.lastAppliedSeq + 1 then [k] else [] := by
  have hiff : decideStrokeAction (r.sessions i).resync.lastAppliedSeq k.seq = .apply ↔
      k.seq = (r.sessions i).resync.lastAppliedSeq + 1 := by
    unfold decideStrokeAction
    split_ifs with hle hnext
    · simpa using fun h ↦ absurd h (by omega)
    · simpa using hnext
    · simpa using hnext
  rw [adds, hdown]
  exact if_congr hiff rfl rfl

omit [DecidableEq κ] in
theorem Traffic.still (hreceive : ∀ l, a ≠ .receive i l) (hdeliver : a ≠ .deliver i)
    (hsocket : r'.sockets i = r.sockets i) (hsession : r'.sessions i = r.sessions i) :
    Traffic r a r' i :=
  .sends hreceive hdeliver [] [] (by simp [hsocket]) (by simp) (by simp [hsocket])
    (by rw [hsession])

theorem Traffic.of_setSocket {j : κ} {socket : Socket} (hreceive : ∀ l, a = .receive j l → j = i)
    (hdeliver : a = .deliver j → j = i) (hsockets : r'.sockets = (r.setSocket i socket).sockets)
    (hsession : j ≠ i → r'.sessions j = r.sessions j)
    (hself : (r'.sockets i).up = socket.up → (r'.sockets i).down = socket.down →
      Traffic r a r' i) : Traffic r a r' j := by
  have hsocket : r'.sockets j = if j = i then socket else r.sockets j := by
    rw [hsockets, sockets_setSocket]
  split_ifs at hsocket with hj
  · subst hj
    exact hself (congrArg Socket.up hsocket) (congrArg Socket.down hsocket)
  · exact .still (fun l ha ↦ hj (hreceive l ha)) (fun ha ↦ hj (hdeliver ha)) hsocket (hsession hj)

theorem Traffic.of_deliver {j : κ} {session : Session} {socket : Socket} {m : ServerMessage}
    {up : List ClientMessage} (hsockets : r'.sockets = (r.setSocket i socket).sockets)
    (hsessions : r'.sessions = (r.setSession i session).sessions)
    (hdown : (r.sockets i).down = m :: socket.down) (hup : socket.up = (r.sockets i).up ++ up)
    (hother : ∀ n seg, .draw n seg ∉ up) (hadds : r.adds i ⊆ m.strokes)
    (hscene : session.scene = (r.sessions i).scene ++ (r.adds i).map .received) :
    Traffic r (.deliver i) r' j := by
  have hsession : ∀ j, r'.sessions j = if j = i then session else r.sessions j := by
    intro j
    rw [hsessions, sessions_setSession]
  refine .of_setSocket (by simp) ?_ hsockets (fun hne ↦ ?_) fun hup' hdown' ↦ ?_
  · rintro ⟨⟩
    rfl
  · rw [hsession, if_neg hne]
  · refine .delivers rfl m up (hup'.trans hup) hother (hdown' ▸ hdown) hadds ?_
    rw [hsession, if_pos rfl, hscene]

/-- **What a calm step does to the channels.** -/
theorem Step.traffic (h : Step cfg userOf r a r') (hcalm : r.calm a) (j : κ) :
    Traffic r a r' j := by
  cases h with
  | connect i =>
    refine .of_setSocket (i := i) (by simp) (by simp) rfl (fun _ ↦ rfl) fun hup' hdown' ↦ ?_
    exact .sends (by simp) (by simp) _ [] hup' (by simp) (hdown'.trans (List.append_nil _).symm) rfl
  | disconnect i => cases hcalm
  | draw i seg =>
    refine .of_setSocket (i := i) (by simp) (by simp) rfl ?_ fun hup' hdown' ↦ ?_
    · intro hne
      exact (r.sessions_setSession i j _).trans (if_neg hne)
    · have hsession := (r.sessions_setSession i i ((r.sessions i).commitLocal seg)).trans
        (if_pos rfl)
      exact .draws seg rfl hup' hdown' (congrArg Session.scene hsession)
  | receiveJoin i l _ up hup | receiveDraw i l _ _ up hup | rejectDraw i l _ _ up hup
  | receiveResync i l _ up hup =>
    refine .of_setSocket (i := i) ?_ (by simp) rfl (fun _ ↦ rfl) fun hup' hdown' ↦ ?_
    · rintro _ ⟨⟩
      rfl
    · exact .receives l rfl _ (hup.trans (congrArg _ hup'.symm)) hdown' rfl
  | presence i =>
    refine .of_setSocket (i := i) (by simp) (by simp) rfl (fun _ ↦ rfl) fun hup' hdown' ↦ ?_
    exact .sends (by simp) (by simp) [] [] (hup'.trans (List.append_nil _).symm) (by simp)
      (hdown'.trans (List.append_nil _).symm) rfl
  | resumeAppend id ts d call k =>
    have hsocket := r.sockets_broadcast r.authors[call]? k j
    split_ifs at hsocket with hsent
    · exact .sends (by simp) (by simp) [] [.draw k]
        ((congrArg Socket.up hsocket).trans (List.append_nil _).symm) (by simp)
        (congrArg Socket.down hsocket) rfl
    · exact .still (by simp) (by simp) hsocket rfl
  | resolveReply l now m i request history =>
    refine .of_setSocket (i := i) (by simp) (by simp) rfl (fun _ ↦ rfl) fun hup' hdown' ↦ ?_
    exact .sends (by simp) (by simp) [] [.roomHistory history]
      (hup'.trans (List.append_nil _).symm) (by simp) hdown' rfl
  | deliverIgnored i k down hdown hseq =>
    have hadds : r.adds i = [] := (adds_draw hdown).trans (if_neg (by omega))
    exact .of_deliver rfl (congrArg sessions (setSession_self r i)).symm hdown
      (List.append_nil _).symm (by simp) (by simp [hadds]) (by simp [hadds])
  | deliverApplied i k down hdown hseq =>
    have hadds : r.adds i = [k] := (adds_draw hdown).trans (if_pos hseq)
    exact .of_deliver rfl rfl hdown (List.append_nil _).symm (by simp)
      (by simp [hadds, ServerMessage.strokes]) (by rw [hadds]; rfl)
  | deliverGap i k down hdown hseq =>
    have hadds : r.adds i = [] := (adds_draw hdown).trans (if_neg (by omega))
    exact .of_deliver rfl (congrArg sessions (setSession_self r i)).symm hdown rfl (by simp)
      (by simp [hadds]) (by simp [hadds])
  | deliverHistory i history down hdown =>
    have hadds : r.adds i = history.strokes := by rw [adds, hdown]
    exact .of_deliver rfl rfl hdown (List.append_nil _).symm (by simp)
      (hadds ▸ List.Subset.refl _) (hadds ▸ Session.scene_roomHistory)
  | resumeOther | resolveUnasked | resolveProbe | service | loadFails =>
    exact .still (by simp) (by simp) rfl rfl

end Room

end Synapse
