import Synapse.Room.Inversion

/-!
# Where the contents of a room come from

Whatever is on its way to a client or in its scene goes back to the service: a stroke received is
one that `append` accepted, and a segment drawn is on its way to `append`, awaiting it, or issued as
a stroke. `Genuine` is the first half, which holds in every run, and `Drawn` the second, which holds
as long as no draw is rejected and no connection or restore is lost.
-/

namespace Synapse

open Custody Transition

/-- The strokes a message brings. -/
def ServerMessage.strokes : ServerMessage → List PersistedStroke
  | draw k => [k]
  | roomHistory history => history.strokes

theorem Instance.accepts_of_resuming_eq_none {inst : Instance} {id : String} {ts d : ℕ}
    (h : inst.resuming id ts = none) : inst.accepts (.resume id ts d) = false := by
  change inst.resumesAppend = false
  rcases hready : inst.ready with _ | ⟨caller, ready⟩
  · rw [Instance.resumesAppend, hready]
  · cases caller with
    | append call userId seg =>
      rw [Instance.resuming, hready] at h
      cases h
    | maybeCompact c => rw [Instance.resumesAppend, hready]

namespace Room

variable {κ : Type*} {r r' : Room κ} {i : κ}

/-- Whether a segment in the scene of client `i` is the stroke `k`. -/
def Depicts (r : Room κ) (i : κ) (s : SceneSegment) (k : PersistedStroke) : Prop :=
  match s with
  | .drawn n _ => ⟨i, n, k⟩ ∈ r.issued
  | .received k' => k' = k

/-- The stroke `k` is in the scene of client `i`. -/
def Shown (r : Room κ) (i : κ) (k : PersistedStroke) : Prop :=
  ∃ s ∈ (r.sessions i).scene, r.Depicts i s k

/-! ## What comes from the service -/

/-- What the service has sent, and what the clients show of it, are accepted strokes. -/
structure Genuine (r : Room κ) : Prop where
  owned : r.board.Owned
  loads : ∀ l, ∀ load ∈ (r.board.insts ()).loads l, r.board.Genuine load
  issued : ∀ x ∈ r.issued, x.stroke ∈ r.board.log.accepted
  /-- No stroke is issued twice. -/
  once : (r.issued.map Issue.stroke).Nodup
  down : ∀ i, ∀ m ∈ (r.sockets i).down, m.strokes ⊆ r.board.log.accepted
  scene : ∀ i k, .received k ∈ (r.sessions i).scene → k ∈ r.board.log.accepted

theorem Genuine.of_init (h : r.init) : r.Genuine := by
  obtain ⟨hboard, hsessions, hsockets, -, -, hissued⟩ := h
  constructor
  · exact .of_init hboard
  · intro l load hload
    rw [hboard.2.2] at hload
    cases hload
  · simp [hissued]
  · simp [hissued]
  · simp [hsockets]
  · simp [hsessions]

theorem Genuine.fulfilled (hr : r.Genuine) (hready : (r.board.insts ()).ready ≠ []) :
    (r.board.insts ()).board.initPromise = some .fulfilled := by
  by_contra hp
  exact hready (hr.owned.restored.dormant hp).ready

theorem Genuine.lt_nextSeq (hr : r.Genuine) (hready : (r.board.insts ()).ready ≠ [])
    {k : PersistedStroke} (hk : k ∈ r.board.log.accepted) :
    k.seq < (r.board.insts ()).board.nextSeq :=
  hr.owned.restored.toCurrent.fulfilled (hr.fulfilled hready) k hk

theorem genuine_reply (hloads : ∀ l, ∀ load ∈ (r.board.insts ()).loads l, r.board.Genuine load)
    {l : ℕ} {history : RoomHistory} (h : r.reply l = some history) :
    history.strokes ⊆ r.board.log.accepted ∧
      (history.strokes.map PersistedStroke.seq).Nodup := by
  unfold Room.reply at h
  split at h
  · next snapshotSeq history' hphase =>
    cases h
    obtain ⟨load, hload, hphase⟩ := Option.map_eq_some_iff.mp hphase
    have hgenuine := hloads l load hload
    rw [World.Genuine, hphase] at hgenuine
    exact hgenuine
  · cases h

/-! ## What a step accepts -/

variable [DecidableEq κ] {cfg : Config} {userOf : κ → String} {a : RoomAction κ}

theorem accepted_eq_of_step {u w : World Unit} {b : Action}
    (hw : u.step (fun _ ↦ cfg) ((), b) = some w) (hb : (u.insts ()).accepts b = false) :
    w.log.accepted = u.log.accepted := by
  obtain ⟨log, inst, hstep, rfl⟩ := World.step_eq_some.mp hw
  exact (Instance.Step.of_step hstep).effect.accepted hb

/-- A step of the room accepts nothing, or the stroke of the `append` that resumes. -/
theorem Step.accepts (h : Step cfg userOf r a r') :
    (r'.board.log.accepted = r.board.log.accepted ∧ r'.issued = r.issued) ∨
    ∃ call userId seg ready k, (r.board.insts ()).ready = .append call userId seg :: ready ∧
      k.seq = (r.board.insts ()).board.nextSeq ∧
      r'.board.log.accepted = r.board.log.accepted ++ [k] ∧
      r' = ((r.broadcast r.authors[call]? k).issue r.authors[call]? k).setBoard r'.board := by
  cases h with
  | connect | disconnect | draw | receiveJoin | rejectDraw | deliverIgnored | deliverApplied
  | deliverGap | deliverHistory => exact Or.inl ⟨rfl, rfl⟩
  | receiveDraw _ _ _ _ _ _ _ w hw | receiveResync _ _ _ _ _ w hw | presence _ _ _ _ w hw
  | resolveUnasked _ _ _ w hw | resolveReply _ _ _ _ _ _ w hw =>
    exact Or.inl ⟨accepted_eq_of_step hw rfl, rfl⟩
  | resolveProbe _ _ _ _ _ _ w w' hw _ _ hw' =>
    have haccepted : w'.log.accepted = w.log.accepted := accepted_eq_of_step hw' rfl
    exact Or.inl ⟨haccepted.trans (accepted_eq_of_step hw rfl), rfl⟩
  | resumeAppend id ts d call k hresuming w hw =>
    obtain ⟨userId, seg, ready, hready, rfl, rfl⟩ := exists_of_resuming hresuming hw
    exact Or.inr ⟨call, userId, seg, ready, _, hready, rfl, rfl, rfl⟩
  | resumeOther id ts d hresuming w hw =>
    exact Or.inl ⟨accepted_eq_of_step hw (Instance.accepts_of_resuming_eq_none hresuming), rfl⟩
  | service b hinternal _ w hw =>
    refine Or.inl ⟨accepted_eq_of_step hw ?_, rfl⟩
    cases b <;> first | rfl | cases hinternal
  | loadFails _ w hw => exact Or.inl ⟨accepted_eq_of_step hw rfl, rfl⟩

theorem Step.accepted_subset (h : Step cfg userOf r a r') :
    r.board.log.accepted ⊆ r'.board.log.accepted := by
  rcases h.accepts with ⟨haccepted, -⟩ | ⟨_, _, _, _, k, -, -, haccepted, -⟩
  · rw [haccepted]
    exact List.Subset.refl _
  · rw [haccepted]
    exact List.subset_append_left _ _

theorem Step.issued_subset (h : Step cfg userOf r a r') : r.issued ⊆ r'.issued := by
  rcases h.accepts with ⟨-, hissued⟩ | ⟨_, _, _, _, k, -, -, -, hr'⟩
  · rw [hissued]
    exact List.Subset.refl _
  · rw [hr']
    exact List.subset_append_left _ _

theorem Step.scene_subset (h : Step cfg userOf r a r') (i : κ) :
    (r.sessions i).scene ⊆ (r'.sessions i).scene := by
  have hmove := h.clientMove i
  generalize r'.sessions i = session, r'.sockets i = socket at hmove
  cases hmove with
  | draw | applies => exact List.subset_append_left _ _
  | adopts history =>
    rw [Session.scene_roomHistory]
    exact List.subset_append_left _ _
  | _ => exact List.Subset.refl _

theorem Step.lt_draws (h : Step cfg userOf r a r') (i : κ)
    (hr : ∀ n seg, .drawn n seg ∈ (r.sessions i).scene → n < (r.sessions i).draws) (n : ℕ)
    (seg : StrokeSegment) (hs : .drawn n seg ∈ (r'.sessions i).scene) :
    n < (r'.sessions i).draws := by
  have hmove := h.clientMove i
  generalize r'.sessions i = session, r'.sockets i = socket at hmove hs
  cases hmove with
  | draw =>
    rcases Session.drawn_mem_commitLocal.mp hs with hs | ⟨rfl, -⟩
    · exact Nat.lt_succ_of_lt (hr n seg hs)
    · exact Nat.lt_succ_self _
  | applies => exact hr n seg (Session.drawn_mem_commitRemote.mp hs)
  | adopts => exact hr n seg (Session.drawn_mem_roomHistory.mp hs)
  | _ => exact hr n seg hs

theorem Shown.step (h : Step cfg userOf r a r') {k : PersistedStroke} (hk : r.Shown i k) :
    r'.Shown i k := by
  obtain ⟨s, hs, hdepicts⟩ := hk
  refine ⟨s, h.scene_subset i hs, ?_⟩
  cases s with
  | drawn n seg => exact h.issued_subset hdepicts
  | received k' => exact hdepicts

theorem Genuine.board_step (hr : r.Genuine) (h : Step cfg userOf r a r') :
    r'.board.Owned ∧ ∀ l, ∀ load ∈ (r'.board.insts ()).loads l, r'.board.Genuine load :=
  h.board_invariant (P := fun u ↦ u.Owned ∧ ∀ l, ∀ load ∈ (u.insts ()).loads l, u.Genuine load)
    (fun _ _ _ hu hs ↦ ⟨hu.1.step hs, World.Genuine.step hu.1 hs hu.2⟩) ⟨hr.owned, hr.loads⟩

theorem Genuine.issued_step (hr : r.Genuine) (h : Step cfg userOf r a r') :
    (∀ x ∈ r'.issued, x.stroke ∈ r'.board.log.accepted) ∧
      (r'.issued.map Issue.stroke).Nodup := by
  rcases h.accepts with ⟨haccepted, hsame⟩ | ⟨call, _, _, _, k, hready, hseq, haccepted, hr'⟩
  · rw [haccepted, hsame]
    exact ⟨hr.issued, hr.once⟩
  · have hnew : r'.issued = r.issued ++ r.authors[call]?.toList.map
        fun author ↦ ⟨author.client, author.draw, k⟩ := by
      rw [hr']
      rfl
    -- the stroke is not an issued one, because its number is not
    have hfresh : k ∉ r.issued.map Issue.stroke := by
      intro hk
      obtain ⟨x, hx, rfl⟩ := List.mem_map.mp hk
      have hlt := hr.lt_nextSeq (by simp [hready]) (hr.issued x hx)
      omega
    rw [hnew, haccepted]
    rcases r.authors[call]? with _ | author
    · simpa using ⟨fun x hx ↦ Or.inl (hr.issued x hx), hr.once⟩
    · constructor
      · intro x hx
        rcases List.mem_append.mp hx with hx | hx
        · exact List.mem_append_left _ (hr.issued x hx)
        · obtain rfl := List.mem_singleton.mp hx
          exact List.mem_append_right _ (List.mem_singleton_self _)
      · rw [List.map_append, List.nodup_append]
        refine ⟨hr.once, List.nodup_singleton _, ?_⟩
        rintro x hx y hy rfl
        have hk : x = k := List.mem_singleton.mp hy
        exact hfresh (hk ▸ hx)

/-- What is on its way to a client has been accepted. -/
theorem Genuine.down_step (hr : r.Genuine) (h : Step cfg userOf r a r') (i : κ) :
    ∀ m ∈ (r'.sockets i).down, m.strokes ⊆ r'.board.log.accepted := by
  have hkeep : ∀ m ∈ (r.sockets i).down, m.strokes ⊆ r'.board.log.accepted :=
    fun m hm ↦ List.Subset.trans (hr.down i m hm) h.accepted_subset
  have hrest : ∀ {m down}, (r.sockets i).down = m :: down →
      ∀ m ∈ down, m.strokes ⊆ r'.board.log.accepted :=
    fun hdown m hm ↦ hkeep m (hdown ▸ List.mem_cons_of_mem _ hm)
  have hboard := hr.board_step h
  have hmove := h.clientMove i
  generalize r'.sessions i = session, r'.sockets i = socket at hmove
  cases hmove with
  | disconnect => simp
  | broadcast k _ _ _ haccepted =>
    intro m hm
    rcases Socket.mem_down_send.mp hm with hm | rfl
    · exact hkeep m hm
    · rw [haccepted]
      exact List.subset_append_right _ _
  | replies l request history _ hreply =>
    intro m hm
    rcases Socket.mem_down_send.mp hm with hm | rfl
    · exact hkeep m hm
    · exact (genuine_reply hboard.2 hreply).1
  | ignores _ _ hdown | applies _ _ hdown | reports _ _ hdown | adopts _ _ hdown =>
    exact hrest hdown
  | _ => exact hkeep

/-- What a client shows has been accepted. -/
theorem Genuine.scene_step (hr : r.Genuine) (h : Step cfg userOf r a r') (i : κ)
    (k : PersistedStroke) (hk : .received k ∈ (r'.sessions i).scene) :
    k ∈ r'.board.log.accepted := by
  apply h.accepted_subset
  have hmove := h.clientMove i
  generalize r'.sessions i = session, r'.sockets i = socket at hmove hk
  cases hmove with
  | draw => exact hr.scene i k (Session.received_mem_commitLocal.mp hk)
  | applies x down hdown =>
    rcases Session.received_mem_commitRemote.mp hk with hk | rfl
    · exact hr.scene i k hk
    · exact hr.down i (.draw k) (by simp [hdown]) (List.mem_singleton_self k)
  | adopts history down hdown =>
    rcases Session.received_mem_roomHistory.mp hk with hk | hk
    · exact hr.scene i k hk
    · exact hr.down i (.roomHistory history) (by simp [hdown]) hk
  | _ => exact hr.scene i k hk

theorem Genuine.step (hr : r.Genuine) (h : Step cfg userOf r a r') : r'.Genuine where
  owned := (hr.board_step h).1
  loads := (hr.board_step h).2
  issued := (hr.issued_step h).1
  once := (hr.issued_step h).2
  down := hr.down_step h
  scene := hr.scene_step h

end Room

end Synapse
