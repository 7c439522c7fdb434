import Synapse.Room.Traffic

/-!
# One client and the clears

The server relays a clear between two strokes and so orders the clears among the draws. `Screened`
says that the scene of a client is what this order makes of the strokes that have reached it. The
clears that the client has emitted and the server has not seen are the difficulty: they have taken
segments already, and their place in the order is open. What settles it is the channel. The draws
ahead of the latest clear are those of segments that are gone, the draws behind it those of segments
still in the scene, and behind a clear nothing is accepted before the clear is handled.

The order is kept by a step that `Meets` the client in turn: what it adds to the scene comes after
all the clears that the client has applied.
-/

namespace Synapse

open Transition

/-! ## What a client knows of the clears -/

namespace Screen

/-- The messages ahead of the latest clear on its way to the server. -/
def fence (screen : Screen) : ℕ := screen.clearsUp.getLastD 0

variable {screen : Screen} {added : SceneStore} {s : SceneSegment}

theorem gone_or_scene (h : s ∈ added) : s ∈ screen.gone added ∨ s ∈ screen.scene added := by
  rw [← List.take_append_drop screen.wiped added] at h
  exact List.mem_append.mp h

theorem not_mem_scene (h : screen.wiped = added.length) : s ∉ screen.scene added := by
  rw [scene, h, List.drop_length]
  exact List.not_mem_nil

theorem fence_eq_zero (h : screen.clearsUp = []) : screen.fence = 0 := by
  rw [fence, h]
  rfl

theorem fence_pos (h : screen.clearsUp ≠ []) (hzero : 0 ∉ screen.clearsUp) : 0 < screen.fence := by
  have hmem : screen.fence ∈ screen.clearsUp := by
    rw [fence, List.getLastD_eq_getLast?, List.getLast?_eq_some_getLast h]
    exact List.getLast_mem h
  exact Nat.pos_of_ne_zero fun hfence ↦ hzero (hfence ▸ hmem)

theorem fence_emit (ahead : ℕ) : (screen.emit ahead).fence = ahead := by
  simp [fence, emit]

theorem fence_map_pred : (screen.setClearsUp (screen.clearsUp.map (· - 1))).fence
    = screen.fence - 1 := by
  simp only [fence, setClearsUp, List.getLastD_eq_getLast?, List.getLast?_map]
  rcases screen.clearsUp.getLast? with _ | n <;> rfl

/-- The latest clear has been seen, or is on its way. -/
structure UpTo (screen : Screen) (last : ℕ) : Prop where
  base : screen.base ≤ last
  down : ∀ n ∈ screen.clearsDown.map RelayedClear.upTo, n ≤ last
  latest : screen.base = last ∨ last ∈ screen.clearsDown.map RelayedClear.upTo

namespace UpTo

variable {last top : ℕ}

theorem relay (h : screen.UpTo last) (hle : last ≤ top) (rest : List ℕ) :
    ((screen.setClearsUp rest).setBase top).UpTo top :=
  ⟨le_rfl, fun n hn ↦ (h.down n hn).trans hle, Or.inl rfl⟩

theorem send (h : screen.UpTo last) (hle : last ≤ top) (ahead : ℕ) :
    (screen.send ⟨ahead, top⟩).UpTo top := by
  have hmap : (screen.send ⟨ahead, top⟩).clearsDown.map RelayedClear.upTo
      = screen.clearsDown.map RelayedClear.upTo ++ [top] := List.map_append
  refine ⟨h.base.trans hle, fun n hn ↦ ?_, Or.inr ?_⟩
  · rw [hmap] at hn
    rcases List.mem_append.mp hn with hn | hn
    · exact (h.down n hn).trans hle
    · exact (List.mem_singleton.mp hn).le
  · rw [hmap]
    exact List.mem_append_right _ (List.mem_singleton_self _)

theorem wipe (h : screen.UpTo last) {c : RelayedClear} {rest : List RelayedClear}
    (hclears : screen.clearsDown = c :: rest) (added : ℕ) :
    (((screen.clearBoard added).setClearsDown rest).setBase (max screen.base c.upTo)).UpTo
      last := by
  obtain ⟨hbase, hdown, hlatest⟩ := h
  rw [hclears, List.map_cons] at hdown hlatest
  have hle : c.upTo ≤ last := hdown _ List.mem_cons_self
  refine ⟨max_le hbase hle, fun n hn ↦ hdown n (List.mem_cons_of_mem _ hn), ?_⟩
  rcases hlatest with hlatest | hlatest
  · exact Or.inl ((max_eq_left (hlatest ▸ hle)).trans hlatest)
  · rcases List.mem_cons.mp hlatest with hlatest | hlatest
    · exact Or.inl ((max_eq_right (hlatest ▸ hbase)).trans hlatest.symm)
    · exact Or.inr hlatest

end UpTo

end Screen

namespace Room

variable {κ : Type*} {r r' : Room κ} {i : κ} {k : PersistedStroke} {last : ℕ} {screen : Screen}
  {s : SceneSegment} {n : ℕ} {seg : StrokeSegment}

/-- Whatever the client is sent ahead of the clear, or has received, comes before it. -/
structure Precedes (r : Room κ) (i : κ) (c : RelayedClear) : Prop where
  ahead : c.ahead ≤ (r.sockets i).down.length
  scene : ∀ k, .received k ∈ (r.sessions i).scene → k.seq ≤ c.upTo
  down : ∀ m ∈ (r.sockets i).down.take c.ahead, ∀ k ∈ m.strokes, k.seq ≤ c.upTo

/-- The scene of client `i`, by the order of the server. -/
structure Screened (r : Room κ) (i : κ) (screen : Screen) : Prop where
  wiped : screen.wiped ≤ (r.sessions i).scene.length
  fence : screen.fence ≤ (r.sockets i).up.length
  /-- The scene holds nothing that the clears it has seen come after. -/
  above : ∀ s ∈ screen.scene (r.sessions i).scene, ∀ k, r.Depicts i s k → screen.base < k.seq
  /-- Nothing else is gone, -/
  below : screen.clearsUp = [] → ∀ s ∈ screen.gone (r.sessions i).scene, ∀ k, r.Depicts i s k →
    k.seq ≤ screen.base
  /-- nor will it be accepted. -/
  settled : screen.clearsUp = [] → ∀ n seg, .drawn n seg ∈ screen.gone (r.sessions i).scene →
    ¬ r.Called i n
  /-- Behind a clear on its way to the server nothing has been accepted, -/
  pending : screen.clearsUp ≠ [] → ∀ s ∈ screen.scene (r.sessions i).scene, ∀ k,
    ¬ r.Depicts i s k
  /-- nor has it been called. -/
  uncalled : screen.clearsUp ≠ [] → ∀ n seg, .drawn n seg ∈ screen.scene (r.sessions i).scene →
    ¬ r.Called i n
  /-- On the channel, the draws of the scene come after the latest clear, -/
  after : ∀ n seg, .drawn n seg ∈ screen.scene (r.sessions i).scene →
    ∀ seg', .draw n seg' ∉ (r.sockets i).up.take screen.fence
  /-- and those that are gone before it. -/
  before : ∀ n seg, .drawn n seg ∈ screen.gone (r.sessions i).scene →
    ∀ seg', .draw n seg' ∉ (r.sockets i).up.drop screen.fence
  relayed : ∀ c ∈ screen.clearsDown, r.Precedes i c

/-! ## A step of the room -/

/-- A step of the room that finds the clears of client `i` out of its way, and is in turn. -/
structure Meets (r : Room κ) (a : RoomAction κ) (i : κ) (screen : Screen) : Prop where
  calm : r.calm a
  up : ∀ l, a = .receive i l → 0 ∉ screen.clearsUp
  down : a = .deliver i → ∀ c ∈ screen.clearsDown, c.ahead ≠ 0
  inTurn : a = .deliver i → ∀ k ∈ r.adds i, screen.clearsUp = [] ∧ screen.base < k.seq

variable [DecidableEq κ] {cfg : Config} {userOf : κ → String} {a : RoomAction κ}

theorem clearsUp_follow (hcalm : r.calm a) :
    (screen.follow i a).clearsUp = [] ↔ screen.clearsUp = [] := by
  unfold Screen.follow
  split
  · split_ifs
    · exact List.map_eq_nil_iff
    · exact Iff.rfl
  · split_ifs <;> exact Iff.rfl
  · cases hcalm
  · exact Iff.rfl

theorem clearsDown_follow (hcalm : r.calm a) (hdeliver : a ≠ .deliver i) :
    (screen.follow i a).clearsDown = screen.clearsDown := by
  unfold Screen.follow
  split
  · split_ifs <;> rfl
  · rw [if_neg]
    rintro rfl
    exact hdeliver rfl
  · cases hcalm
  · rfl

theorem fence_follow (hcalm : r.calm a) (hreceive : ∀ l, a ≠ .receive i l) :
    (screen.follow i a).fence = screen.fence := by
  unfold Screen.follow
  split
  · rw [if_neg]
    rintro rfl
    exact hreceive _ rfl
  · split_ifs <;> rfl
  · cases hcalm
  · rfl

theorem fence_follow_receive (l : ℕ) :
    (screen.follow i (.receive i l)).fence = screen.fence - 1 := by
  rw [Screen.follow, if_pos rfl, Screen.fence_map_pred]

/-- What a step adds to a scene: a draw of the client, or what is delivered to it. -/
theorem Step.scene_eq (h : Step cfg userOf r a r') (hcalm : r.calm a) (i : κ) :
    ∃ added, (r'.sessions i).scene = (r.sessions i).scene ++ added ∧ ∀ s ∈ added,
      (∃ seg, s = .drawn (r.sessions i).draws seg) ∨
        ∃ k ∈ r.adds i, s = .received k ∧ a = .deliver i := by
  cases h.traffic hcalm i with
  | sends _ _ _ _ _ _ _ hscene | receives _ _ _ _ _ hscene =>
    exact ⟨[], hscene.trans (List.append_nil _).symm, by simp⟩
  | draws seg _ _ _ hscene => exact ⟨_, hscene, by simp⟩
  | delivers ha _ _ _ _ _ _ hscene => exact ⟨_, hscene, by simp [ha]⟩

theorem depicts_of_step (hr : r.Genuine) (h : Step cfg userOf r a r') (hs : r'.Depicts i s k) :
    r.Depicts i s k ∨ ∃ n seg, s = .drawn n seg ∧ r.Called i n ∧
      ∀ x ∈ r.board.log.accepted, x.seq < k.seq := by
  cases s with
  | received x => exact Or.inl hs
  | drawn n seg =>
    rcases issued_of_step hr h hs with hold | ⟨hcalled, -, hlt⟩
    · exact Or.inl hold
    · exact Or.inr ⟨n, seg, rfl, hcalled, hlt⟩

omit [DecidableEq κ] in
theorem Genuine.accepted_of_depicts (hr : r.Genuine) (hs : s ∈ (r.sessions i).scene)
    (hk : r.Depicts i s k) : k ∈ r.board.log.accepted := by
  cases s with
  | received x =>
    obtain rfl : x = k := hk
    exact hr.scene i x hs
  | drawn n seg => exact hr.issued _ hk

theorem not_depicts_fresh (hr : r.Numbered) (hdrawn : r.Drawn) (hgenuine : r.Genuine)
    (h : Step cfg userOf r a r') : ¬ r'.Depicts i (.drawn (r.sessions i).draws seg) k := by
  intro hk
  rcases issued_of_step hgenuine h hk with hold | ⟨hcalled, -, -⟩
  · exact lt_irrefl _ (hr.lt_draws_of_issued hold)
  · exact lt_irrefl _ (hcalled.lt_draws hr hdrawn)

namespace Screened

theorem mem_scene (hs : r.Screened i screen) (h : Step cfg userOf r a r') (hcalm : r.calm a)
    (hx : s ∈ (screen.follow i a).scene (r'.sessions i).scene) :
    s ∈ screen.scene (r.sessions i).scene ∨ (∃ seg, s = .drawn (r.sessions i).draws seg) ∨
      ∃ k ∈ r.adds i, s = .received k ∧ a = .deliver i := by
  obtain ⟨added, heq, hadded⟩ := h.scene_eq hcalm i
  rw [Screen.scene, Screen.wiped_follow, heq, List.drop_append_of_le_length hs.wiped] at hx
  exact (List.mem_append.mp hx).imp_right (hadded s)

theorem gone_eq (hs : r.Screened i screen) (h : Step cfg userOf r a r') (hcalm : r.calm a) :
    (screen.follow i a).gone (r'.sessions i).scene = screen.gone (r.sessions i).scene := by
  obtain ⟨added, heq, -⟩ := h.scene_eq hcalm i
  rw [Screen.gone, Screen.wiped_follow, heq, List.take_append_of_le_length hs.wiped]
  rfl

theorem above_step (hs : r.Screened i screen) (hr : r.Supplied) (hr' : r'.Supplied)
    (hnumbered : r.Numbered) (h : Step cfg userOf r a r') (hm : r.Meets a i screen)
    (hbase : screen.base ≤ highestSeq r.board.log.accepted 0)
    (hx : s ∈ (screen.follow i a).scene (r'.sessions i).scene) (hk : r'.Depicts i s k) :
    screen.base < k.seq := by
  have haccepted := hr'.genuine.accepted_of_depicts (List.mem_of_mem_drop hx) hk
  have hpos : 0 < k.seq := hr'.positive.accepted k haccepted
  rcases hs.mem_scene h hm.calm hx with hold | ⟨seg, rfl⟩ | ⟨x, hadds, rfl, ha⟩
  · rcases depicts_of_step hr.genuine h hk with hk | ⟨n, seg, -, -, hlt⟩
    · exact hs.above s hold k hk
    · -- the stroke has just been accepted
      exact lt_of_le_of_lt hbase (highestSeq_lt_iff.mpr ⟨hpos, hlt⟩)
  · exact absurd hk (not_depicts_fresh hnumbered hr.drawn hr.genuine h)
  · obtain rfl : x = k := hk
    exact (hm.inTurn ha x hadds).2

theorem below_step (hs : r.Screened i screen) (hr : r.Genuine) (h : Step cfg userOf r a r')
    (hnil : screen.clearsUp = []) (hx : s ∈ screen.gone (r.sessions i).scene)
    (hk : r'.Depicts i s k) : k.seq ≤ screen.base := by
  rcases depicts_of_step hr h hk with hk | ⟨n, seg, rfl, hcalled, -⟩
  · exact hs.below hnil s hx k hk
  · exact absurd hcalled (hs.settled hnil n seg hx)

theorem settled_step (hs : r.Screened i screen) (hnumbered : r.Numbered)
    (h : Step cfg userOf r a r') (hcalm : r.calm a) (hnil : screen.clearsUp = [])
    (hx : .drawn n seg ∈ screen.gone (r.sessions i).scene) : ¬ r'.Called i n := by
  intro hcalled
  rcases called_of_step hnumbered h hcalm hcalled with hold | ⟨l, seg', up, -, hup⟩
  · exact hs.settled hnil n seg hx hold
  · -- no clear is on its way, so the draw would come after them all
    apply hs.before n seg hx seg'
    rw [Screen.fence_eq_zero hnil, hup]
    exact List.mem_cons_self

theorem pending_step (hs : r.Screened i screen) (hr : r.Supplied) (hnumbered : r.Numbered)
    (h : Step cfg userOf r a r') (hm : r.Meets a i screen) (hne : screen.clearsUp ≠ [])
    (hx : s ∈ (screen.follow i a).scene (r'.sessions i).scene) : ¬ r'.Depicts i s k := by
  intro hk
  rcases hs.mem_scene h hm.calm hx with hold | ⟨seg, rfl⟩ | ⟨x, hadds, -, ha⟩
  · rcases depicts_of_step hr.genuine h hk with hk | ⟨n, seg, rfl, hcalled, -⟩
    · exact hs.pending hne s hold k hk
    · exact hs.uncalled hne n seg hold hcalled
  · exact not_depicts_fresh hnumbered hr.drawn hr.genuine h hk
  · exact hne (hm.inTurn ha x hadds).1

theorem uncalled_step (hs : r.Screened i screen) (hr : r.Supplied) (hnumbered : r.Numbered)
    (h : Step cfg userOf r a r') (hm : r.Meets a i screen) (hne : screen.clearsUp ≠ [])
    (hx : .drawn n seg ∈ (screen.follow i a).scene (r'.sessions i).scene) : ¬ r'.Called i n := by
  intro hcalled
  have hcall := called_of_step hnumbered h hm.calm hcalled
  rcases hs.mem_scene h hm.calm hx with hold | ⟨seg', heq⟩ | ⟨x, -, heq, -⟩
  · rcases hcall with hcall | ⟨l, seg', up, ha, hup⟩
    · exact hs.uncalled hne n seg hold hcall
    · -- a clear is on its way, and not next, so the draw comes before the latest
      apply hs.after n seg hold seg'
      obtain ⟨f, hf⟩ := Nat.exists_eq_succ_of_ne_zero (Screen.fence_pos hne (hm.up l ha)).ne'
      rw [hf, hup]
      exact List.mem_cons_self
  · cases heq
    rcases hcall with hcall | ⟨l, seg', up, -, hup⟩
    · exact lt_irrefl _ (hcall.lt_draws hnumbered hr.drawn)
    · exact lt_irrefl _ (hnumbered.draws i _ seg' (hr.drawn.up i _ seg' (by simp [hup])))
  · cases heq

theorem take_up_step (hs : r.Screened i screen) (h : Step cfg userOf r a r') (hcalm : r.calm a) :
    (r'.sockets i).up.take (screen.follow i a).fence ⊆ (r.sockets i).up.take screen.fence := by
  have hkeep : ∀ {up}, (r'.sockets i).up = (r.sockets i).up ++ up →
      (r'.sockets i).up.take screen.fence ⊆ (r.sockets i).up.take screen.fence := by
    intro up hup
    rw [hup, List.take_append_of_le_length hs.fence]
    exact List.Subset.refl _
  cases h.traffic hcalm i with
  | sends hreceive _ _ _ hup =>
    rw [fence_follow hcalm hreceive]
    exact hkeep hup
  | draws seg ha hup | delivers ha _ _ hup =>
    subst ha
    rw [fence_follow hcalm (by simp)]
    exact hkeep hup
  | receives l ha m hup =>
    subst ha
    rw [fence_follow_receive, hup]
    rcases screen.fence with _ | f
    · simp
    · exact List.subset_cons_self _ _

/-- The messages behind the latest clear: only a new draw is added to the draws among them. -/
theorem mem_drop_up_step (hs : r.Screened i screen) (h : Step cfg userOf r a r')
    (hcalm : r.calm a) (hx : .draw n seg ∈ (r'.sockets i).up.drop (screen.follow i a).fence) :
    .draw n seg ∈ (r.sockets i).up.drop screen.fence ∨ n = (r.sessions i).draws := by
  have hkeep : ∀ {up}, (r'.sockets i).up = (r.sockets i).up ++ up →
      (screen.follow i a).fence = screen.fence →
      .draw n seg ∈ (r.sockets i).up.drop screen.fence ∨ .draw n seg ∈ up := by
    intro up hup hfence
    rw [hfence, hup, List.drop_append_of_le_length hs.fence] at hx
    exact List.mem_append.mp hx
  cases h.traffic hcalm i with
  | sends hreceive _ _ _ hup hother =>
    exact Or.inl ((hkeep hup (fence_follow hcalm hreceive)).resolve_right (hother n seg))
  | draws seg' ha hup =>
    subst ha
    refine (hkeep hup (fence_follow hcalm (by simp))).imp_right fun hnew ↦ ?_
    cases List.mem_singleton.mp hnew
    rfl
  | delivers ha _ _ hup hother =>
    subst ha
    exact Or.inl ((hkeep hup (fence_follow hcalm (by simp))).resolve_right (hother n seg))
  | receives l ha m hup =>
    subst ha
    rw [fence_follow_receive] at hx
    rw [hup]
    rcases hf : screen.fence with _ | f
    · rw [hf] at hx
      exact Or.inl (List.mem_cons_of_mem _ hx)
    · rw [hf] at hx
      exact Or.inl hx

theorem fence_step (hs : r.Screened i screen) (h : Step cfg userOf r a r') (hcalm : r.calm a) :
    (screen.follow i a).fence ≤ (r'.sockets i).up.length := by
  have hle := hs.fence
  cases h.traffic hcalm i with
  | sends hreceive _ _ _ hup =>
    rw [fence_follow hcalm hreceive, hup, List.length_append]
    omega
  | draws seg ha hup | delivers ha _ _ hup =>
    subst ha
    rw [fence_follow hcalm (by simp), hup, List.length_append]
    omega
  | receives l ha m hup =>
    subst ha
    rw [hup, List.length_cons] at hle
    rw [fence_follow_receive]
    omega

theorem relayed_step (hs : r.Screened i screen) (h : Step cfg userOf r a r')
    (hm : r.Meets a i screen) :
    ∀ c ∈ (screen.follow i a).clearsDown, r'.Precedes i c := by
  have hkeep : ∀ {down added}, a ≠ .deliver i →
      (r'.sockets i).down = (r.sockets i).down ++ down →
      (r'.sessions i).scene = (r.sessions i).scene ++ added → (∀ x, .received x ∉ added) →
      ∀ c ∈ (screen.follow i a).clearsDown, r'.Precedes i c := by
    intro down added hdeliver hdown hscene hother c hc
    rw [clearsDown_follow hm.calm hdeliver] at hc
    obtain ⟨hahead, hreceived, hsent⟩ := hs.relayed c hc
    refine ⟨?_, fun k hk ↦ ?_, ?_⟩
    · rw [hdown, List.length_append]
      omega
    · rw [hscene] at hk
      exact hreceived k ((List.mem_append.mp hk).resolve_right (hother k))
    · rwa [hdown, List.take_append_of_le_length hahead]
  cases h.traffic hm.calm i with
  | sends _ hdeliver _ _ _ _ hdown hscene =>
    exact hkeep hdeliver hdown (hscene.trans (List.append_nil _).symm) (by simp)
  | draws seg ha _ hdown hscene =>
    exact hkeep (by simp [ha]) (hdown.trans (List.append_nil _).symm) hscene (by simp)
  | receives l ha _ _ hdown hscene =>
    exact hkeep (by simp [ha]) (hdown.trans (List.append_nil _).symm)
      (hscene.trans (List.append_nil _).symm) (by simp)
  | delivers ha m _ _ _ hdown hadds hscene =>
    intro c' hc'
    have hfollow : (screen.follow i a).clearsDown
        = screen.clearsDown.map RelayedClear.advance := by
      rw [ha, Screen.follow, if_pos rfl, Screen.setClearsDown]
    rw [hfollow] at hc'
    obtain ⟨c, hc, rfl⟩ := List.mem_map.mp hc'
    obtain ⟨hahead, hreceived, hsent⟩ := hs.relayed c hc
    -- the message was ahead of the clear
    obtain ⟨f, hf⟩ := Nat.exists_eq_succ_of_ne_zero (hm.down ha c hc)
    rw [hf, hdown, List.take_succ_cons] at hsent
    rw [hf, hdown, List.length_cons] at hahead
    have hadvance : c.advance.ahead = f := by rw [RelayedClear.advance, hf, Nat.succ_sub_one]
    refine ⟨by omega, fun k hk ↦ ?_, ?_⟩
    · rw [hscene] at hk
      rcases List.mem_append.mp hk with hk | hk
      · exact hreceived k hk
      · obtain ⟨x, hx, heq⟩ := List.mem_map.mp hk
        cases heq
        exact hsent m List.mem_cons_self _ (hadds hx)
    · rw [hadvance]
      exact fun y hy ↦ hsent y (List.mem_cons_of_mem _ hy)

/-- **A step of the room keeps a scene in the order of the server.** -/
theorem step (hs : r.Screened i screen) (hr : r.Supplied) (hr' : r'.Supplied)
    (hnumbered : r.Numbered) (h : Step cfg userOf r a r') (hm : r.Meets a i screen)
    (hbase : screen.base ≤ highestSeq r.board.log.accepted 0) :
    r'.Screened i (screen.follow i a) where
  wiped := by
    obtain ⟨added, heq, -⟩ := h.scene_eq hm.calm i
    rw [Screen.wiped_follow, heq, List.length_append]
    exact Nat.le_add_right_of_le hs.wiped
  fence := hs.fence_step h hm.calm
  above s hx k hk := by
    rw [Screen.base_follow]
    exact hs.above_step hr hr' hnumbered h hm hbase hx hk
  below hnil s hx k hk := by
    rw [hs.gone_eq h hm.calm] at hx
    rw [Screen.base_follow]
    exact hs.below_step hr.genuine h ((clearsUp_follow hm.calm).mp hnil) hx hk
  settled hnil n seg hx := by
    rw [hs.gone_eq h hm.calm] at hx
    exact hs.settled_step hnumbered h hm.calm ((clearsUp_follow hm.calm).mp hnil) hx
  pending hne s hx k :=
    hs.pending_step hr hnumbered h hm (fun hnil ↦ hne ((clearsUp_follow hm.calm).mpr hnil)) hx
  uncalled hne n seg hx :=
    hs.uncalled_step hr hnumbered h hm (fun hnil ↦ hne ((clearsUp_follow hm.calm).mpr hnil)) hx
  after n seg hx seg' hsent := by
    replace hsent := hs.take_up_step h hm.calm hsent
    rcases hs.mem_scene h hm.calm hx with hold | ⟨_, heq⟩ | ⟨_, _, heq, _⟩
    · exact hs.after n seg hold seg' hsent
    · cases heq
      have hdrawn := hr.drawn.up i _ seg' (List.mem_of_mem_take hsent)
      exact lt_irrefl _ (hnumbered.draws i _ seg' hdrawn)
    · cases heq
  before n seg hx seg' hsent := by
    rw [hs.gone_eq h hm.calm] at hx
    rcases hs.mem_drop_up_step h hm.calm hsent with hold | rfl
    · exact hs.before n seg hx seg' hold
    · exact lt_irrefl _ (hnumbered.draws i _ seg (List.mem_of_mem_take hx))
  relayed := hs.relayed_step h hm

/-! ## The clears -/

omit [DecidableEq κ] in
theorem handleClear (hs : r.Screened i screen) : r.Screened i
    ((screen.clearBoard (r.sessions i).scene.length).emit (r.sockets i).up.length) := by
  have hscene : ∀ {s : SceneSegment}, s ∉ ((screen.clearBoard (r.sessions i).scene.length).emit
      (r.sockets i).up.length).scene (r.sessions i).scene := Screen.not_mem_scene rfl
  have hsome : ((screen.clearBoard (r.sessions i).scene.length).emit
      (r.sockets i).up.length).clearsUp ≠ [] := List.append_ne_nil_of_right_ne_nil _ (by simp)
  refine ⟨le_rfl, (Screen.fence_emit _).le, fun s hx ↦ absurd hx hscene,
    fun hnil ↦ absurd hnil hsome, fun hnil ↦ absurd hnil hsome, fun _ s hx ↦ absurd hx hscene,
    fun _ n seg hx ↦ absurd hx hscene, fun n seg hx ↦ absurd hx hscene, ?_, hs.relayed⟩
  intro n seg _ seg' hsent
  rw [Screen.fence_emit, List.drop_length] at hsent
  cases hsent

omit [DecidableEq κ] in
theorem relay (hs : r.Screened i screen) (hr : r.Genuine) {rest : List ℕ}
    (hclears : screen.clearsUp = 0 :: rest)
    (hdone : ∀ call userId seg, .append call userId seg ∉ (r.board.insts ()).callers) :
    r.Screened i ((screen.setClearsUp rest).setBase (highestSeq r.board.log.accepted 0)) := by
  have hsome : screen.clearsUp ≠ [] := by simp [hclears]
  have huncalled : ∀ n, ¬ r.Called i n := by
    rintro n ⟨call, userId, seg, -, hcall, -⟩
    exact hdone call userId seg hcall
  have hfence : (screen.setClearsUp rest).fence = screen.fence := by
    rw [Screen.fence, Screen.fence, hclears, List.getLastD_cons]
    rfl
  refine ⟨hs.wiped, hfence ▸ hs.fence, fun s hx k hk ↦ absurd hk (hs.pending hsome s hx k),
    fun _ s hx k hk ↦ ?_, fun _ n seg _ ↦ huncalled n, fun _ ↦ hs.pending hsome,
    fun _ n seg _ ↦ huncalled n, ?_, ?_, hs.relayed⟩
  · exact seq_le_highestSeq (hr.accepted_of_depicts (List.mem_of_mem_take hx) hk) _
  · exact hfence ▸ hs.after
  · exact hfence ▸ hs.before

omit [DecidableEq κ] in
theorem send (hs : r.Screened i screen) (hr : r.Genuine) : r.Screened i
    (screen.send ⟨(r.sockets i).down.length, highestSeq r.board.log.accepted 0⟩) where
  wiped := hs.wiped
  fence := hs.fence
  above := hs.above
  below := hs.below
  settled := hs.settled
  pending := hs.pending
  uncalled := hs.uncalled
  after := hs.after
  before := hs.before
  relayed c hc := by
    rcases List.mem_append.mp hc with hc | hc
    · exact hs.relayed c hc
    · obtain rfl := List.mem_singleton.mp hc
      refine ⟨le_rfl, fun k hk ↦ seq_le_highestSeq (hr.scene i k hk) _, fun m hm k hk ↦ ?_⟩
      exact seq_le_highestSeq (hr.down i m (List.mem_of_mem_take hm) hk) _

omit [DecidableEq κ] in
theorem wipe (hs : r.Screened i screen) {c : RelayedClear} {rest : List RelayedClear}
    (hclears : screen.clearsDown = c :: rest)
    (hown : ∀ n seg, .drawn n seg ∈ screen.scene (r.sessions i).scene →
      ¬ r.Underway i n ∧ ∀ k, ⟨i, n, k⟩ ∈ r.issued → k.seq ≤ c.upTo) :
    r.Screened i (((screen.clearBoard (r.sessions i).scene.length).setClearsDown rest).setBase
      (max screen.base c.upTo)) := by
  have hc := hs.relayed c (by simp [hclears])
  have hscene : ∀ {s : SceneSegment}, s ∉ (((screen.clearBoard
      (r.sessions i).scene.length).setClearsDown rest).setBase
        (max screen.base c.upTo)).scene (r.sessions i).scene := Screen.not_mem_scene rfl
  refine ⟨le_rfl, hs.fence, fun s hx ↦ absurd hx hscene, ?_, ?_, fun _ s hx ↦ absurd hx hscene,
    fun _ n seg hx ↦ absurd hx hscene, fun n seg hx ↦ absurd hx hscene, ?_, ?_⟩
  · intro hnil s hx k hk
    rcases Screen.gone_or_scene (List.mem_of_mem_take hx) with hgone | hleft
    · exact (hs.below hnil s hgone k hk).trans (le_max_left _ _)
    · cases s with
      | received x =>
        obtain rfl : x = k := hk
        exact (hc.scene x (List.mem_of_mem_take hx)).trans (le_max_right _ _)
      | drawn n seg => exact ((hown n seg hleft).2 k hk).trans (le_max_right _ _)
  · intro hnil n seg hx hcalled
    rcases Screen.gone_or_scene (List.mem_of_mem_take hx) with hgone | hleft
    · exact hs.settled hnil n seg hgone hcalled
    · exact (hown n seg hleft).1 hcalled.underway
  · intro n seg hx seg' hsent
    rcases Screen.gone_or_scene (List.mem_of_mem_take hx) with hgone | hleft
    · exact hs.before n seg hgone seg' hsent
    · exact (hown n seg hleft).1 (.sent seg' (List.mem_of_mem_drop hsent))
  · intro c' hc'
    exact hs.relayed c' (hclears ▸ List.mem_cons_of_mem _ hc')

end Screened

theorem upTo_follow (h : screen.UpTo last) (hcalm : r.calm a) :
    (screen.follow i a).UpTo last := by
  have hmap : (screen.follow i a).clearsDown.map RelayedClear.upTo
      = screen.clearsDown.map RelayedClear.upTo := by
    unfold Screen.follow
    split
    · split_ifs <;> rfl
    · split_ifs
      · exact List.map_map
      · rfl
    · cases hcalm
    · rfl
  constructor
  · rw [Screen.base_follow]
    exact h.base
  · rw [hmap]
    exact h.down
  · rw [Screen.base_follow, hmap]
    exact h.latest

theorem Step.joined (h : Step cfg userOf r a r') (hcalm : r.calm a) (hroom : (r.sockets i).inRoom) :
    (r'.sockets i).inRoom := by
  have hmove := h.clientMove i
  generalize r'.sessions i = session, r'.sockets i = socket at hmove
  cases hmove with
  | disconnect ha => exact absurd ha (ne_disconnect_of_calm hcalm)
  | joins => rfl
  | _ => exact hroom

end Room

end Synapse
