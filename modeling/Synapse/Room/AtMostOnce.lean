import Synapse.Room.Provenance

/-!
# At most once on the screen

`decideStrokeAction` keeps a live stroke from being added twice. A batch does not pass it: the
listener of `room-history` appends what it is given, and raises the mark. So a batch that reaches
below the mark, because a live stroke or another reply has overtaken it, adds strokes again. And the
mark of a client does not know its own strokes, which are not sent back to it. They return with the
next batch, or live, if they are accepted only after the client has reconnected.

`delivers` says of a delivery that it does neither: what it adds would not have been ignored, and is
not the client's own. In a run whose deliveries are such no stroke is shown twice.
-/

namespace Synapse

open Transition

/-- What tells two segments of a scene apart. -/
def SceneSegment.tag : SceneSegment → ℕ ⊕ PersistedStroke
  | drawn n _ => .inl n
  | received k => .inr k

theorem Session.tags_roomHistory (session : Session) (history : RoomHistory) :
    (session.roomHistory history).scene.map SceneSegment.tag
      = session.scene.map SceneSegment.tag ++ history.strokes.map Sum.inr := by
  rw [scene_roomHistory, List.map_append, List.map_map]
  rfl

namespace Room

variable {κ : Type*} [DecidableEq κ] {r r' : Room κ} {i : κ} {k : PersistedStroke}

/-- Whether client `i` has drawn the stroke `k`. -/
def own (r : Room κ) (i : κ) (k : PersistedStroke) : Bool :=
  r.issued.any fun x ↦ decide (x.client = i ∧ x.stroke = k)

theorem own_iff : r.own i k ↔ ∃ n, ⟨i, n, k⟩ ∈ r.issued := by
  rw [own, List.any_eq_true]
  constructor
  · rintro ⟨⟨j, n, x⟩, hx, heq⟩
    obtain ⟨rfl, rfl⟩ := of_decide_eq_true heq
    exact ⟨n, hx⟩
  · rintro ⟨n, hn⟩
    exact ⟨_, hn, decide_eq_true ⟨rfl, rfl⟩⟩

/-- Whether the next message to client `i` adds only strokes of others, none of which the mark
would have kept out. -/
def fresh (r : Room κ) (i : κ) : Bool :=
  let action (k : PersistedStroke) :=
    decideStrokeAction (r.sessions i).resync.lastAppliedSeq k.seq
  match (r.sockets i).down with
  | [] => true
  | .draw k :: _ => decide (action k = .apply → r.own i k = false)
  | .roomHistory history :: _ =>
    history.strokes.all fun k ↦ decide (action k ≠ .ignore ∧ r.own i k = false)

/-- The deliveries that add nothing twice. -/
def delivers (r : Room κ) : RoomAction κ → Bool
  | .deliver i => r.fresh i
  | _ => true

theorem own_of_fresh_draw {down : List ServerMessage} (h : r.fresh i)
    (hdown : (r.sockets i).down = .draw k :: down)
    (hseq : k.seq = (r.sessions i).resync.lastAppliedSeq + 1) : r.own i k = false := by
  unfold fresh at h
  rw [hdown] at h
  apply of_decide_eq_true h
  have hnot : ¬ k.seq ≤ (r.sessions i).resync.lastAppliedSeq := by omega
  exact (if_neg hnot).trans (if_pos hseq)

theorem of_fresh_roomHistory {history : RoomHistory} {down : List ServerMessage} (h : r.fresh i)
    (hdown : (r.sockets i).down = .roomHistory history :: down) (hk : k ∈ history.strokes) :
    (r.sessions i).resync.lastAppliedSeq < k.seq ∧ r.own i k = false := by
  unfold fresh at h
  rw [hdown] at h
  obtain ⟨hnot, hown⟩ := of_decide_eq_true (List.all_eq_true.mp h k hk)
  refine ⟨?_, hown⟩
  by_contra hle
  exact hnot (if_pos (not_lt.mp hle))

/-! ## The invariant -/

/-- Why no stroke is shown twice. -/
structure Distinct (r : Room κ) : Prop where
  genuine : r.Genuine
  /-- A batch contains no stroke twice. -/
  batches : ∀ i history, .roomHistory history ∈ (r.sockets i).down →
    (history.strokes.map PersistedStroke.seq).Nodup
  mark : ∀ i k, .received k ∈ (r.sessions i).scene →
    k.seq ≤ (r.sessions i).resync.lastAppliedSeq
  foreign : ∀ i k, .received k ∈ (r.sessions i).scene → r.own i k = false
  draws : ∀ i n seg, .drawn n seg ∈ (r.sessions i).scene → n < (r.sessions i).draws
  nodup : ∀ i, ((r.sessions i).scene.map SceneSegment.tag).Nodup

theorem Distinct.of_init (h : r.init) : r.Distinct := by
  refine ⟨.of_init h, ?_, ?_, ?_, ?_, ?_⟩ <;> obtain ⟨-, hsessions, hsockets, -⟩ := h <;>
    simp [hsessions, hsockets]

variable {cfg : Config} {userOf : κ → String} {a : RoomAction κ}

theorem own_step (hr : r.Genuine) (h : Step cfg userOf r a r') (hk : k ∈ r.board.log.accepted)
    (hown : r.own i k = false) : r'.own i k = false := by
  rw [Bool.eq_false_iff, ne_eq, own_iff] at hown ⊢
  rintro ⟨n, hn⟩
  apply hown
  rcases h.accepts with ⟨-, hsame⟩ | ⟨call, _, _, _, x, hready, hseq, -, hr'⟩
  · exact ⟨n, hsame ▸ hn⟩
  · rw [hr'] at hn
    rcases List.mem_append.mp hn with hn | hn
    · exact ⟨n, hn⟩
    · obtain ⟨author, -, heq⟩ := List.mem_map.mp hn
      obtain rfl : x = k := congrArg Issue.stroke heq
      have hlt := hr.lt_nextSeq (by simp [hready]) hk
      omega

theorem Distinct.batches_step (hr : r.Distinct) (h : Step cfg userOf r a r') (i : κ)
    (history : RoomHistory) (hm : .roomHistory history ∈ (r'.sockets i).down) :
    (history.strokes.map PersistedStroke.seq).Nodup := by
  have hold : .roomHistory history ∈ (r.sockets i).down →
      (history.strokes.map PersistedStroke.seq).Nodup := hr.batches i history
  have hloads := (hr.genuine.board_step h).2
  have hmove := h.clientMove i
  generalize r'.sessions i = session, r'.sockets i = socket at hmove hm
  cases hmove with
  | disconnect => cases hm
  | broadcast =>
    rcases Socket.mem_down_send.mp hm with hm | heq
    · exact hold hm
    · cases heq
  | replies l request history' _ hreply =>
    rcases Socket.mem_down_send.mp hm with hm | heq
    · exact hold hm
    · cases heq
      exact (genuine_reply hloads hreply).2
  | ignores _ _ hdown | applies _ _ hdown | reports _ _ hdown | adopts _ _ hdown =>
    exact hold (hdown ▸ List.mem_cons_of_mem _ hm)
  | _ => exact hold hm

/-- What a scene has received is at or below the mark. -/
theorem Distinct.mark_step (hr : r.Distinct) (h : Step cfg userOf r a r') (i : κ)
    (k : PersistedStroke) (hk : .received k ∈ (r'.sessions i).scene) :
    k.seq ≤ (r'.sessions i).resync.lastAppliedSeq := by
  have hold : .received k ∈ (r.sessions i).scene →
      k.seq ≤ (r.sessions i).resync.lastAppliedSeq := hr.mark i k
  have hmove := h.clientMove i
  generalize r'.sessions i = session, r'.sockets i = socket at hmove hk
  cases hmove with
  | draw => exact hold (Session.received_mem_commitLocal.mp hk)
  | applies x _ _ hseq =>
    rcases Session.received_mem_commitRemote.mp hk with hk | rfl
    · have hle := hold hk
      have hlt : k.seq < x.seq := by omega
      exact hlt.le
    · exact le_rfl
  | adopts =>
    rcases Session.received_mem_roomHistory.mp hk with hk | hk
    · exact (hold hk).trans (le_highestSeq _ _)
    · exact seq_le_highestSeq hk _
  | _ => exact hold hk

theorem Distinct.foreign_step (hr : r.Distinct) (hok : r.delivers a)
    (h : Step cfg userOf r a r') (i : κ) (k : PersistedStroke)
    (hk : .received k ∈ (r'.sessions i).scene) : r'.own i k = false := by
  have hold : .received k ∈ (r.sessions i).scene → r'.own i k = false := fun hk ↦
    own_step hr.genuine h (hr.genuine.scene i k hk) (hr.foreign i k hk)
  have hnew : ∀ m ∈ (r.sockets i).down, k ∈ m.strokes → r.own i k = false →
      r'.own i k = false := fun m hm hk ↦ own_step hr.genuine h (hr.genuine.down i m hm hk)
  have hmove := h.clientMove i
  generalize r'.sessions i = session, r'.sockets i = socket at hmove hk
  cases hmove with
  | draw => exact hold (Session.received_mem_commitLocal.mp hk)
  | applies x down hdown hseq ha =>
    subst ha
    rcases Session.received_mem_commitRemote.mp hk with hk | rfl
    · exact hold hk
    · exact hnew (.draw k) (by simp [hdown]) (List.mem_singleton_self k)
        (own_of_fresh_draw hok hdown hseq)
  | adopts history down hdown ha =>
    subst ha
    rcases Session.received_mem_roomHistory.mp hk with hk | hk
    · exact hold hk
    · exact hnew (.roomHistory history) (by simp [hdown]) hk (of_fresh_roomHistory hok hdown hk).2
  | _ => exact hold hk

/-- A delivery adds nothing that is there. -/
theorem Distinct.nodup_step (hr : r.Distinct) (hok : r.delivers a)
    (h : Step cfg userOf r a r') (i : κ) :
    ((r'.sessions i).scene.map SceneSegment.tag).Nodup := by
  have hnodup := hr.nodup i
  -- whatever has the tag of a received stroke is that stroke
  have hreceived : ∀ k, .inr k ∈ (r.sessions i).scene.map SceneSegment.tag →
      k.seq ≤ (r.sessions i).resync.lastAppliedSeq := by
    intro k hk
    obtain ⟨s, hs, heq⟩ := List.mem_map.mp hk
    cases s with
    | drawn => cases heq
    | received x =>
      cases heq
      exact hr.mark i k hs
  have hmove := h.clientMove i
  generalize r'.sessions i = session, r'.sockets i = socket at hmove
  cases hmove with
  | draw seg =>
    change ((r.sessions i).scene ++ [_]).map SceneSegment.tag |>.Nodup
    rw [List.map_append, List.nodup_append]
    refine ⟨hnodup, List.nodup_singleton _, ?_⟩
    rintro x hx y hy rfl
    obtain rfl := List.mem_singleton.mp hy
    obtain ⟨s, hs, heq⟩ := List.mem_map.mp hx
    cases s with
    | drawn n seg' =>
      cases heq
      exact lt_irrefl _ (hr.draws i _ seg' hs)
    | received => cases heq
  | applies k down hdown hseq =>
    change ((r.sessions i).scene ++ [_]).map SceneSegment.tag |>.Nodup
    rw [List.map_append, List.nodup_append]
    refine ⟨hnodup, List.nodup_singleton _, ?_⟩
    rintro x hx y hy rfl
    obtain rfl := List.mem_singleton.mp hy
    have hle := hreceived k hx
    omega
  | adopts history down hdown ha =>
    subst ha
    rw [Session.tags_roomHistory, List.nodup_append]
    have hbatch : history.strokes.Nodup :=
      (hr.batches i history (by simp [hdown])).of_map
    refine ⟨hnodup, hbatch.map Sum.inr_injective, ?_⟩
    rintro x hx y hy rfl
    obtain ⟨k, hk, rfl⟩ := List.mem_map.mp hy
    -- the scene is at or below the mark, and a fresh batch is above it
    have habove := (of_fresh_roomHistory hok hdown hk).1
    have hle := hreceived k hx
    omega
  | _ => exact hnodup

theorem Distinct.step (hr : r.Distinct) (hok : r.delivers a) (h : Step cfg userOf r a r') :
    r'.Distinct where
  genuine := hr.genuine.step h
  batches := hr.batches_step h
  mark := hr.mark_step h
  foreign := hr.foreign_step hok h
  draws i := h.lt_draws i (hr.draws i)
  nodup := hr.nodup_step hok h

/-- Segments that show the same stroke have the same tag. -/
theorem Distinct.tag_eq (hr : r.Distinct) {s t : SceneSegment} (hs : s ∈ (r.sessions i).scene)
    (ht : t ∈ (r.sessions i).scene) (hsk : r.Depicts i s k) (htk : r.Depicts i t k) :
    s.tag = t.tag := by
  have hforeign : ∀ {n}, .received k ∈ (r.sessions i).scene → ⟨i, n, k⟩ ∉ r.issued := by
    intro n hk hn
    have hown := hr.foreign i k hk
    rw [own_iff.mpr ⟨n, hn⟩] at hown
    cases hown
  cases s with
  | drawn n =>
    cases t with
    | drawn m =>
      have heq := List.inj_on_of_nodup_map hr.genuine.once hsk htk rfl
      cases heq
      rfl
    | received x =>
      obtain rfl : x = k := htk
      exact absurd hsk (hforeign ht)
  | received x =>
    obtain rfl : x = k := hsk
    cases t with
    | drawn m => exact absurd htk (hforeign hs)
    | received y =>
      obtain rfl : y = x := htk
      rfl

/-- **At most once.** In every run whose deliveries add only strokes of others, and none that the
mark would have kept out, no two segments of a scene are the same stroke. -/
theorem atMostOnce_of_delivers (h : (machine cfg userOf).Reaches (fun r a ↦ r.delivers a) r)
    (i : κ) : (r.sessions i).scene.Pairwise fun s t ↦
      ∀ k, r.Depicts i s k → ¬ r.Depicts i t k := by
  have hr : r.Distinct := h.invariant (fun _ hi ↦ .of_init hi) fun u a v hu hok hs ↦
    hu.step hok (.of_step hs)
  refine (List.pairwise_map.mp (hr.nodup i)).imp_of_mem fun hs ht hne k hsk htk ↦ ?_
  exact hne (hr.tag_eq hs ht hsk htk)

/-- Two clients join, and the stroke of the first reaches the second once. -/
theorem atMostOnce_after_liveRun : ∃ r, (machine (sampleConfig 9 9) sampleUser).exec
      (start Bool sampleStore) liveRun = some r ∧
    (r.sessions true).scene.Pairwise fun s t ↦
      ∀ k, r.Depicts true s k → ¬ r.Depicts true t k := by
  obtain ⟨r, hr, hsteps⟩ := Machine.exists_of_guarded (start Bool sampleStore)
    (M := machine (sampleConfig 9 9) sampleUser) liveRun
    (show Option.isSome (((machine (sampleConfig 9 9) sampleUser).guarded fun r a ↦
      r.delivers a).exec _ _) = true by decide)
  exact ⟨r, hr, atMostOnce_of_delivers ⟨_, init_start Bool sampleStore, hsteps⟩ true⟩

/-- Each of two clients draws a stroke. The second stroke reveals a gap to the first client, which
has no number for its own. -/
def gapRun : List (RoomAction Bool) :=
  joinRun false 0 ++ replyRun false 0 ++ joinRun true 1 ++ replyRun true 1 ++ drawRun
    ++ [.deliver true, .draw true sampleSegment, .receive true 5, .resume "b" 6 0, .deliver false,
      .receive false 2, .service (.load 2 .readSnapshotSeq)] ++ replyRun false 2

/-- The reply brings the first client's own stroke back to it. -/
theorem own_stroke_returns : ∃ r, (machine (sampleConfig 9 9) sampleUser).exec
      (start Bool sampleStore) gapRun = some r ∧
    ¬ (r.sessions false).scene.Pairwise fun s t ↦
      ∀ k, r.Depicts false s k → ¬ r.Depicts false t k := by
  refine ⟨_, rfl, fun hpairwise ↦ ?_⟩
  obtain ⟨hfirst, -⟩ := List.pairwise_cons.mp hpairwise
  exact hfirst (.received ⟨sampleSegment, "a", 1, "ada", 5⟩) (by decide) _ (.head _) rfl

end Room

end Synapse
