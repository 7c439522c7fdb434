import Synapse.Room.Drawn
import Synapse.Stroke.Ledger

/-!
# The order on a client's channel

The service numbers the strokes in the order in which they are sent, and a channel keeps this order.
So a live stroke is never at or below the mark of the client it reaches, and the branch of
`decideStrokeAction` that ignores a stroke is not taken as long as the client has one connection.
The claim on a channel is `Ordered`, by the marks its messages will leave one after another.

Before its first join a client has no mark, and nothing is on its way to it (`Outside`).
-/

namespace Synapse

open Transition

theorem highestSeq_mono (strokes : List PersistedStroke) {m n : ℕ} (h : m ≤ n) :
    highestSeq strokes m ≤ highestSeq strokes n := by
  by_contra hlt
  obtain ⟨hn, hall⟩ := highestSeq_lt_iff.mp (not_le.mp hlt)
  exact lt_irrefl _ (highestSeq_lt_iff.mpr ⟨lt_of_le_of_lt h hn, hall⟩)

/-- Every live stroke of the channel is above the mark it will meet. -/
def Ordered : ℕ → List ServerMessage → Prop
  | _, [] => True
  | mark, .draw k :: down => mark < k.seq ∧ Ordered k.seq down
  | mark, .roomHistory history :: down => Ordered (highestSeq history.strokes mark) down

namespace Ordered

variable {m n : ℕ} {down : List ServerMessage}

theorem anti (h : Ordered n down) (hle : m ≤ n) : Ordered m down := by
  induction down generalizing m n with
  | nil => trivial
  | cons message down ih =>
    cases message with
    | draw k => exact ⟨lt_of_le_of_lt hle h.1, h.2⟩
    | roomHistory history => exact ih h (highestSeq_mono _ hle)

theorem concat_roomHistory (h : Ordered m down) (history : RoomHistory) :
    Ordered m (down ++ [.roomHistory history]) := by
  induction down generalizing m with
  | nil => trivial
  | cons message down ih =>
    cases message with
    | draw k => exact ⟨h.1, ih h.2⟩
    | roomHistory history => exact ih h

theorem concat_draw (h : Ordered m down) {k : PersistedStroke} (hmark : m < k.seq)
    (hdown : ∀ message ∈ down, ∀ x ∈ message.strokes, x.seq < k.seq) :
    Ordered m (down ++ [.draw k]) := by
  induction down generalizing m with
  | nil => exact ⟨hmark, trivial⟩
  | cons message down ih =>
    obtain ⟨hfirst, hrest⟩ := List.forall_mem_cons.mp hdown
    cases message with
    | draw x => exact ⟨h.1, ih h.2 (hfirst x (List.mem_singleton_self x)) hrest⟩
    | roomHistory history => exact ih h (highestSeq_lt_iff.mpr ⟨hmark, hfirst⟩) hrest

end Ordered

namespace Room

variable {κ : Type*} {r r' : Room κ} {i : κ}

/-- The high-water mark of client `i`. -/
def mark (r : Room κ) (i : κ) : ℕ := (r.sessions i).resync.lastAppliedSeq

/-- The channels are in order, and no mark is ahead of what has been accepted. -/
structure InOrder (r : Room κ) : Prop where
  ordered : ∀ i, Ordered (r.mark i) (r.sockets i).down
  mark : ∀ i n, 0 < n → (∀ k ∈ r.board.log.accepted, k.seq < n) → r.mark i < n

theorem InOrder.of_init (h : r.init) : r.InOrder := by
  obtain ⟨-, hsessions, hsockets, -, -, -⟩ := h
  constructor
  · intro i
    rw [hsockets]
    trivial
  · intro i n hn _
    rwa [Room.mark, hsessions]

theorem InOrder.not_ignored (hr : r.InOrder) {k : PersistedStroke} {down : List ServerMessage}
    (hdown : (r.sockets i).down = .draw k :: down) : r.mark i < k.seq := by
  have hordered := hr.ordered i
  rw [hdown] at hordered
  exact hordered.1

/-- What is known of a client that has not joined. -/
structure Outside (r : Room κ) (i : κ) : Prop where
  mark : r.mark i = 0
  down : (r.sockets i).down = []
  arriving : (r.sockets i).arriving = []
  up : ∀ m ∈ (r.sockets i).up, m = .joinRoom 0 ∨ ∃ n seg, m = .draw n seg
  requests : ∀ l request, r.requests l ≠ some (i, request)

/-- Every client is outside until it joins. -/
def Admits (r : Room κ) : Prop := ∀ i, (r.sockets i).inRoom = false → r.Outside i

theorem Admits.of_init (h : r.init) : r.Admits := by
  obtain ⟨-, hsessions, hsockets, hrequests, -, -⟩ := h
  intro i _
  constructor
  · rw [Room.mark, hsessions]
  all_goals simp [hsockets, hrequests]

variable [DecidableEq κ] {cfg : Config} {userOf : κ → String} {a : RoomAction κ}

theorem InOrder.mark_step (hr : r.InOrder) (hg : r.Genuine) (h : Step cfg userOf r a r') {n : ℕ}
    (hn : 0 < n) (hall : ∀ k ∈ r'.board.log.accepted, k.seq < n) : r'.mark i < n := by
  have hold : ∀ k ∈ r.board.log.accepted, k.seq < n := fun k hk ↦ hall k (h.accepted_subset hk)
  have hmark : (r.sessions i).resync.lastAppliedSeq < n := hr.mark i n hn hold
  unfold Room.mark
  have hmove := h.clientMove i
  generalize r'.sessions i = session, r'.sockets i = socket at hmove
  cases hmove with
  | applies k down hdown =>
    exact hold k (hg.down i (.draw k) (by simp [hdown]) (List.mem_singleton_self k))
  | adopts history down hdown =>
    refine highestSeq_lt_iff.mpr ⟨hmark, fun k hk ↦ hold k ?_⟩
    exact hg.down i (.roomHistory history) (by simp [hdown]) hk
  | _ => exact hmark

theorem InOrder.ordered_step (hr : r.InOrder) (hg : r.Genuine)
    (hnext : (r.board.insts ()).board.initPromise = some .fulfilled →
      0 < (r.board.insts ()).board.nextSeq)
    (h : Step cfg userOf r a r') : Ordered (r'.mark i) (r'.sockets i).down := by
  have hordered := hr.ordered i
  have hmark := hr.mark i
  unfold Room.mark at hordered hmark ⊢
  have hmove := h.clientMove i
  generalize r'.sessions i = session, r'.sockets i = socket at hmove
  cases hmove with
  | disconnect => trivial
  | broadcast k _ hready hseq =>
    have hbelow : ∀ x ∈ r.board.log.accepted, x.seq < k.seq := by
      intro x hx
      rw [hseq]
      exact hg.lt_nextSeq hready hx
    have hpos : 0 < k.seq := by
      rw [hseq]
      exact hnext (hg.fulfilled hready)
    -- the new number is above the mark and above all that is on the channel
    apply hordered.concat_draw (hmark _ hpos hbelow)
    intro message hmessage x hx
    exact hbelow x (hg.down i message hmessage hx)
  | replies => exact hordered.concat_roomHistory _
  | ignores k down hdown | reports k down hdown =>
    rw [hdown] at hordered
    -- the mark stays where it is, below the stroke passed over
    exact hordered.2.anti hordered.1.le
  | applies k down hdown =>
    rw [hdown] at hordered
    exact hordered.2
  | adopts history down hdown =>
    rw [hdown] at hordered
    exact hordered
  | _ => exact hordered

theorem InOrder.step (hr : r.InOrder) (hg : r.Genuine)
    (hnext : (r.board.insts ()).board.initPromise = some .fulfilled →
      0 < (r.board.insts ()).board.nextSeq)
    (h : Step cfg userOf r a r') : r'.InOrder where
  ordered _ := hr.ordered_step hg hnext h
  mark _ _ hn hall := hr.mark_step hg h hn hall

/-! ## Before the first join -/

theorem Step.request (h : Step cfg userOf r a r') {l : ℕ} {request : Request}
    (hrequest : r'.requests l = some (i, request)) :
    (∃ m request, r.requests m = some (i, request)) ∨
      (∃ n, .requestResync n ∈ (r.sockets i).up) ∨ (r.sockets i).arriving ≠ [] := by
  cases h with
  | disconnect j => exact Or.inl ⟨l, request, (Option.filter_eq_some_iff.mp hrequest).1⟩
  | receiveResync j m n up hup w =>
    replace hrequest := (requests_setRequest _ m l _).symm.trans hrequest
    split_ifs at hrequest with hl
    · cases hrequest
      exact Or.inr (Or.inl ⟨n, by simp [hup]⟩)
    · exact Or.inl ⟨l, request, hrequest⟩
  | presence j sinceSeq m harriving w =>
    replace hrequest := (requests_setRequest _ m l _).symm.trans hrequest
    split_ifs at hrequest with hl
    · cases hrequest
      exact Or.inr (Or.inr (List.ne_nil_of_mem harriving))
    · exact Or.inl ⟨l, request, hrequest⟩
  | resolveReply m _ _ _ _ _ w =>
    replace hrequest := (requests_setRequest (r.setBoard w) m l none).symm.trans hrequest
    split_ifs at hrequest with hl
    exact Or.inl ⟨l, request, hrequest⟩
  | resolveProbe m _ n _ _ _ w _ _ hasked =>
    replace hrequest := (requests_setRequest _ n l _).symm.trans hrequest
    split_ifs at hrequest with hn
    · cases hrequest
      exact Or.inl ⟨m, _, hasked⟩
    · replace hrequest := (requests_setRequest (r.setBoard w) m l none).symm.trans hrequest
      split_ifs at hrequest with hm
      exact Or.inl ⟨l, request, hrequest⟩
  | loadFails m w =>
    replace hrequest := (requests_setRequest r m l none).symm.trans hrequest
    split_ifs at hrequest with hm
    exact Or.inl ⟨l, request, hrequest⟩
  | _ => exact Or.inl ⟨l, request, hrequest⟩

theorem Outside.requests_step (ho : r.Outside i) (h : Step cfg userOf r a r') (l : ℕ)
    (request : Request) : r'.requests l ≠ some (i, request) := by
  intro hrequest
  rcases h.request hrequest with ⟨m, request', hasked⟩ | ⟨n, hsent⟩ | harriving
  · exact ho.requests m request' hasked
  · rcases ho.up _ hsent with hjoin | ⟨_, _, hdraw⟩
    · cases hjoin
    · cases hdraw
  · exact harriving ho.arriving

/-- Nothing is sent to a client that is outside, and it asks for nothing. -/
theorem Outside.step (ho : r.Outside i) (h : Step cfg userOf r a r') (hcalm : r.calm a)
    (hbefore : (r.sockets i).inRoom = false) (hafter : (r'.sockets i).inRoom = false) :
    r'.Outside i := by
  have hrequests := ho.requests_step h
  obtain ⟨hmark, hdown, harriving, hup, hasked⟩ := ho
  have htail : ∀ {m up}, (r.sockets i).up = m :: up →
      ∀ m ∈ up, m = .joinRoom 0 ∨ ∃ n seg, m = .draw n seg :=
    fun hcons m hm ↦ hup m (hcons ▸ List.mem_cons_of_mem _ hm)
  rw [Room.mark] at hmark
  suffices hmove : (r'.sessions i).resync.lastAppliedSeq = 0 ∧ (r'.sockets i).down = [] ∧
      (r'.sockets i).arriving = [] ∧
      ∀ m ∈ (r'.sockets i).up, m = .joinRoom 0 ∨ ∃ n seg, m = .draw n seg from
    ⟨hmove.1, hmove.2.1, hmove.2.2.1, hmove.2.2.2, hrequests⟩
  have hmove := h.clientMove i
  generalize r'.sessions i = session, r'.sockets i = socket at hmove hafter ⊢
  cases hmove with
  | stay => exact ⟨hmark, hdown, harriving, hup⟩
  | connect =>
    refine ⟨hmark, hdown, harriving, fun m hm ↦ ?_⟩
    rcases Socket.mem_up_emit.mp hm with hm | rfl
    · exact hup m hm
    · -- a fresh client reports the mark `0`
      rw [ResyncController.sinceSeq, hmark]
      exact Or.inl rfl
  | draw seg =>
    refine ⟨hmark, hdown, harriving, fun m hm ↦ ?_⟩
    rcases Socket.mem_up_emit.mp hm with hm | rfl
    · exact hup m hm
    · exact Or.inr ⟨_, seg, rfl⟩
  | disconnect ha =>
    subst ha
    cases hcalm
  | joins => cases hafter
  | appends _ _ _ _ hroom | broadcast _ hroom =>
    rw [hbefore] at hroom
    cases hroom
  | rejected _ _ _ _ _ hcons => exact ⟨hmark, hdown, harriving, htail hcons⟩
  | resyncs n _ hcons =>
    rcases hup (.requestResync n) (by simp [hcons]) with hjoin | ⟨_, _, hdraw⟩
    · cases hjoin
    · cases hdraw
  | arrives _ hmem =>
    rw [harriving] at hmem
    cases hmem
  | replies l request _ hrequest => exact absurd hrequest (hasked l request)
  | ignores _ _ hcons | applies _ _ hcons | reports _ _ hcons | adopts _ _ hcons =>
    rw [hdown] at hcons
    cases hcons

/-- **A client stays outside until it joins.** -/
theorem Admits.step (hr : r.Admits) (h : Step cfg userOf r a r') (hcalm : r.calm a) :
    r'.Admits := by
  intro i hafter
  have hbefore : (r.sockets i).inRoom = false := by
    have hmove := h.clientMove i
    generalize r'.sessions i = session, r'.sockets i = socket at hmove hafter
    cases hmove with
    | disconnect ha =>
      subst ha
      cases hcalm
    | joins => cases hafter
    | _ => exact hafter
  exact (hr i hbefore).step h hcalm hbefore hafter

end Room

end Synapse
