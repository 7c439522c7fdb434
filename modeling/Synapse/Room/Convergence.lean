import Synapse.Room.Order

/-!
# Convergence at quiescence

A client that has joined is owed every stroke the board has accepted. Until the stroke is in its
scene, something on the way will bring it there: a message to the client, a load whose reply will
contain it, or a request for a load, at the presence service or still on the wire. `Covered` lists
these, and a step hands the stroke from one to the next. The mark does not appear in it, although
the client asks by its mark: a gap is reported with a number below the stroke that revealed it, and
the numbers reported at a join are those of an empty scene.

One link can break, and it is the service's: a reply that misses a stroke it owes, because the
stroke was in a batch in flight when the rows were read, or left the buffer for one before the
merge. The client then raises its mark past the hole, and no later message fills it. `Converging`
excludes such steps.
-/

namespace Synapse

open Transition

/-- The number a request for the history reports. -/
def ClientMessage.asks : ClientMessage → Option ℕ
  | joinRoom n | requestResync n => some n
  | draw _ _ => none

theorem getD_normalizeSinceSeq (n : ℕ) : (normalizeSinceSeq n).getD 0 = n := by
  unfold normalizeSinceSeq
  split_ifs with h
  · exact h.symm
  · rfl

theorem Action.quiet_of_calls {b : Action} (h : b.calls) (cfg : Config) (inst : Instance) :
    b.compacts = false ∧ World.readsRows b = false ∧ Instance.captures cfg inst b = false := by
  unfold Action.calls at h
  split at h
  · exact ⟨rfl, rfl, rfl⟩
  · exact ⟨rfl, rfl, rfl⟩
  · exact ⟨rfl, rfl, rfl⟩
  · cases h

namespace Room

variable {κ : Type*} {r r' : Room κ} {i : κ} {k : PersistedStroke}

/-- Something brings the stroke `k` to client `i`, or has brought it. -/
inductive Covered (r : Room κ) (i : κ) (k : PersistedStroke) : Prop
  | shown (h : r.Shown i k)
  | sent (m : ServerMessage) (hm : m ∈ (r.sockets i).down) (hk : k ∈ m.strokes)
  | loading (request : Request) (load : Load) (h : r.Loading i request load)
      (hpending : load.phase.pending) (hk : k ∈ load.before)
      (hlt : load.sinceSeq.getD 0 < k.seq)
      (hprobe : ∀ n, request = .probe n → n.getD 0 < k.seq)
  | arriving (n : Option ℕ) (h : n ∈ (r.sockets i).arriving) (hlt : n.getD 0 < k.seq)
  | asked (m : ClientMessage) (n : ℕ) (hm : m ∈ (r.sockets i).up) (hasks : m.asks = some n)
      (hlt : n < k.seq)

variable [DecidableEq κ] {cfg : Config} {userOf : κ → String} {a : RoomAction κ}

theorem Covered.of_sent (hr : r.InOrder) (h : Step cfg userOf r a r') (hcalm : r.calm a)
    {m : ServerMessage} (hm : m ∈ (r.sockets i).down) (hk : k ∈ m.strokes) : r'.Covered i k := by
  have hsent : m ∈ (r'.sockets i).down → r'.Covered i k := fun hm ↦ .sent m hm hk
  have hshown : .received k ∈ (r'.sessions i).scene → r'.Covered i k :=
    fun hs ↦ .shown ⟨_, hs, rfl⟩
  have hasked : ∀ n, .requestResync n ∈ (r'.sockets i).up → n < k.seq → r'.Covered i k :=
    fun n hup hlt ↦ .asked _ n hup rfl hlt
  have hmove := h.clientMove i
  generalize r'.sessions i = session, r'.sockets i = socket at hmove hsent hshown hasked
  cases hmove with
  | disconnect ha => exact absurd ha (ne_disconnect_of_calm hcalm)
  | broadcast | replies => exact hsent (Socket.mem_down_send.mpr (Or.inl hm))
  | ignores x down hdown hseq =>
    exact absurd (hr.not_ignored hdown) (not_lt.mpr hseq)
  | applies x down hdown =>
    rw [hdown] at hm
    rcases List.mem_cons.mp hm with rfl | hm
    · obtain rfl := List.mem_singleton.mp hk
      exact hshown (Session.received_mem_commitRemote.mpr (Or.inr rfl))
    · exact hsent hm
  | reports x down hdown hseq =>
    -- the stroke is dropped, but the client asks for what comes after its mark
    rw [hdown] at hm
    rcases List.mem_cons.mp hm with rfl | hm
    · obtain rfl := List.mem_singleton.mp hk
      exact hasked _ (Socket.mem_up_emit.mpr (Or.inr rfl)) (by omega)
    · exact hsent hm
  | adopts history down hdown =>
    rw [hdown] at hm
    rcases List.mem_cons.mp hm with rfl | hm
    · exact hshown (Session.received_mem_roomHistory.mpr (Or.inr hk))
    · exact hsent hm
  | _ => exact hsent hm

theorem Covered.of_loading (h : Step cfg userOf r a r') (hcalm : r.calm a)
    (haccepted : k ∈ r.board.log.accepted) {request : Request} {load : Load}
    (hloading : r.Loading i request load) (hpending : load.phase.pending)
    (hk : k ∈ load.before) (hlt : load.sinceSeq.getD 0 < k.seq)
    (hprobe : ∀ n, request = .probe n → n.getD 0 < k.seq)
    (hreply : ∀ l snapshotSeq history, (r'.board.insts ()).loads l
      = some { load with phase := .resolved snapshotSeq history } →
        Merges (r.board.insts ()).buffer load snapshotSeq history →
        k ∈ history.strokes ∨ r'.Covered i k) : r'.Covered i k := by
  rcases h.loading hloading hpending (ne_disconnect_of_calm hcalm) (ne_fail_of_calm hcalm) with
    ⟨load', hloading', hpending', hbefore, hsince⟩
    | ⟨l, snapshotSeq, history, hload', hmerges, hsent⟩ | ⟨n, rfl, hloading'⟩
  · exact .loading request load' hloading' hpending' (hbefore ▸ hk) (hsince ▸ hlt) hprobe
  · exact (hreply l snapshotSeq history hload' hmerges).elim (.sent _ hsent) id
  · -- the probe has found no reason to send the baseline
    refine .loading .delta _ hloading' rfl haccepted (hprobe n rfl) ?_
    rintro _ ⟨⟩

theorem Covered.of_arriving (h : Step cfg userOf r a r') (hcalm : r.calm a)
    (haccepted : k ∈ r.board.log.accepted) {n : Option ℕ} (hn : n ∈ (r.sockets i).arriving)
    (hlt : n.getD 0 < k.seq) : r'.Covered i k := by
  have harriving : n ∈ (r'.sockets i).arriving → r'.Covered i k := fun hn ↦ .arriving n hn hlt
  have hmove := h.clientMove i
  generalize r'.sessions i = session, r'.sockets i = socket at hmove harriving
  cases hmove with
  | disconnect ha => exact absurd ha (ne_disconnect_of_calm hcalm)
  | joins => exact harriving (List.mem_append_left _ hn)
  | arrives n' _ hload =>
    by_cases hne : n = n'
    · subst hne
      refine .loading .join _ hload rfl haccepted hlt ?_
      rintro _ ⟨⟩
    · exact harriving ((List.mem_erase_of_ne hne).mpr hn)
  | _ => exact harriving hn

/-- A request on the wire goes on to the presence service or to a load. -/
theorem Covered.of_asked (h : Step cfg userOf r a r') (hcalm : r.calm a)
    (haccepted : k ∈ r.board.log.accepted) {m : ClientMessage} {n : ℕ}
    (hm : m ∈ (r.sockets i).up) (hasks : m.asks = some n) (hlt : n < k.seq) :
    r'.Covered i k := by
  have hasked : m ∈ (r'.sockets i).up → r'.Covered i k := fun hm ↦ .asked m n hm hasks hlt
  have harriving : normalizeSinceSeq n ∈ (r'.sockets i).arriving → r'.Covered i k :=
    fun hn ↦ .arriving _ hn (by rwa [getD_normalizeSinceSeq])
  have hmove := h.clientMove i
  generalize r'.sessions i = session, r'.sockets i = socket at hmove hasked harriving
  cases hmove with
  | connect | draw | reports => exact hasked (Socket.mem_up_emit.mpr (Or.inl hm))
  | disconnect ha => exact absurd ha (ne_disconnect_of_calm hcalm)
  | joins sinceSeq up hup =>
    rw [hup] at hm
    rcases List.mem_cons.mp hm with rfl | hm
    · cases hasks
      exact harriving (List.mem_append_right _ (List.mem_singleton_self _))
    · exact hasked hm
  | appends _ _ up hup | rejected _ _ _ up _ hup =>
    rw [hup] at hm
    rcases List.mem_cons.mp hm with rfl | hm
    · cases hasks
    · exact hasked hm
  | resyncs sinceSeq up hup hload =>
    rw [hup] at hm
    rcases List.mem_cons.mp hm with rfl | hm
    · cases hasks
      refine .loading _ _ hload rfl haccepted (Nat.zero_lt_of_lt hlt) ?_
      rintro _ ⟨⟩
      rwa [getD_normalizeSinceSeq]
    · exact hasked hm
  | _ => exact hasked hm

theorem Covered.of_accept (hdrawn : r.Drawn) {author : Option (Author κ)}
    (hauthor : ∀ x ∈ author, x ∈ r.authors) (w : World Unit) (hroom : (r.sockets i).inRoom) :
    (((r.broadcast author k).issue author k).setBoard w).Covered i k := by
  have hsockets := r.sockets_broadcast author k i
  split_ifs at hsockets with hsent
  · refine .sent (.draw k) ?_ (List.mem_singleton_self k)
    change _ ∈ ((r.broadcast author k).sockets i).down
    rw [hsockets]
    exact Socket.mem_down_send.mpr (Or.inr rfl)
  · -- in the room and not sent to: `i` is the socket the draw came in on
    have hown : ∃ x ∈ author, x.attached ∧ x.client = i := by
      by_contra hnone
      exact hsent ⟨hroom, fun x hx hattached hi ↦ hnone ⟨x, hx, hattached, hi⟩⟩
    obtain ⟨x, hx, -, rfl⟩ := hown
    obtain ⟨seg, hseg⟩ := hdrawn.authors x (hauthor x hx)
    refine .shown ⟨_, hseg, List.mem_append_right _ ?_⟩
    rw [Option.mem_def] at hx
    simp [hx]

/-- Every client in the room is covered for every accepted stroke. -/
def Covers (r : Room κ) : Prop :=
  ∀ i, (r.sockets i).inRoom → ∀ k ∈ r.board.log.accepted, r.Covered i k

/-- What makes a room converge. -/
structure Convergent (r : Room κ) : Prop where
  board : r.board.Ledger
  genuine : r.Genuine
  drawn : r.Drawn
  inOrder : r.InOrder
  admits : r.Admits
  covers : r.Covers

omit [DecidableEq κ] in
theorem Convergent.of_init (h : r.init) (habove : ∀ k ∈ r.board.log.store.strokes.rows,
    r.board.log.store.getSnapshotSeq < k.seq) : r.Convergent := by
  refine ⟨.of_init h.1 habove, .of_init h, .of_init h, .of_init h, .of_init h, ?_⟩
  intro i hroom
  rw [h.2.2.1 i] at hroom
  cases hroom

/-- The steps that lose nothing: calm, without a compaction, and such that no stroke escapes a
load. -/
def Converging (cfg : Config) (r : Room κ) (a : RoomAction κ) : Prop :=
  r.calm a ∧ ∀ b ∈ a.ofService, World.Kept cfg r.board ((), b)

theorem ledger_step (hboard : r.board.Ledger) (hok : r.Converging cfg a)
    (h : Step cfg userOf r a r') : r'.board.Ledger := by
  have hsteps : (World.machine fun _ ↦ cfg).Steps (World.Kept cfg) r.board r'.board := by
    apply h.board
    · intro w b hb
      obtain ⟨hcompacts, hreads, hcaptures⟩ := Action.quiet_of_calls hb cfg (w.insts ())
      exact ⟨hcompacts, .of_quiet hreads hcaptures⟩
    · exact hok.2
  exact hsteps.invariant hboard fun u b v hu hb hs ↦ hu.step hb hs

/-- The reply that a load of client `i` makes in the step contains the stroke `k`, or the client has
no need of it. -/
def Delivers (r r' : Room κ) (i : κ) (k : PersistedStroke) : Prop :=
  ∀ request load, r.Loading i request load → k ∈ load.before → load.sinceSeq.getD 0 < k.seq →
    ∀ l snapshotSeq history, (r'.board.insts ()).loads l
      = some { load with phase := .resolved snapshotSeq history } →
        Merges (r.board.insts ()).buffer load snapshotSeq history →
        k ∈ history.strokes ∨ r'.Covered i k

/-- A step that delivers what is owed hands on what covers a stroke. -/
theorem Covered.step (hr : r.InOrder) (h : Step cfg userOf r a r') (hcalm : r.calm a)
    (hdelivers : r.Delivers r' i k) (haccepted : k ∈ r.board.log.accepted)
    (hk : r.Covered i k) : r'.Covered i k := by
  cases hk with
  | shown hshown => exact .shown (hshown.step h)
  | sent m hm hmem => exact .of_sent hr h hcalm hm hmem
  | loading request load hloading hpending hmem hlt hprobe =>
    exact .of_loading h hcalm haccepted hloading hpending hmem hlt hprobe
      (hdelivers request load hloading hmem hlt)
  | arriving n hn hlt => exact .of_arriving h hcalm haccepted hn hlt
  | asked m n hm hasks hlt => exact .of_asked h hcalm haccepted hm hasks hlt

theorem Covered.of_join (hadmits : r.Admits) (h : Step cfg userOf r a r')
    (hbefore : (r.sockets i).inRoom = false) (hafter : (r'.sockets i).inRoom)
    (hpos : 0 < k.seq) : r'.Covered i k := by
  have hcovers : none ∈ (r'.sockets i).arriving → r'.Covered i k := fun hn ↦ .arriving none hn hpos
  have houtside := hadmits i hbefore
  have hmove := h.clientMove i
  generalize r'.sessions i = session, r'.sockets i = socket at hmove hafter hcovers
  cases hmove with
  | joins sinceSeq up hup =>
    apply hcovers
    rcases houtside.up (.joinRoom sinceSeq) (by simp [hup]) with hjoin | ⟨_, _, hdraw⟩
    · cases hjoin
      exact List.mem_append_right _ (List.mem_singleton_self _)
    · cases hdraw
  | disconnect => cases hafter
  | _ =>
    have hroom : (r.sockets i).inRoom = true := hafter
    rw [hbefore] at hroom
    cases hroom

/-- **A step that delivers what is owed leaves no client behind.** -/
theorem Covers.step (hr : r.Covers) (hinOrder : r.InOrder) (hdrawn : r.Drawn) (hadmits : r.Admits)
    (h : Step cfg userOf r a r') (hcalm : r.calm a)
    (hpos : ∀ k ∈ r'.board.log.accepted, 0 < k.seq) (hdelivers : ∀ i k, r.Delivers r' i k) :
    r'.Covers := by
  intro i hafter k hk
  cases hbefore : (r.sockets i).inRoom with
  | false => exact .of_join hadmits h hbefore hafter (hpos k hk)
  | true =>
    rcases h.accepts with ⟨haccepted, -⟩ | ⟨call, _, _, _, x, -, -, haccepted, hr'⟩ <;>
      rw [haccepted] at hk
    · exact .step hinOrder h hcalm (hdelivers i k) hk (hr i hbefore k hk)
    · rcases List.mem_append.mp hk with hk | hk
      · exact .step hinOrder h hcalm (hdelivers i k) hk (hr i hbefore k hk)
      · obtain rfl := List.mem_singleton.mp hk
        rw [hr']
        exact .of_accept hdrawn (fun _ hx ↦ List.mem_of_getElem? hx) _ hbefore

/-- A converging step delivers what is owed. -/
theorem delivers_of_converging (hboard : r.board.Ledger) (hok : r.Converging cfg a)
    (h : Step cfg userOf r a r') (i : κ) (k : PersistedStroke) : r.Delivers r' i k := by
  intro request load _ hk hlt l snapshotSeq history hload' _
  exact Or.inl ((ledger_step hboard hok h).mem_history hload' rfl hk hlt)

theorem Convergent.step (hr : r.Convergent) (hok : r.Converging cfg a)
    (h : Step cfg userOf r a r') : r'.Convergent where
  board := ledger_step hr.board hok h
  genuine := hr.genuine.step h
  drawn := hr.drawn.step h hok.1
  inOrder := hr.inOrder.step hr.genuine (fun hf ↦ Nat.zero_lt_of_lt (hr.board.next hf)) h
  admits := hr.admits.step h hok.1
  covers := hr.covers.step hr.inOrder hr.drawn hr.admits h hok.1
    (fun k hk ↦ Nat.zero_lt_of_lt ((ledger_step hr.board hok h).above k hk))
    (delivers_of_converging hr.board hok h)

/-- Nothing is on its way, and no handler is at work. -/
structure Quiescent (r : Room κ) : Prop where
  up : ∀ i, (r.sockets i).up = []
  down : ∀ i, (r.sockets i).down = []
  arriving : ∀ i, (r.sockets i).arriving = []
  requests : ∀ l, r.requests l = none
  calls : ∀ call userId seg, .append call userId seg ∉ (r.board.insts ()).callers

omit [DecidableEq κ] in
/-- In a quiescent room, whatever was on its way has arrived. -/
theorem Covered.shown_of_quiescent (hk : r.Covered i k) (hq : r.Quiescent) : r.Shown i k := by
  cases hk with
  | shown h => exact h
  | sent m hm =>
    rw [hq.down i] at hm
    cases hm
  | loading request load h =>
    obtain ⟨l, hrequest, -⟩ := h
    rw [hq.requests l] at hrequest
    cases hrequest
  | arriving n h =>
    rw [hq.arriving i] at h
    cases h
  | asked m n hm =>
    rw [hq.up i] at hm
    cases hm

omit [DecidableEq κ] in
theorem Drawn.depicts_of_quiescent (hr : r.Drawn) (hgenuine : r.Genuine) (hq : r.Quiescent) :
    ∀ s ∈ (r.sessions i).scene, ∃ k ∈ r.board.log.accepted, r.Depicts i s k := by
  intro s hs
  cases s with
  | received k => exact ⟨k, hgenuine.scene i k hs, rfl⟩
  | drawn n seg =>
    rcases hr.scene i n seg hs with (⟨seg', hsent⟩ | ⟨call, userId, seg', _, hcall, -⟩) | ⟨k, hk⟩
    · rw [hq.up i] at hsent
      cases hsent
    · exact absurd hcall (hq.calls call userId seg')
    · exact ⟨k, hgenuine.issued _ hk, hk⟩

omit [DecidableEq κ] in
/-- In a quiescent room, the scenes show what has been accepted and nothing else. -/
theorem Convergent.shown_of_quiescent (hr : r.Convergent) (hq : r.Quiescent)
    (hroom : (r.sockets i).inRoom) : (∀ k ∈ r.board.log.accepted, r.Shown i k) ∧
      ∀ s ∈ (r.sessions i).scene, ∃ k ∈ r.board.log.accepted, r.Depicts i s k :=
  ⟨fun k hk ↦ (hr.covers i hroom k hk).shown_of_quiescent hq,
    hr.drawn.depicts_of_quiescent hr.genuine hq⟩

/-- **Convergence at quiescence.** In every run over a board whose rows are all above its baseline
and whose steps are converging, whenever nothing is under way, every client in the room shows every
stroke the board has accepted, and nothing else. -/
theorem converges_of_converging {r₀ : Room κ} (h₀ : r₀.init)
    (habove : ∀ k ∈ r₀.board.log.store.strokes.rows,
      r₀.board.log.store.getSnapshotSeq < k.seq)
    (h : (machine cfg userOf).Steps (Converging cfg) r₀ r) (hq : r.Quiescent)
    (hroom : (r.sockets i).inRoom) : (∀ k ∈ r.board.log.accepted, r.Shown i k) ∧
      ∀ s ∈ (r.sessions i).scene, ∃ k ∈ r.board.log.accepted, r.Depicts i s k := by
  have hr : r.Convergent := h.invariant (.of_init h₀ habove) fun u a v hu hok hs ↦
    hu.step hok (.of_step hs)
  exact hr.shown_of_quiescent hq hroom

/-! ## Two clients -/

/-- Whether the load that is about to read the rows was called on an empty board. -/
def readsEarly (w : World Unit) : Action → Bool
  | .load l .readRows => ((w.insts ()).loads l).all fun load ↦ load.before.isEmpty
  | _ => true

/-- Whether the step neither compacts, nor captures the buffer, nor reads rows that are owed. -/
def still (cfg : Config) (r : Room κ) (a : RoomAction κ) : Bool :=
  a.ofService.all fun b ↦
    !b.compacts && !Instance.captures cfg (r.board.insts ()) b && readsEarly r.board b

omit [DecidableEq κ] in
theorem converging_of_still (hcalm : r.calm a) (hstill : r.still cfg a) : r.Converging cfg a := by
  refine ⟨hcalm, fun b hb ↦ ?_⟩
  rw [still, Option.mem_def.mp hb] at hstill
  simp only [Option.all_some, Bool.and_eq_true, Bool.not_eq_true'] at hstill
  obtain ⟨⟨hcompacts, hcaptures⟩, hreads⟩ := hstill
  refine ⟨hcompacts, ?_, fun hc ↦ ?_⟩
  · rintro l rfl load hload snapshotSeq - d k - hk
    rw [readsEarly, Option.mem_def.mp hload, Option.all_some, List.isEmpty_iff] at hreads
    have hbefore := (World.mem_owed.mp hk).1
    rw [hreads] at hbefore
    cases hbefore
  · rw [hcaptures] at hc
    cases hc

theorem converges_after_liveRun : ∃ r, (machine (sampleConfig 9 9) sampleUser).exec
      (start Bool sampleStore) liveRun = some r ∧
    (∀ k ∈ r.board.log.accepted, r.Shown true k) ∧
      ∀ s ∈ (r.sessions true).scene, ∃ k ∈ r.board.log.accepted, r.Depicts true s k := by
  obtain ⟨r, hr, hsteps⟩ := Machine.exists_of_guarded (start Bool sampleStore)
    (M := machine (sampleConfig 9 9) sampleUser) liveRun
    (show Option.isSome (((machine (sampleConfig 9 9) sampleUser).guarded fun r a ↦
      r.calm a ∧ r.still (sampleConfig 9 9) a).exec _ _) = true by decide)
  have hconverging := hsteps.mono fun r a h ↦ converging_of_still h.1 h.2
  cases hr
  refine ⟨_, rfl, converges_of_converging (init_start Bool sampleStore) ?_ hconverging
    ⟨?_, ?_, ?_, ?_, ?_⟩ rfl⟩
  · intro k hk
    cases hk
  · intro i
    cases i <;> rfl
  · intro i
    cases i <;> rfl
  · intro i
    cases i <;> rfl
  · intro l
    rcases l with _ | _ | l <;> rfl
  · intro call userId seg hcall
    cases hcall

/-- The first client's stroke fills a batch. The second client joins, and its load reads the rows,
while the insert is under way. -/
def holeRun : List (RoomAction Bool) :=
  joinRun false 0 ++ replyRun false 0 ++ drawRun ++ joinRun true 1 ++ replyRun true 1
    ++ [.service (.drain 0 .insert), .service (.drain 0 .insertResolves),
      .service (.drain 0 .touchResolves), .service (.drain 0 .resolve)]

/-- Whether nothing goes wrong in the step: it is calm, no write fails and nothing is compacted. -/
def undisturbed (r : Room κ) (a : RoomAction κ) : Bool :=
  r.calm a && a.ofService.all fun b ↦ !b.compacts && !(b matches .drain _ .fail)

/-- Everything has settled, and the second client does not show the stroke. -/
theorem hole_after_inFlight : ∃ r, ((machine (sampleConfig 1 9) sampleUser).guarded
      fun r a ↦ r.undisturbed a).exec (start Bool sampleStore) holeRun = some r ∧
    r.Quiescent ∧ (∀ d, (r.board.insts ()).batch d = []) ∧ (r.sockets true).inRoom ∧
    ∃ k ∈ r.board.log.accepted, ¬ r.Shown true k := by
  refine ⟨_, rfl, ⟨?_, ?_, ?_, ?_, ?_⟩, ?_, rfl, ⟨sampleSegment, "a", 1, "ada", 5⟩, ?_, ?_⟩
  · intro i
    cases i <;> rfl
  · intro i
    cases i <;> rfl
  · intro i
    cases i <;> rfl
  · intro l
    rcases l with _ | _ | l <;> rfl
  · intro call userId seg hcall
    cases hcall
  · intro d
    cases d <;> rfl
  · decide
  · rintro ⟨s, hs, -⟩
    cases hs

end Room

end Synapse
