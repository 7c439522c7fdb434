import Synapse.Room.Convergence

/-!
# Convergence, whatever runs besides

`Converging` rules compactions out, since a reply stops at the baseline and the baseline moves. But
a client that has a stroke on its screen does not miss it in a reply, so a compaction does no harm
as long as it stays behind what the clients have. `Serves` asks this of the loads alone: when one
reads the rows, a stroke that its client lacks is above the baseline it has read and among the rows
or in the buffer, and it is not captured out of the buffer before the merge. Nothing is asked of the
service otherwise.

The account of the board in `Ledger` is not needed for this, only that all numbers are positive.
What it said of the loads is now said of the loads that a client awaits (`Fed`), by what the client
lacks.
-/

namespace Synapse

open Transition

/-! ## The board -/

theorem fromSeq_lt {sinceSeq : Option ℕ} {snapshotSeq m : ℕ} (hsince : sinceSeq.getD 0 < m)
    (hsnapshot : snapshotSeq < m) : fromSeq sinceSeq snapshotSeq < m := by
  cases sinceSeq with
  | none => exact hsnapshot
  | some n => exact max_lt hsince hsnapshot

namespace World

variable {cfg : Config} {u w : World Unit} {b : Action}

/-- No stroke has the number `0`, nor will one. -/
structure Positive (w : World Unit) : Prop where
  accepted : ∀ k ∈ w.log.accepted, 0 < k.seq
  next : (w.insts ()).board.initPromise = some .fulfilled → 0 < (w.insts ()).board.nextSeq

theorem Positive.of_init (h : w.init) (hpos : ∀ k ∈ w.log.store.strokes.rows, 0 < k.seq) :
    w.Positive := by
  obtain ⟨haccepted, -, hfresh⟩ := h
  refine ⟨haccepted ▸ hpos, fun hp ↦ ?_⟩
  rw [hfresh ()] at hp
  cases hp

theorem Positive.step (hw : w.Positive) (howned : w.Owned) {w' : World Unit} {a : Unit × Action}
    (h : w.step (fun _ ↦ cfg) a = some w') : w'.Positive := by
  obtain ⟨⟨⟩, b⟩ := a
  obtain ⟨log, inst, hstep, rfl⟩ := step_eq_some.mp h
  have hs := Instance.Step.of_step hstep
  suffices hnew : (∀ k ∈ log.accepted, 0 < k.seq) ∧
      (inst.board.initPromise = some .fulfilled → 0 < inst.board.nextSeq) from
    ⟨hnew.1, fun hf ↦ by rw [put_insts_self] at hf ⊢; exact hnew.2 hf⟩
  by_cases hp : (w.insts ()).board.initPromise = some .fulfilled
  · rcases hs.counter hp with ⟨haccepted, hseq⟩ | ⟨k, hk, haccepted, hseq⟩
    · exact ⟨haccepted ▸ hw.accepted, fun _ ↦ hseq ▸ hw.next hp⟩
    · refine ⟨fun x hx ↦ ?_, fun _ ↦ by omega⟩
      rw [haccepted] at hx
      rcases List.mem_append.mp hx with hx | hx
      · exact hw.accepted x hx
      · rw [List.mem_singleton.mp hx, hk]
        exact hw.next hp
  · have hready : (w.insts ()).ready = [] := (howned.restored.dormant hp).ready
    have haccepted := hs.effect.accepted (Instance.accepts_of_ready_nil hready b)
    refine ⟨haccepted ▸ hw.accepted, fun hf ↦ ?_⟩
    cases hs.restoreMove with
    | stay h' => exact absurd (h' ▸ hf) hp
    | finish highest _ _ hseq => omega
    | start _ h' | ensured _ h' | snapshotRead _ h' | tailRead _ _ h' | fail _ h' =>
      rw [h'] at hf
      cases hf

theorem rowsRead_of_step (h : u.step (fun _ ↦ cfg) ((), b) = some w) {l : ℕ} {load : Load}
    (hload : (w.insts ()).loads l = some load) {snapshotSeq : ℕ} {persisted : List PersistedStroke}
    (hphase : load.phase = .rowsRead snapshotSeq persisted) :
    (u.insts ()).loads l = some load ∨ (b = .load l .readRows ∧ ∃ old,
      (u.insts ()).loads l = some old ∧ old.phase = .readingRows snapshotSeq ∧
        load.before = old.before ∧ load.sinceSeq = old.sinceSeq ∧
        persisted = u.log.store.loadSince (fromSeq old.sinceSeq snapshotSeq)) := by
  obtain ⟨log, inst, hstep, rfl⟩ := step_eq_some.mp h
  have hmove := (Instance.Step.of_step hstep).loadMove l
  rw [put_insts_self] at hload
  rw [hload] at hmove
  generalize hold : (u.insts ()).loads l = old at hmove
  cases hmove with
  | stay => exact Or.inl rfl
  | readRows old n hread hb =>
    cases hphase
    exact Or.inr ⟨hb, old, rfl, hread, rfl, rfl, rfl⟩
  | call | readSnapshotSeq | resolve | fail => cases hphase

end World

namespace Room

variable {κ : Type*} {r r' : Room κ} {i : κ} {k : PersistedStroke} {load : Load} {request : Request}

/-! ## The condition -/

/-- A load owes client `i` the stroke, which has never been in the client's scene. -/
structure Lacks (r : Room κ) (i : κ) (load : Load) (k : PersistedStroke) : Prop where
  before : k ∈ load.before
  above : load.sinceSeq.getD 0 < k.seq
  unseen : ¬ r.Shown i k

/-- What the client lacks is where the load looks for it. -/
def ReadsAll (r : Room κ) (l : ℕ) : Prop :=
  ∀ i request load snapshotSeq, r.requests l = some (i, request) →
    (r.board.insts ()).loads l = some load → load.phase = .readingRows snapshotSeq →
    ∀ k, r.Lacks i load k → snapshotSeq < k.seq ∧
      (k ∈ r.board.log.store.strokes ∨ k ∈ (r.board.insts ()).buffer)

/-- No load between its reads and its merge needs a stroke of the buffer. -/
def NeedsNone (r : Room κ) : Prop :=
  ∀ i request load snapshotSeq persisted, r.Loading i request load →
    load.phase = .rowsRead snapshotSeq persisted →
    ∀ k, r.Lacks i load k → k ∈ (r.board.insts ()).buffer → k ∈ persisted

/-- Once the rows are read, what the client lacks is among them or in the buffer. -/
def Fed (r : Room κ) : Prop :=
  ∀ i request load snapshotSeq persisted, r.Loading i request load →
    load.phase = .rowsRead snapshotSeq persisted →
    ∀ k, r.Lacks i load k → k ∈ persisted ∨
      (snapshotSeq < k.seq ∧ k ∈ (r.board.insts ()).buffer)

variable [DecidableEq κ] {cfg : Config} {userOf : κ → String} {a : RoomAction κ}

/-- The calm steps at which no stroke escapes a load whose client lacks it. -/
def Serves (cfg : Config) (r : Room κ) (a : RoomAction κ) : Prop :=
  r.calm a ∧ ∀ b ∈ a.ofService, (∀ l, b = .load l .readRows → r.ReadsAll l) ∧
    (Instance.captures cfg (r.board.insts ()) b → r.NeedsNone)

/-! ## The loads that a client awaits -/

theorem Lacks.of_step (h : Step cfg userOf r a r') (hk : r'.Lacks i load k) : r.Lacks i load k :=
  ⟨hk.before, hk.above, fun hshown ↦ hk.unseen (hshown.step h)⟩

theorem Step.awaited (h : Step cfg userOf r a r') {l : ℕ}
    (hrequest : r'.requests l = some (i, request)) :
    r.requests l = some (i, request) ∨ ∃ load, (r'.board.insts ()).loads l = some load ∧
      load.phase = .readingSnapshot := by
  have hcall : ∀ {u w : World Unit} {m : ℕ} {n : Option ℕ} {request' : Option (κ × Request)}
      {q : Room κ}, u.step (fun _ ↦ cfg) ((), .loadForJoin m n) = some w →
      ((q.setRequest m request').setBoard w).requests l = some (i, request) →
      q.requests l = some (i, request) ∨ ∃ load, (w.insts ()).loads l = some load ∧
        load.phase = .readingSnapshot := by
    intro u w m n request' q hw hq
    replace hq := (requests_setRequest q m l request').symm.trans hq
    split_ifs at hq with hl
    · obtain ⟨log, inst, hstep, rfl⟩ := World.step_eq_some.mp hw
      obtain ⟨-, hstep⟩ := Option.ite_none_right_eq_some.mp hstep
      cases hstep
      rw [hl]
      exact Or.inr ⟨_, Function.update_self _ _ _, rfl⟩
    · exact Or.inl hq
  have hdrop : ∀ {m : ℕ} {q : Room κ}, (q.setRequest m none).requests l = some (i, request) →
      q.requests l = some (i, request) := by
    intro m q hq
    replace hq := (requests_setRequest q m l none).symm.trans hq
    split_ifs at hq
    exact hq
  cases h with
  | disconnect j => exact Or.inl (Option.filter_eq_some_iff.mp hrequest).1
  | receiveResync _ _ _ _ _ w hw | presence _ _ _ _ w hw => exact hcall hw hrequest
  | resolveReply m _ _ _ _ _ w => exact Or.inl (hdrop (q := r.setBoard w) hrequest)
  | resolveProbe m _ _ _ _ _ w _ _ _ _ hw' =>
    rcases hcall hw' hrequest with hq | hcalled
    · exact Or.inl (hdrop (q := r.setBoard w) hq)
    · exact Or.inr hcalled
  | loadFails => exact Or.inl (hdrop hrequest)
  | _ => exact Or.inl hrequest

/-- The service's own part of a step comes first, and the rest are calls. -/
theorem Step.boardSteps (h : Step cfg userOf r a r') :
    (World.machine fun _ ↦ cfg).Steps
      (fun w b ↦ b.2.calls ∨ (w = r.board ∧ b.2 ∈ a.ofService)) r.board r'.board :=
  h.board (fun _ _ hb ↦ Or.inl hb) fun _ hb ↦ Or.inr ⟨rfl, hb⟩

theorem Step.buffer (h : Step cfg userOf r a r') (hk : k ∈ (r.board.insts ()).buffer) :
    k ∈ (r'.board.insts ()).buffer ∨
      ∃ b ∈ a.ofService, Instance.captures cfg (r.board.insts ()) b := by
  refine h.boardSteps.invariant (P := fun w ↦ k ∈ (w.insts ()).buffer ∨
    ∃ b ∈ a.ofService, Instance.captures cfg (r.board.insts ()) b) (Or.inl hk) ?_
  rintro u ⟨⟨⟩, b⟩ v hu hb hs
  rcases hu with hu | hcaptured
  · replace hs : u.step (fun _ ↦ cfg) ((), b) = some v := hs
    obtain ⟨log, inst, hstep, rfl⟩ := World.step_eq_some.mp hs
    rw [World.put_insts_self]
    rcases World.buffer_step (Instance.Step.of_step hstep).effect hu with hbuffer | hcapture
    · exact Or.inl hbuffer
    · rcases hb with hcalls | ⟨rfl, hown⟩
      · rw [(Action.quiet_of_calls hcalls cfg _).2.2] at hcapture
        cases hcapture
      · exact Or.inr ⟨b, hown, hcapture⟩
  · exact Or.inr hcaptured

theorem Step.rowsRead (h : Step cfg userOf r a r') {l : ℕ}
    (hload : (r'.board.insts ()).loads l = some load) {snapshotSeq : ℕ}
    {persisted : List PersistedStroke} (hphase : load.phase = .rowsRead snapshotSeq persisted) :
    (r.board.insts ()).loads l = some load ∨ (.load l .readRows ∈ a.ofService ∧ ∃ old,
      (r.board.insts ()).loads l = some old ∧ old.phase = .readingRows snapshotSeq ∧
        load.before = old.before ∧ load.sinceSeq = old.sinceSeq ∧
        persisted = r.board.log.store.loadSince (fromSeq old.sinceSeq snapshotSeq)) := by
  refine h.boardSteps.invariant (P := fun w ↦ (w.insts ()).loads l = some load → _) Or.inl ?_ hload
  rintro u ⟨⟨⟩, b⟩ v hu hb hs hv
  rcases World.rowsRead_of_step hs hv hphase with hold | ⟨rfl, hreads⟩
  · exact hu hold
  · rcases hb with hcalls | ⟨rfl, hown⟩
    · cases hcalls
    · exact Or.inr ⟨hown, hreads⟩

theorem Fed.step (hr : r.Fed) (hok : r.Serves cfg a) (h : Step cfg userOf r a r') : r'.Fed := by
  rintro i request load snapshotSeq persisted ⟨l, hrequest, hload⟩ hphase k hk
  replace hk : r.Lacks i load k := hk.of_step h
  rcases h.awaited hrequest with hrequest | ⟨load', hload', hcalled⟩
  · rcases h.rowsRead hload hphase with hold | ⟨hreads, old, hold, hreading, hbefore, hsince, rfl⟩
    · rcases hr i request load snapshotSeq persisted ⟨l, hrequest, hold⟩ hphase k hk with
        hrow | ⟨hlt, hbuffer⟩
      · exact Or.inl hrow
      · rcases h.buffer hbuffer with hbuffer' | ⟨b, hb, hcapture⟩
        · exact Or.inr ⟨hlt, hbuffer'⟩
        · exact Or.inl ((hok.2 b hb).2 hcapture i request load snapshotSeq persisted
            ⟨l, hrequest, hold⟩ hphase k hk hbuffer)
    · obtain ⟨hlt, hwhere⟩ := (hok.2 _ hreads).1 l rfl i request old snapshotSeq hrequest hold
        hreading k ⟨hbefore ▸ hk.before, hsince ▸ hk.above, hk.unseen⟩
      rcases hwhere with hrow | hbuffer
      · exact Or.inl (BoardStore.mem_loadSince.mpr ⟨hrow, fromSeq_lt (hsince ▸ hk.above) hlt⟩)
      · rcases h.buffer hbuffer with hbuffer' | ⟨b, hb, hcapture⟩
        · exact Or.inr ⟨hlt, hbuffer'⟩
        · cases Option.mem_unique hreads hb
          cases hcapture
  · cases hload.symm.trans hload'
    rw [hcalled] at hphase
    cases hphase

omit [DecidableEq κ] in
/-- A reply contains whatever its client lacks. -/
theorem Fed.delivers (hr : r.Fed) (hgenuine : r.Genuine) (hshown : r.Shown i k → r'.Shown i k) :
    r.Delivers r' i k := by
  rintro request load ⟨l, hrequest, hload⟩ hbefore hlt - snapshotSeq history -
    ⟨persisted, hphase, hstrokes⟩
  by_cases hseen : r.Shown i k
  · exact Or.inr (.shown (hshown hseen))
  · refine Or.inl ?_
    have hrows := hgenuine.loads l load hload
    rw [World.Genuine, hphase] at hrows
    rw [hstrokes]
    rcases hr i request load snapshotSeq persisted ⟨l, hrequest, hload⟩ hphase k
      ⟨hbefore, hlt, hseen⟩ with hrow | ⟨hsnapshot, hbuffer⟩
    · exact mem_mergeBufferedStrokes.mpr (Or.inl hrow)
    · have howed := World.mem_owed.mpr ⟨hbefore, fromSeq_lt hlt hsnapshot⟩
      exact World.mem_history_of_owed hgenuine.owned hrows.1 "" 0 howed (Or.inr hbuffer)

/-- What makes a room converge, whatever the service does besides. -/
structure Supplied (r : Room κ) : Prop where
  positive : r.board.Positive
  genuine : r.Genuine
  drawn : r.Drawn
  inOrder : r.InOrder
  admits : r.Admits
  fed : r.Fed
  covers : r.Covers

omit [DecidableEq κ] in
theorem Supplied.of_init (h : r.init) (hpos : ∀ k ∈ r.board.log.store.strokes.rows, 0 < k.seq) :
    r.Supplied := by
  refine ⟨.of_init h.1 hpos, .of_init h, .of_init h, .of_init h, .of_init h, ?_, ?_⟩
  · rintro i request load snapshotSeq persisted ⟨l, -, hload⟩
    rw [h.1.2.2] at hload
    cases hload
  · intro i hroom
    rw [h.2.2.1 i] at hroom
    cases hroom

theorem Supplied.step (hr : r.Supplied) (hok : r.Serves cfg a) (h : Step cfg userOf r a r') :
    r'.Supplied := by
  have hboard : r'.board.Owned ∧ r'.board.Positive :=
    h.board_invariant (P := fun w ↦ w.Owned ∧ w.Positive) (fun u b v hu hs ↦
      ⟨hu.1.step hs, hu.2.step hu.1 hs⟩) ⟨hr.genuine.owned, hr.positive⟩
  refine ⟨hboard.2, hr.genuine.step h, hr.drawn.step h hok.1,
    hr.inOrder.step hr.genuine hr.positive.next h, hr.admits.step h hok.1, hr.fed.step hok h, ?_⟩
  exact hr.covers.step hr.inOrder hr.drawn hr.admits h hok.1 hboard.2.accepted fun i k ↦
    hr.fed.delivers hr.genuine fun hshown ↦ hshown.step h

omit [DecidableEq κ] in
theorem serves_of_still (hcalm : r.calm a) (hstill : r.still cfg a) : r.Serves cfg a := by
  refine ⟨hcalm, fun b hb ↦ ?_⟩
  rw [still, Option.mem_def.mp hb] at hstill
  simp only [Option.all_some, Bool.and_eq_true, Bool.not_eq_true'] at hstill
  obtain ⟨⟨-, hcaptures⟩, hreads⟩ := hstill
  constructor
  · rintro l rfl i request load snapshotSeq - hload - k hk
    rw [readsEarly, hload, Option.all_some, List.isEmpty_iff] at hreads
    have hbefore := hk.before
    rw [hreads] at hbefore
    cases hbefore
  · intro hc
    rw [hcaptures] at hc
    cases hc

end Room

end Synapse
