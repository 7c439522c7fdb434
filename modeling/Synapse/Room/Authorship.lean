import Mathlib.Data.List.Pairwise
import Synapse.Room.Traffic

/-!
# Whose strokes a client shows

A stroke names its author, but nothing on the client compares the name with anything: a client shows
whatever its socket delivers. What it shows is genuine because of the server, which passes on what
`append` has accepted, under the name of the connection the draw came over. `Authored` is the
invariant, and unlike `Drawn` it holds in every run, since a draw that is lost takes nothing with
it.

## One author's strokes

The draws of one client pass through its channel, the calls that await the restore and the numbering
one after the other, and none of the three lets one overtake another. `path` is the list of a
client's draws in the order of their progress. A step shortens it or adds a new draw at its end,
so it stays ascending, and with it the numbers that the strokes are given.
-/

namespace Synapse

open Transition

/-! ## The calls of `append` that await the service -/

/-- A call of `append`, with its arguments. -/
def Caller.append? : Caller → Option (ℕ × String × StrokeSegment)
  | .append call userId seg => some (call, userId, seg)
  | .maybeCompact _ => none

/-- The number of the draw that a message carries. -/
def ClientMessage.draw? : ClientMessage → Option ℕ
  | .draw n _ => some n
  | _ => none

namespace Instance

variable {cfg : Config} {log log' : BoardLog} {inst inst' : Instance} {b : Action}

/-- The calls of `append` that have yet to resume, in the order in which they will. -/
def appends (inst : Instance) : List (ℕ × String × StrokeSegment) :=
  inst.callers.filterMap Caller.append?

/-- Once the restore is done no call awaits it. -/
def Served (inst : Instance) : Prop :=
  inst.board.initPromise = some .fulfilled → inst.waiting = []

theorem Served.callers_ensureInitialized (h : inst.Served) (c : Caller) :
    (inst.ensureInitialized c).callers = inst.callers ++ [c] := by
  unfold ensureInitialized callers
  split
  · simp [setInitPromise, setBoard, setWaiting]
  · next hfulfilled =>
    rw [h hfulfilled]
    simp [setReady, h hfulfilled]
  · simp [setWaiting]

theorem Served.ensureInitialized (h : inst.Served) (c : Caller) :
    (inst.ensureInitialized c).Served := by
  unfold Instance.ensureInitialized
  split
  · intro hfulfilled
    cases hfulfilled
  · exact h
  · next promise hne hpromise =>
    intro hfulfilled
    exact absurd (Option.some.inj (hpromise.symm.trans hfulfilled)) hne

theorem Served.of_board (h : inst.Served) (hwaiting : inst'.waiting = inst.waiting)
    (hpromise : inst'.board.initPromise = inst.board.initPromise) : inst'.Served := by
  intro hfulfilled
  rw [hwaiting]
  exact h (hpromise ▸ hfulfilled)

theorem initPromise_flush (d : ℕ) :
    (inst.flush d).board.initPromise = inst.board.initPromise := by
  rw [board_flush]

theorem appends_flush (d : ℕ) : (inst.flush d).appends = inst.appends := by
  rw [appends, appends, callers, callers, ready_flush, waiting_flush]

theorem appends_push (k : PersistedStroke) (d : ℕ) :
    (inst.push cfg k d).appends = inst.appends := by
  rw [appends, appends, callers, callers, ready_push, waiting_push]

theorem Served.step (h : inst.Served) (hstep : Step cfg log inst b log' inst') :
    inst'.Served := by
  cases hstep with
  | append => exact h.ensureInitialized _
  | maybeCompact c =>
    have hcompacts : (inst.setCompaction c .initializing).Served := h
    exact hcompacts.ensureInitialized _
  | resumeAppend => exact h.of_board (waiting_push _ _ _) (board_push _ _ _).2.1
  | flush => exact h.of_board (waiting_flush _) (initPromise_flush _)
  | timerFires => exact h.of_board (waiting_flush _) (initPromise_flush _)
  | restoreFinish =>
    intro _
    rfl
  | restoreEnsure | restoreSnapshot | restoreTail | restoreFail =>
    intro hfulfilled
    cases hfulfilled
  | drainRejects => exact h.of_board rfl (BoardState.initPromise_handleFlushFailure _ _)
  | _ => exact h.of_board rfl rfl

theorem Step.appends (h : Step cfg log inst b log' inst') (hserved : inst.Served) :
    (b.isAppend = false ∧ inst'.appends.Sublist inst.appends) ∨
      ∃ call userId seg, b = .append call userId seg ∧
        inst'.appends = inst.appends ++ [(call, userId, seg)] := by
  cases h with
  | append call userId seg =>
    refine Or.inr ⟨call, userId, seg, rfl, ?_⟩
    rw [Instance.appends, hserved.callers_ensureInitialized, List.filterMap_append]
    rfl
  | maybeCompact c =>
    have hcompacts : (inst.setCompaction c .initializing).Served := hserved
    refine Or.inl ⟨rfl, ?_⟩
    rw [Instance.appends, hcompacts.callers_ensureInitialized, List.filterMap_append]
    exact (List.append_nil _).symm ▸ List.Sublist.refl _
  | resumeAppend id ts d call userId seg ready hready =>
    refine Or.inl ⟨rfl, ?_⟩
    rw [appends_push, Instance.appends, Instance.appends, callers, callers, hready]
    exact List.Sublist.filterMap _ (List.sublist_cons_self _ _)
  | resumeCompact id ts d c ready hready =>
    refine Or.inl ⟨rfl, ?_⟩
    rw [Instance.appends, Instance.appends, callers, callers, hready]
    exact List.Sublist.filterMap _ (List.sublist_cons_self _ _)
  | flush | timerFires =>
    refine Or.inl ⟨rfl, ?_⟩
    exact (appends_flush _).symm ▸ List.Sublist.refl _
  | restoreFinish =>
    refine Or.inl ⟨rfl, ?_⟩
    rw [Instance.appends, Instance.appends, callers, callers]
    exact (List.append_nil _).symm ▸ List.Sublist.refl _
  | restoreFail =>
    refine Or.inl ⟨rfl, List.Sublist.filterMap _ ?_⟩
    change (inst.ready ++ []).Sublist inst.callers
    rw [List.append_nil]
    exact List.sublist_append_left _ _
  | _ => exact Or.inl ⟨rfl, List.Sublist.refl _⟩

end Instance

theorem appends_of_step {cfg : Config} {u w : World Unit} {b : Action}
    (hw : u.step (fun _ ↦ cfg) ((), b) = some w) (hserved : (u.insts ()).Served)
    (hb : b.isAppend = false) : (w.insts ()).appends.Sublist (u.insts ()).appends := by
  obtain ⟨log, inst, hstep, rfl⟩ := World.step_eq_some.mp hw
  rcases (Instance.Step.of_step hstep).appends hserved with ⟨-, h⟩ | ⟨_, _, _, rfl, -⟩
  · exact h
  · cases hb

theorem served_of_step {cfg : Config} {u w : World Unit} {b : Unit × Action}
    (hserved : (u.insts ()).Served) (hw : u.step (fun _ ↦ cfg) b = some w) :
    (w.insts ()).Served := by
  obtain ⟨_, b⟩ := b
  obtain ⟨log, inst, hstep, rfl⟩ := World.step_eq_some.mp hw
  exact hserved.step (Instance.Step.of_step hstep)

namespace Issue

variable {κ : Type*} {x y : Issue κ}

/-- The draws and the numbers of two strokes agree on their order. -/
def Agree (x y : Issue κ) : Prop :=
  (x.draw < y.draw ↔ x.stroke.seq < y.stroke.seq) ∧
    (y.draw < x.draw ↔ y.stroke.seq < x.stroke.seq)

theorem Agree.refl (x : Issue κ) : x.Agree x :=
  ⟨iff_of_false (lt_irrefl _) (lt_irrefl _), iff_of_false (lt_irrefl _) (lt_irrefl _)⟩

instance : Std.Symm (@Agree κ) := ⟨fun _ _ h ↦ h.symm⟩

end Issue

namespace Room

variable {κ : Type*} {r r' : Room κ} {i : κ} {n call : ℕ} {k : PersistedStroke}

/-- The client and the draw that a call of `append` was made for. -/
def authorOf (r : Room κ) (call : ℕ) : Option (κ × ℕ) :=
  r.authors[call]?.map fun author ↦ (author.client, author.draw)

/-- The calls of `append` that await the service. -/
def appends (r : Room κ) : List (ℕ × String × StrokeSegment) := (r.board.insts ()).appends

/-- The stroke `k` is a segment that client `i` has drawn, and goes by the name of its user. -/
def Drew (r : Room κ) (userOf : κ → String) (i : κ) (k : PersistedStroke) : Prop :=
  k.userId = userOf i ∧
    ∃ n, ⟨i, n, k⟩ ∈ r.issued ∧ .drawn n k.toStrokeSegment ∈ (r.sessions i).scene

/-- Whatever is on the way to the board is its author's. -/
structure Authored (userOf : κ → String) (stored : List PersistedStroke) (r : Room κ) : Prop where
  genuine : r.Genuine
  served : (r.board.insts ()).Served
  up : ∀ i n seg, .draw n seg ∈ (r.sockets i).up → .drawn n seg ∈ (r.sessions i).scene
  appends : ∀ call userId seg, (call, userId, seg) ∈ r.appends → ∃ i n,
    r.authorOf call = some (i, n) ∧ userId = userOf i ∧ .drawn n seg ∈ (r.sessions i).scene
  accepted : ∀ k ∈ r.board.log.accepted, k ∈ stored ∨ ∃ i, r.Drew userOf i k

variable {userOf : κ → String} {stored : List PersistedStroke}

theorem Authored.of_init (h : r.init) : Authored userOf r.board.log.store.strokes.rows r := by
  refine ⟨.of_init h, ?_, ?_, ?_, ?_⟩ <;> obtain ⟨⟨haccepted, -, hboard⟩, -, hsockets, -⟩ := h
  · rw [hboard]
    exact fun _ ↦ rfl
  · simp [hsockets]
  · intro call userId seg hcall
    rw [Room.appends, hboard] at hcall
    cases hcall
  · intro k hk
    exact Or.inl (haccepted ▸ hk)

variable [DecidableEq κ] {cfg : Config} {a : RoomAction κ}

/-- The author of a call is never another, though its connection may go. -/
theorem Step.authorOf (h : Step cfg userOf r a r') {p : κ × ℕ} (hp : r.authorOf call = some p) :
    r'.authorOf call = some p := by
  cases h with
  | disconnect j =>
    rw [Room.authorOf, dropSocket, List.getElem?_map, Option.map_map, ← hp]
    refine congrArg (Option.map · _) (funext fun author ↦ ?_)
    rw [Function.comp_apply]
    split_ifs <;> rfl
  | receiveDraw j l draw seg up =>
    obtain ⟨author, hauthor, rfl⟩ := Option.map_eq_some_iff.mp hp
    obtain ⟨hlt, -⟩ := List.getElem?_eq_some_iff.mp hauthor
    change Option.map _ (r.authors ++ _)[call]? = _
    rw [List.getElem?_append_left hlt]
    exact hp
  | _ => exact hp

theorem Step.accepts_append (h : Step cfg userOf r a r') :
    (r'.board.log.accepted = r.board.log.accepted ∧ r'.issued = r.issued) ∨
    ∃ call userId seg, ∃ k : PersistedStroke, r.appends = (call, userId, seg) :: r'.appends ∧
      k.userId = userId ∧ k.toStrokeSegment = seg ∧
      r'.board.log.accepted = r.board.log.accepted ++ [k] ∧
      r'.issued
        = r.issued ++ (r.authorOf call).toList.map fun author ↦ ⟨author.1, author.2, k⟩ := by
  cases h with
  | resumeAppend id ts d call k hresuming w hw =>
    obtain ⟨userId, seg, ready, hready, rfl, rfl⟩ := exists_of_resuming hresuming hw
    refine Or.inr ⟨call, userId, seg, _, ?_, rfl, rfl, rfl, ?_⟩
    · change (r.board.insts ()).appends = _ :: (Instance.push _ cfg _ d).appends
      rw [Instance.appends_push, Instance.appends, Instance.callers, hready]
      rfl
    · change r.issued ++ _ = _
      rw [Room.authorOf]
      cases r.authors[call]? <;> rfl
  | receiveDraw _ _ _ _ _ _ _ w hw | receiveResync _ _ _ _ _ w hw | presence _ _ _ _ w hw
  | resolveUnasked _ _ _ w hw | resolveReply _ _ _ _ _ _ w hw | loadFails _ w hw =>
    exact Or.inl ⟨accepted_eq_of_step hw rfl, rfl⟩
  | resolveProbe _ _ _ _ _ _ w w' hw _ _ hw' =>
    have haccepted : w'.log.accepted = w.log.accepted := accepted_eq_of_step hw' rfl
    exact Or.inl ⟨haccepted.trans (accepted_eq_of_step hw rfl), rfl⟩
  | resumeOther id ts d hresuming w hw =>
    exact Or.inl ⟨accepted_eq_of_step hw (Instance.accepts_of_resuming_eq_none hresuming), rfl⟩
  | service b hinternal _ w hw =>
    refine Or.inl ⟨accepted_eq_of_step hw ?_, rfl⟩
    cases b <;> first | rfl | cases hinternal
  | _ => exact Or.inl ⟨rfl, rfl⟩

theorem Step.up_mem (h : Step cfg userOf r a r') {seg : StrokeSegment}
    (hs : .draw n seg ∈ (r'.sockets i).up) :
    .draw n seg ∈ (r.sockets i).up ∨ .drawn n seg ∈ (r'.sessions i).scene := by
  have hmove := h.clientMove i
  generalize r'.sessions i = session, r'.sockets i = socket at hmove hs
  cases hmove with
  | draw stroke =>
    rcases Socket.mem_up_emit.mp hs with hs | heq
    · exact Or.inl hs
    · cases heq
      exact Or.inr (Session.drawn_mem_commitLocal.mpr (Or.inr ⟨rfl, rfl⟩))
  | connect | reports =>
    rcases Socket.mem_up_emit.mp hs with hs | heq
    · exact Or.inl hs
    · cases heq
  | disconnect => cases hs
  | joins _ _ hup | appends _ _ _ hup | rejected _ _ _ _ _ hup | resyncs _ _ hup =>
    exact Or.inl (hup ▸ List.mem_cons_of_mem _ hs)
  | _ => exact Or.inl hs

theorem Drew.step (h : Step cfg userOf r a r') (hk : r.Drew userOf i k) : r'.Drew userOf i k := by
  obtain ⟨huser, n, hissued, hscene⟩ := hk
  exact ⟨huser, n, h.issued_subset hissued, h.scene_subset i hscene⟩

theorem Step.appends (h : Step cfg userOf r a r') (hserved : (r.board.insts ()).Served) :
    r'.appends.Sublist r.appends ∨
    ∃ i n seg up, (r.sockets i).up = .draw n seg :: up ∧ r'.issued = r.issued ∧
      r'.sessions = r.sessions ∧ r'.sockets = (r.setSocket i ((r.sockets i).setUp up)).sockets ∧
      r'.appends = r.appends ++ [(r.authors.length, userOf i, seg)] ∧
      r'.authorOf r.authors.length = some (i, n) := by
  cases h with
  | receiveDraw i l draw seg up hup _ w hw =>
    refine Or.inr ⟨i, draw, seg, up, hup, rfl, rfl, rfl, ?_, ?_⟩
    · obtain ⟨log, inst, hstep, rfl⟩ := World.step_eq_some.mp hw
      rcases (Instance.Step.of_step hstep).appends hserved with ⟨hb, -⟩ | ⟨_, _, _, heq, hnew⟩
      · cases hb
      · cases heq
        exact hnew
    · change Option.map _ (r.authors ++ _)[r.authors.length]? = _
      rw [List.getElem?_concat_length]
      rfl
  | receiveResync _ _ _ _ _ w hw | presence _ _ _ _ w hw | resumeAppend _ _ _ _ _ _ w hw
  | resumeOther _ _ _ _ w hw | resolveUnasked _ _ _ w hw | resolveReply _ _ _ _ _ _ w hw
  | loadFails _ w hw => exact Or.inl (appends_of_step hw hserved rfl)
  | resolveProbe _ _ _ _ _ _ w w' hw _ _ hw' =>
    have happends := appends_of_step hw' (served_of_step hserved hw) rfl
    exact Or.inl (happends.trans (appends_of_step hw hserved rfl))
  | service b hinternal _ w hw =>
    refine Or.inl (appends_of_step hw hserved ?_)
    cases b <;> first | rfl | cases hinternal
  | _ => exact Or.inl (List.Sublist.refl _)

/-- **No step accepts a stroke that its author has not drawn.** -/
theorem Authored.step (hr : Authored userOf stored r) (h : Step cfg userOf r a r') :
    Authored userOf stored r' where
  genuine := hr.genuine.step h
  served := h.board_invariant (fun _ _ _ hu hs ↦ served_of_step hu hs) hr.served
  up := by
    intro i n seg hs
    rcases h.up_mem hs with hs | hs
    · exact h.scene_subset i (hr.up i n seg hs)
    · exact hs
  appends := by
    intro call userId seg hcall
    have hold : (call, userId, seg) ∈ r.appends → ∃ i n, r'.authorOf call = some (i, n) ∧
        userId = userOf i ∧ .drawn n seg ∈ (r'.sessions i).scene := by
      intro hcall
      obtain ⟨i, n, hauthor, huser, hscene⟩ := hr.appends call userId seg hcall
      exact ⟨i, n, h.authorOf hauthor, huser, h.scene_subset i hscene⟩
    rcases h.appends hr.served with hless | ⟨i, n, seg', up, hup, -, -, -, hnew, hauthor⟩
    · exact hold (hless.subset hcall)
    · rw [hnew, List.mem_append, List.mem_singleton] at hcall
      rcases hcall with hcall | heq
      · exact hold hcall
      · cases heq
        exact ⟨i, n, hauthor, rfl, h.scene_subset i (hr.up i n seg (hup ▸ List.mem_cons_self))⟩
  accepted := by
    intro k hk
    rcases h.accepts_append with ⟨haccepted, -⟩ |
      ⟨call, userId, seg, k', happends, rfl, rfl, haccepted, hissued⟩
    · exact (hr.accepted k (haccepted ▸ hk)).imp_right fun ⟨i, hi⟩ ↦ ⟨i, hi.step h⟩
    · rw [haccepted, List.mem_append, List.mem_singleton] at hk
      rcases hk with hk | rfl
      · exact (hr.accepted k hk).imp_right fun ⟨i, hi⟩ ↦ ⟨i, hi.step h⟩
      · obtain ⟨i, n, hauthor, huser, hscene⟩ :=
          hr.appends call _ _ (happends ▸ List.mem_cons_self)
        refine Or.inr ⟨i, huser, n, ?_, h.scene_subset i hscene⟩
        rw [hissued, hauthor]
        exact List.mem_append_right _ (List.mem_singleton_self _)

theorem Authored.of_steps {r₀ : Room κ} (h₀ : r₀.init)
    (h : (machine cfg userOf).Steps Machine.anyStep r₀ r) :
    Authored userOf r₀.board.log.store.strokes.rows r :=
  h.invariant (.of_init h₀) fun _ _ _ hr _ hs ↦ hr.step (.of_step hs)

/-- **What a client shows is genuine.** In every run, whichever connections, restores and loads are
lost in it, a stroke that a client has received was stored when the server started, or has been
drawn by the client to whose user it is attributed. -/
theorem stored_or_drew {r₀ : Room κ} (h₀ : r₀.init)
    (h : (machine cfg userOf).Steps Machine.anyStep r₀ r)
    (hk : .received k ∈ (r.sessions i).scene) :
    k ∈ r₀.board.log.store.strokes.rows ∨ ∃ j, r.Drew userOf j k :=
  have hr : Authored userOf r₀.board.log.store.strokes.rows r := .of_steps h₀ h
  hr.accepted k (hr.genuine.scene i k hk)

theorem stored_or_drew_liveRun : ∃ r : Room Bool, ∃ k,
    (machine (sampleConfig 9 9) sampleUser).exec (start Bool sampleStore) liveRun = some r ∧
      .received k ∈ (r.sessions true).scene ∧
      (k ∈ (start Bool sampleStore).board.log.store.strokes.rows ∨
        ∃ j, r.Drew sampleUser j k) := by
  have hrun : ((machine (sampleConfig 9 9) sampleUser).exec (start Bool sampleStore) liveRun).any
      (fun r ↦ r.issued.any fun x ↦
        decide (.received x.stroke ∈ (r.sessions true).scene)) = true := by decide
  obtain ⟨r, hr, hsteps, hp⟩ := Machine.exists_of_exec _ _ hrun
  obtain ⟨x, -, hx⟩ := List.any_eq_true.mp hp
  have hk : .received x.stroke ∈ (r.sessions true).scene := of_decide_eq_true hx
  exact ⟨r, x.stroke, hr, hk, stored_or_drew (init_start Bool sampleStore) hsteps hk⟩

/-! ## The draws of one client -/

/-- What client `i` has had accepted. -/
def issuedBy (r : Room κ) (i : κ) : List (Issue κ) := r.issued.filter fun x ↦ decide (x.client = i)

/-- The draw of client `i` that a call of `append` was made for. -/
def drawOf (r : Room κ) (i : κ) (call : ℕ) : Option ℕ :=
  (r.authorOf call).bind fun author ↦ if author.1 = i then some author.2 else none

/-- The draws of client `i` that await the service. -/
def awaiting (r : Room κ) (i : κ) : List ℕ := r.appends.filterMap fun c ↦ r.drawOf i c.1

/-- The draws of client `i` on their way to the server. -/
def uplink (r : Room κ) (i : κ) : List ℕ := (r.sockets i).up.filterMap ClientMessage.draw?

/-- The draws of client `i` that have not been lost, those furthest along first. -/
def path (r : Room κ) (i : κ) : List ℕ :=
  (r.issuedBy i).map Issue.draw ++ r.awaiting i ++ r.uplink i

theorem drawOf_eq {j : κ} (h : r.authorOf call = some (j, n)) :
    r.drawOf i call = if j = i then some n else none := by
  rw [drawOf, h]
  rfl

theorem Step.uplink (h : Step cfg userOf r a r') (i : κ) :
    ((r'.uplink i).Sublist (r.uplink i) ∧ (r'.sessions i).draws = (r.sessions i).draws) ∨
    (r'.uplink i = r.uplink i ++ [(r.sessions i).draws] ∧
      (r'.sessions i).draws = (r.sessions i).draws + 1) := by
  have hmove := h.clientMove i
  unfold Room.uplink
  generalize r'.sessions i = session, r'.sockets i = socket at hmove
  cases hmove with
  | draw =>
    refine Or.inr ⟨?_, rfl⟩
    rw [Socket.emit, List.filterMap_append]
    rfl
  | connect | reports =>
    refine Or.inl ⟨?_, rfl⟩
    rw [Socket.emit, List.filterMap_append]
    exact (List.append_nil _).symm ▸ List.Sublist.refl _
  | disconnect => exact Or.inl ⟨List.nil_sublist _, rfl⟩
  | joins _ _ hup | appends _ _ _ hup | rejected _ _ _ _ _ hup | resyncs _ _ hup =>
    refine Or.inl ⟨List.Sublist.filterMap _ ?_, rfl⟩
    rw [hup]
    exact List.sublist_cons_self _ _
  | _ => exact Or.inl ⟨List.Sublist.refl _, rfl⟩

/-- **A step adds a draw at the end of the path, or shortens it.** -/
theorem Authored.path_step (hr : Authored userOf stored r) (h : Step cfg userOf r a r') (i : κ) :
    ((r'.path i).Sublist (r.path i) ∧ (r'.sessions i).draws = (r.sessions i).draws) ∨
    ((r'.path i).Sublist (r.path i ++ [(r.sessions i).draws]) ∧
      (r'.sessions i).draws = (r.sessions i).draws + 1) := by
  have hdrawOf : ∀ c ∈ r.appends, r'.drawOf i c.1 = r.drawOf i c.1 := by
    rintro ⟨call, userId, seg⟩ hc
    obtain ⟨j, n, hauthor, -⟩ := hr.appends call userId seg hc
    rw [drawOf_eq hauthor, drawOf_eq (h.authorOf hauthor)]
  rcases h.appends hr.served with hless | ⟨j, n, seg, up, hup, hissued, hsessions, hsockets, hnew,
    hauthor⟩
  · have hfront : ((r'.issuedBy i).map Issue.draw ++ r'.awaiting i).Sublist
        ((r.issuedBy i).map Issue.draw ++ r.awaiting i) := by
      have hawaiting : r'.awaiting i = r'.appends.filterMap fun c ↦ r.drawOf i c.1 :=
        List.filterMap_congr fun c hc ↦ hdrawOf c (hless.subset hc)
      rw [hawaiting]
      rcases h.accepts_append with ⟨-, hissued⟩ | ⟨call, _, _, k, happends, -, -, -, hissued⟩
      · rw [issuedBy, hissued]
        exact (List.Sublist.refl _).append (hless.filterMap _)
      · -- the first call has its draw issued
        obtain ⟨j, n, hauthor, -⟩ := hr.appends call _ _ (happends ▸ List.mem_cons_self)
        rw [issuedBy, issuedBy, awaiting, happends, hissued, hauthor, List.filter_append,
          List.filterMap_cons, drawOf_eq hauthor]
        by_cases hj : j = i <;> simp [hj]
    rcases h.uplink i with ⟨hsent, hdraws⟩ | ⟨hsent, hdraws⟩
    · exact Or.inl ⟨hfront.append hsent, hdraws⟩
    · refine Or.inr ⟨?_, hdraws⟩
      rw [path, path, hsent, ← List.append_assoc]
      exact (hfront.append (List.Sublist.refl _)).append (List.Sublist.refl _)
  · -- the draw goes from the channel to the calls
    refine Or.inl ⟨?_, by rw [hsessions]⟩
    have hawaiting : r'.awaiting i = r.awaiting i ++ if j = i then [n] else [] := by
      have hold : r.appends.filterMap (fun c ↦ r'.drawOf i c.1) = r.awaiting i :=
        List.filterMap_congr hdrawOf
      rw [awaiting, hnew, List.filterMap_append, hold, List.filterMap_cons, drawOf_eq hauthor]
      split_ifs <;> rfl
    have huplink : (if j = i then [n] else []) ++ r'.uplink i = r.uplink i := by
      rw [uplink, hsockets, sockets_setSocket]
      by_cases hj : i = j
      · rw [if_pos hj, if_pos hj.symm, uplink, hj, hup]
        rfl
      · rw [if_neg hj, if_neg (Ne.symm hj)]
        rfl
    rw [path, path, issuedBy, hissued, hawaiting, List.append_assoc, List.append_assoc, huplink,
      ← List.append_assoc]
    exact List.Sublist.refl _

/-- The strokes of a client are numbered in the order in which they have been drawn. -/
structure Fifo (r : Room κ) : Prop where
  path : ∀ i, (r.path i).Pairwise (· < ·)
  lt_draws : ∀ i, ∀ n ∈ r.path i, n < (r.sessions i).draws
  issued : r.issued.Pairwise fun x y ↦ x.stroke.seq < y.stroke.seq

theorem Fifo.of_init (h : r.init) : r.Fifo := by
  obtain ⟨⟨-, -, hboard⟩, -, hsockets, -, -, hissued⟩ := h
  have hpath : ∀ i, r.path i = [] := by
    intro i
    rw [Room.path, issuedBy, awaiting, appends, uplink, hissued, hboard, hsockets]
    rfl
  constructor
  · simp [hpath]
  · simp [hpath]
  · rw [hissued]
    exact List.Pairwise.nil

theorem Fifo.step (hr : r.Fifo) (hauthored : Authored userOf stored r)
    (h : Step cfg userOf r a r') : r'.Fifo where
  path := by
    intro i
    rcases hauthored.path_step h i with ⟨hless, -⟩ | ⟨hless, -⟩
    · exact (hr.path i).sublist hless
    · refine List.Pairwise.sublist hless (List.pairwise_append.mpr ⟨hr.path i,
        List.pairwise_singleton _ _, fun n hn m hm ↦ ?_⟩)
      rw [List.mem_singleton.mp hm]
      exact hr.lt_draws i n hn
  lt_draws := by
    intro i n hn
    rcases hauthored.path_step h i with ⟨hless, hdraws⟩ | ⟨hless, hdraws⟩
    · rw [hdraws]
      exact hr.lt_draws i n (hless.subset hn)
    · rw [hdraws]
      rcases List.mem_append.mp (hless.subset hn) with hn | hn
      · exact Nat.lt_succ_of_lt (hr.lt_draws i n hn)
      · rw [List.mem_singleton.mp hn]
        exact Nat.lt_succ_self _
  issued := by
    rcases h.accepts with ⟨-, hsame⟩ | ⟨call, _, _, _, k, hready, hseq, -, hr'⟩
    · rw [hsame]
      exact hr.issued
    · rw [hr']
      refine List.pairwise_append.mpr ⟨hr.issued, ?_, fun x hx y hy ↦ ?_⟩
      · cases r.authors[call]? <;> simp
      · obtain ⟨author, -, rfl⟩ := List.mem_map.mp hy
        have hlt := hauthored.genuine.lt_nextSeq (by simp [hready]) (hauthored.genuine.issued x hx)
        rwa [← hseq] at hlt

/-- **First drawn, first numbered.** Of two strokes of one client, the one drawn first has the lower
number, in every run: not even a restore that fails or a connection that goes in between reorders
what is not lost. -/
theorem draw_lt_iff_seq_lt (h : (machine cfg userOf).Reaches Machine.anyStep r) {m : ℕ}
    {l : PersistedStroke} (hk : ⟨i, n, k⟩ ∈ r.issued) (hl : ⟨i, m, l⟩ ∈ r.issued) :
    n < m ↔ k.seq < l.seq := by
  obtain ⟨r₀, h₀, hsteps⟩ := h
  have hr : r.Fifo := by
    refine (hsteps.invariant (P := fun r ↦ Authored userOf r₀.board.log.store.strokes.rows r ∧
      r.Fifo) ⟨.of_init h₀, .of_init h₀⟩ ?_).2
    intro u b v hu _ hs
    exact ⟨hu.1.step (.of_step hs), hu.2.step hu.1 (.of_step hs)⟩
  have hdraws : ((r.issuedBy i).map Issue.draw).Pairwise (· < ·) :=
    (hr.path i).sublist (List.Sublist.trans (List.sublist_append_left _ _)
      (List.sublist_append_left _ _))
  have hagree : (r.issuedBy i).Pairwise Issue.Agree := by
    refine ((List.pairwise_map.mp hdraws).and (hr.issued.filter _)).imp fun ⟨hn, hseq⟩ ↦ ?_
    exact ⟨iff_of_true hn hseq, iff_of_false hn.asymm hseq.asymm⟩
  have hmem : ∀ {m l}, ⟨i, m, l⟩ ∈ r.issued → ⟨i, m, l⟩ ∈ r.issuedBy i := fun hx ↦
    List.mem_filter.mpr ⟨hx, decide_eq_true rfl⟩
  exact (hagree.forall_of_forall (fun x _ ↦ .refl x) (hmem hk) (hmem hl)).1

/-- The first client draws twice before the server has heard of either. -/
def burstRun : List (RoomAction Bool) :=
  joinRun false 0 ++ replyRun false 0 ++
    [.draw false sampleSegment, .draw false sampleSegment, .receive false 5, .receive false 6,
      .service (.restore .ensure), .service (.restore .readSnapshotSeq),
      .service (.restore .readTail), .service (.restore .finish), .resume "a" 5 0,
      .resume "b" 6 1]

/-- The strokes of `burstRun`. -/
def burstStroke (id : String) (seq ts : ℕ) : PersistedStroke := ⟨sampleSegment, id, seq, "ada", ts⟩

theorem draw_lt_iff_seq_lt_burstRun : ∃ r : Room Bool,
    (machine (sampleConfig 9 9) sampleUser).exec (start Bool sampleStore) burstRun = some r ∧
      ⟨false, 1, burstStroke "b" 2 6⟩ ∈ r.issued ∧
      (0 < 1 ↔ (burstStroke "a" 1 5).seq < (burstStroke "b" 2 6).seq) := by
  have hrun : ((machine (sampleConfig 9 9) sampleUser).exec (start Bool sampleStore) burstRun).any
      (fun r ↦ decide (⟨false, 0, burstStroke "a" 1 5⟩ ∈ r.issued ∧
        ⟨false, 1, burstStroke "b" 2 6⟩ ∈ r.issued)) = true := by decide
  obtain ⟨r, hr, hsteps, hp⟩ := Machine.exists_of_exec _ _ hrun
  obtain ⟨hfirst, hsecond⟩ := of_decide_eq_true hp
  exact ⟨r, hr, hsecond,
    draw_lt_iff_seq_lt ⟨_, init_start Bool sampleStore, hsteps⟩ hfirst hsecond⟩

end Room

end Synapse
