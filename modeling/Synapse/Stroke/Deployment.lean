import Synapse.Store.Database
import Synapse.Stroke.Baseline
import Synapse.Stroke.Boards

/-!
# One database

The machine of the stroke service keeps the rows of each board apart. Here it runs over the one
database that all boards share: a step sends at most one statement, which the database executes,
and goes on with its answer.

`Deployment.step` asks for what has to be shown. It is not possible where a statement is in error,
or where its answer is not the one the service went on with. In every run from a database that
holds the rows of the boards neither happens (`Deployment.shared_step_iff`), so that a statement
about the machine of the service is one about the database.

## The foreign key

An INSERT is in error while its board has no row. The service sends one only with strokes it has
accepted, and it accepts none before the row has been ensured (`Instance.Housed`).
-/

namespace Synapse

open Keyed Transition

/-- What a step of the service sends to the database. -/
inductive Statement
  | ensure
  | getSnapshotSeq
  | setSnapshot (seq : ℕ)
  | touch
  | insertBatch (batch : List PersistedStroke)
  | loadSince (sinceSeq : ℕ)
  | count
  /-- One DELETE of `deleteThrough`, for which the database picks the rows numbered `victims`. -/
  | deleteThrough (throughSeq : ℕ) (victims : List ℕ)
  deriving DecidableEq

/-- What the service learns from a statement. -/
inductive Answer
  | done
  | number (n : ℕ)
  | strokes (strokes : List PersistedStroke)
  deriving DecidableEq

namespace Statement

/-- Executes a statement on a board; `none` when it is in error. -/
def exec (now : ℤ) (boardId : String) (db : Database) : Statement → Option (Database × Answer)
  | ensure => some (db.ensure now boardId, .done)
  | getSnapshotSeq => some (db, .number (db.getSnapshotSeq boardId))
  | setSnapshot seq => some (db.setSnapshot boardId seq none, .done)
  | touch => some (db.touch now boardId, .done)
  | insertBatch batch => (db.insertBatch boardId batch).map (·, .done)
  | loadSince sinceSeq => (db.strokes.loadSince boardId sinceSeq).map (db, .strokes ·)
  | count => some (db, .number (db.count boardId))
  | deleteThrough throughSeq victims =>
    let rows := victims.filterMap fun seq ↦ db.strokes.get? (boardId, seq)
    if db.strokes.Deletable boardId throughSeq rows then
      some (db.deleteRows rows, .number rows.length)
    else none

/-- What a statement makes of the rows of its board. -/
def apply (store : BoardStore) : Statement → BoardStore
  | ensure => store.ensure
  | setSnapshot seq => store.setSnapshot seq
  | insertBatch batch => store.insertBatch batch
  | deleteThrough _ victims => store.deleteRows victims
  | getSnapshotSeq | touch | loadSince _ | count => store

/-- What the rows of its board answer to a statement. -/
def answer (store : BoardStore) : Statement → Answer
  | getSnapshotSeq => .number store.getSnapshotSeq
  | loadSince sinceSeq => .strokes (store.loadSince sinceSeq)
  | count => .number store.count
  | deleteThrough _ victims => .number victims.length
  | ensure | setSnapshot _ | touch | insertBatch _ => .done

/-- What has to hold for a statement not to be in error. -/
def Allowed (store : BoardStore) : Statement → Prop
  | insertBatch batch => batch ≠ [] → store.boardRow.isSome
  | deleteThrough throughSeq victims => store.Deletable throughSeq victims
  | _ => True

end Statement

/-! ## A store in the database -/

/-- The database has the row of the board and its strokes. -/
structure BoardStore.HeldBy (store : BoardStore) (db : Database) : Prop where
  serves : store.Serves db.strokes
  row : store.boardRow = (db.board store.boardId).map BoardRecord.snapshotSeq

namespace BoardStore.HeldBy

variable {store other : BoardStore} {db : Database} {now : ℤ}

theorem mem_ids (h : store.HeldBy db) : store.boardId ∈ db.ids ↔ store.boardRow.isSome := by
  rw [Database.mem_ids, h.row, Option.isSome_map, Option.isSome_iff_exists]

theorem getSnapshotSeq (h : store.HeldBy db) :
    db.getSnapshotSeq store.boardId = store.getSnapshotSeq := by
  rw [Database.getSnapshotSeq, BoardStore.getSnapshotSeq, h.row]
  cases db.board store.boardId <;> rfl

theorem count (h : store.HeldBy db) : db.count store.boardId = store.count := by
  rw [Database.count, h.serves, List.length_map]
  rfl

theorem update (h : other.HeldBy db) (boardId : String) {set : BoardRecord → BoardRecord}
    (hset : boardId = other.boardId → ∀ r, (set r).snapshotSeq = r.snapshotSeq) :
    other.HeldBy (db.update boardId set) where
  serves := by
    rw [Database.strokes_update]
    exact h.serves
  row := by
    rw [h.row, Database.board_update]
    split_ifs with hboard
    · rw [Option.map_map]
      exact congrArg (fun f ↦ Option.map f _) (funext fun r ↦ (hset hboard r).symm)
    · rfl

theorem ensure (h : store.HeldBy db) (now : ℤ) :
    store.ensure.HeldBy (db.ensure now store.boardId) where
  serves := h.serves
  row := by
    have hboard : (db.ensure now store.boardId).board store.boardId = some ((db.board
        store.boardId).getD { id := store.boardId, createdAt := now, lastActivity := now }) :=
      (Database.board_ensure now store.boardId store.boardId).trans (if_pos rfl)
    have hid : store.ensure.boardId = store.boardId := rfl
    rw [hid, hboard, BoardStore.ensure, h.row]
    cases db.board store.boardId <;> rfl

theorem ensure_other (h : other.HeldBy db) {boardId : String} (hne : boardId ≠ other.boardId)
    (now : ℤ) : other.HeldBy (db.ensure now boardId) where
  serves := h.serves
  row := by rw [h.row, Database.board_ensure, if_neg hne]

theorem setSnapshot (h : store.HeldBy db) (seq : ℕ) :
    (store.setSnapshot seq).HeldBy (db.setSnapshot store.boardId seq none) where
  serves := by
    rw [Database.setSnapshot, Database.strokes_update]
    exact h.serves
  row := by
    have hid : (store.setSnapshot seq).boardId = store.boardId := rfl
    rw [hid, Database.setSnapshot, Database.board_update, if_pos rfl, BoardStore.setSnapshot, h.row,
      Option.map_map, Option.map_map]
    rfl

theorem map_seq_filterMap (h : store.HeldBy db) {victims : List ℕ}
    (hvictims : ∀ seq ∈ victims, ∃ k ∈ store.strokes, k.seq = seq) :
    (victims.filterMap fun seq ↦ db.strokes.get? (store.boardId, seq)).map StrokeRecord.seq
      = victims := by
  induction victims with
  | nil => rfl
  | cons seq victims ih =>
    obtain ⟨k, hk, rfl⟩ := hvictims seq List.mem_cons_self
    have hget : db.strokes.get? (store.boardId, k.seq)
        = some (StrokeRecord.ofStroke store.boardId k) :=
      Table.get?_eq_some.mpr ⟨(h.serves.mem_iff.mpr ⟨k, hk, rfl⟩).1, rfl⟩
    have hrest := ih fun n hn ↦ hvictims n (List.mem_cons_of_mem _ hn)
    rw [List.filterMap_cons_some (f := fun seq ↦ db.strokes.get? (store.boardId, seq)) hget,
      List.map_cons, hrest]
    rfl

/-- A DELETE that a store allows is one that the database allows, for the rows that are picked. -/
theorem deletable (h : store.HeldBy db) {n : ℕ} {victims : List ℕ}
    (hvictims : store.Deletable n victims) :
    db.strokes.Deletable store.boardId n
      (victims.filterMap fun seq ↦ db.strokes.get? (store.boardId, seq)) := by
  obtain ⟨hnodup, hmem, hlength⟩ := hvictims
  have hstored : ∀ seq ∈ victims, ∃ k ∈ store.strokes, k.seq = seq := by
    intro seq hseq
    obtain ⟨k, hk, hk', -⟩ := BoardStore.mem_matching.mp (hmem seq hseq)
    exact ⟨k, hk, hk'⟩
  have hseqs := h.map_seq_filterMap hstored
  refine ⟨(hseqs.symm ▸ hnodup : (List.map _ _).Nodup).of_map, fun r hr ↦ ?_, ?_⟩
  · obtain ⟨seq, hseq, hget⟩ := List.mem_filterMap.mp hr
    obtain ⟨hr, hkey⟩ := Table.get?_eq_some.mp hget
    obtain ⟨hboard, rfl⟩ := Prod.mk.inj hkey
    exact Strokes.mem_matching.mpr
      ⟨hr, hboard, BoardStore.Deletable.le ⟨hnodup, hmem, hlength⟩ hseq⟩
  · have hsame := congrArg List.length hseqs
    have hmatching := congrArg List.length (h.serves.matching n)
    rw [List.length_map] at hsame hmatching
    rw [hsame, hlength, hmatching]

/-- **A statement on the database.** It is not in error, its answer is that of the store, and the
database has the store afterwards, and every other store it had. -/
theorem exec (h : store.HeldBy db) {st : Statement} (hallowed : st.Allowed store) (now : ℤ) :
    ∃ db', st.exec now store.boardId db = some (db', st.answer store) ∧
      (st.apply store).HeldBy db' ∧
      ∀ other : BoardStore, store.boardId ≠ other.boardId → other.HeldBy db → other.HeldBy db' := by
  cases st with
  | ensure => exact ⟨_, rfl, h.ensure now, fun other hne ho ↦ ho.ensure_other hne now⟩
  | getSnapshotSeq =>
    refine ⟨db, ?_, h, fun _ _ ho ↦ ho⟩
    rw [Statement.exec, h.getSnapshotSeq]
    rfl
  | setSnapshot seq =>
    exact ⟨_, rfl, h.setSnapshot seq, fun other hne ho ↦ ho.update _ fun heq ↦ absurd heq hne⟩
  | touch =>
    exact ⟨_, rfl, h.update _ fun _ _ ↦ rfl, fun other hne ho ↦ ho.update _ fun _ _ ↦ rfl⟩
  | insertBatch batch =>
    by_cases hne : batch = []
    · subst hne
      exact ⟨db, rfl, h, fun _ _ ho ↦ ho⟩
    · have hboard : store.boardId ∈ db.ids := h.mem_ids.mpr (hallowed hne)
      obtain ⟨hrefers, hinsert⟩ := Database.insertBatch_of_mem hboard batch
      refine ⟨⟨db.boards, db.strokes.insertEach store.boardId batch, hrefers⟩, ?_,
        ⟨h.serves.insertEach batch, h.row⟩, fun other hne ho ↦
          ⟨ho.serves.insertEach_other hne batch, ho.row⟩⟩
      rw [Statement.exec, hinsert]
      rfl
  | loadSince n =>
    refine ⟨db, ?_, h, fun _ _ ho ↦ ho⟩
    rw [Statement.exec, h.serves.loadSince]
    rfl
  | count =>
    refine ⟨db, ?_, h, fun _ _ ho ↦ ho⟩
    rw [Statement.exec, h.count]
    rfl
  | deleteThrough n victims =>
    have hdeletable := h.deletable hallowed
    have hrows : ∀ seq ∈ victims, ∃ k ∈ store.strokes, k.seq = seq := fun seq hseq ↦
      let ⟨k, hk, hk', _⟩ := BoardStore.mem_matching.mp (hallowed.2.1 seq hseq)
      ⟨k, hk, hk'⟩
    have hseqs := h.map_seq_filterMap hrows
    have hlength := congrArg List.length hseqs
    rw [List.length_map] at hlength
    refine ⟨db.deleteRows _, (if_pos hdeletable).trans ?_, ⟨?_, h.row⟩, fun other hne ho ↦
      ⟨ho.serves.deleteRows_other hne hdeletable, ho.row⟩⟩
    · rw [hlength]
      rfl
    · have hserves := h.serves.deleteRows hdeletable
      rwa [hseqs] at hserves

end BoardStore.HeldBy

/-! ## What a step sends -/

namespace Instance

variable {cfg : Config} {log log' : BoardLog} {inst inst' : Instance} {a : Action}

def restoreStatement (inst : Instance) : RestoreAction → Option Statement
  | .ensure => some .ensure
  | .readSnapshotSeq => some .getSnapshotSeq
  | .readTail =>
    match inst.board.initPromise with
    | some (.readingTail snapshotSeq) => some (.loadSince snapshotSeq)
    | _ => none
  | .finish | .fail => none

/-- Whether a `touch` that rejects had taken effect is not known to the service (`lost`). -/
def drainStatement (inst : Instance) (lost : Bool) (d : ℕ) : DrainAction → Option Statement
  | .insert =>
    match inst.drains d with
    | some (.inserting batch) => some (.insertBatch batch)
    | _ => none
  | .touchResolves => some .touch
  | .fail =>
    match inst.drains d, lost with
    | some (.touching _), true => some .touch
    | _, _ => none
  | .insertResolves | .resolve | .reject => none

def loadStatement (inst : Instance) (l : ℕ) : LoadAction → Option Statement
  | .readSnapshotSeq => some .getSnapshotSeq
  | .readRows =>
    match inst.loads l with
    | some ⟨sinceSeq, _, .readingRows snapshotSeq⟩ =>
      some (.loadSince (fromSeq sinceSeq snapshotSeq))
    | _ => none
  | .resolve _ | .fail => none

def compactStatement (inst : Instance) (c : ℕ) : CompactAction → Option Statement
  | .count => some .count
  | .readSnapshotSeq => some .getSnapshotSeq
  | .readTail =>
    match inst.compactions c with
    | some (.readingTail snapshotSeq) => some (.loadSince snapshotSeq)
    | _ => none
  | .setSnapshot =>
    match inst.compactions c with
    | some (.settingSnapshot cut) => some (.setSnapshot cut)
    | _ => none
  | .deleteRows victims =>
    match inst.compactions c with
    | some (.deleting cut) => some (.deleteThrough cut victims)
    | _ => none
  | .proceed | .finish | .fail => none

/-- The statement that takes effect with a step. -/
def statement (inst : Instance) (lost : Bool) : Action → Option Statement
  | .restore r => inst.restoreStatement r
  | .drain d r => inst.drainStatement lost d r
  | .load l r => inst.loadStatement l r
  | .compact c r => inst.compactStatement c r
  | _ => none

/-- No stroke is kept for a board without a row. -/
def Housed (log : BoardLog) (inst : Instance) : Prop :=
  ∀ p, inst.held p ≠ [] → log.store.boardRow.isSome

theorem housed_fresh (log : BoardLog) : Housed log {} := by
  intro p hp
  cases p <;> exact absurd rfl hp

theorem housed_update {held : Option ℕ → List PersistedStroke} {p : Option ℕ}
    {strokes : List PersistedStroke} {P : Prop} (hheld : ∀ q, held q ≠ [] → P)
    (hstrokes : strokes ≠ [] → P) (q : Option ℕ) : Function.update held p strokes q ≠ [] → P := by
  rw [Function.update_apply]
  split_ifs
  · exact hstrokes
  · exact hheld q

/-- A stroke is accepted when the restore is done, hence after the row has been ensured. -/
theorem Housed.step (hg : inst.Grounded log) (hh : inst.Housed log)
    (h : Step cfg log inst a log' inst') : inst'.Housed log' := by
  have hmono : log.store.boardRow.isSome → log'.store.boardRow.isSome := h.effect.boardRow
  have haccepts : inst.resumesAppend = true → log.store.boardRow.isSome := by
    intro hready
    have hne : inst.ready ≠ [] := by
      intro hnil
      rw [resumesAppend, hnil] at hready
      cases hready
    have hfulfilled : inst.board.initPromise = some .fulfilled := by
      by_contra hp
      exact hne (hg.ready hp)
    exact hg.promise _ hfulfilled (by simp)
  cases h.effect with
  | quiet hheld | ensure hheld | setSnapshot _ _ _ hheld | insert _ _ hheld
  | prune _ _ _ _ _ hheld =>
    intro p hp
    rw [hheld] at hp
    exact hmono (hh p hp)
  | accept _ _ hready | acceptCapture _ _ hready => exact fun _ _ ↦ haccepts hready
  | capture d _ _ hheld =>
    rw [Housed, hheld]
    exact housed_update (housed_update hh (hh none)) (absurd rfl)
  | release d _ hheld =>
    rw [Housed, hheld]
    exact housed_update hh (absurd rfl)
  | rebuffer d hheld =>
    rw [Housed, hheld]
    refine housed_update (housed_update hh fun hne ↦ ?_) (absurd rfl)
    exact (not_and_or.mp (mt List.append_eq_nil_iff.mpr hne)).elim (hh (some d)) (hh none)

theorem Step.store (h : Step cfg log inst a log' inst') (lost : Bool) :
    log'.store = ((inst.statement lost a).map fun st ↦ st.apply log.store).getD log.store := by
  cases h with
  | insert d batch hphase =>
    rw [statement, drainStatement, hphase]
    rfl
  | setSnapshot c cut hphase | deleteRows c cut hphase =>
    rw [statement, compactStatement, hphase]
    rfl
  | restoreTail n hp =>
    rw [statement, restoreStatement, hp]
    rfl
  | compactTail c n cut hphase =>
    rw [statement, compactStatement, hphase]
    rfl
  | loadRows l load hload =>
    unfold statement loadStatement
    dsimp only
    split <;> rfl
  | drainFails d phase hphase =>
    unfold statement drainStatement
    dsimp only
    split <;> rfl
  | _ => rfl

theorem Step.allowed (h : Step cfg log inst a log' inst') (hh : inst.Housed log) {lost : Bool}
    {st : Statement} (hst : inst.statement lost a = some st) : st.Allowed log.store := by
  cases h with
  | insert d batch hphase =>
    rw [statement, drainStatement, hphase] at hst
    cases hst
    intro hne
    refine hh (some d) ?_
    rwa [held_some, batch_eq hphase]
  | deleteRows c cut hphase victims hdeletable =>
    rw [statement, compactStatement, hphase] at hst
    cases hst
    exact hdeletable
  | setSnapshot c cut hphase | compactTail c n cut hphase =>
    rw [statement, compactStatement, hphase] at hst
    cases hst
    trivial
  | restoreTail n hp =>
    rw [statement, restoreStatement, hp] at hst
    cases hst
    trivial
  | loadRows l load hload =>
    unfold statement loadStatement at hst
    dsimp only at hst
    split at hst <;> cases hst
    trivial
  | drainFails d phase hphase =>
    unfold statement drainStatement at hst
    dsimp only at hst
    split at hst <;> cases hst
    trivial
  | _ => cases hst <;> trivial

end Instance

/-- In every run the strokes that are kept have a row to refer to. -/
theorem World.housed_of_reaches {cfg : Unit → Config} {w : World Unit}
    (h : (World.machine cfg).Reaches Machine.anyStep w) :
    (w.insts ()).Grounded w.log ∧ (w.insts ()).Housed w.log := by
  refine h.invariant (P := fun w ↦ (w.insts ()).Grounded w.log ∧ (w.insts ()).Housed w.log)
    (fun w hw ↦ ?_) fun w a w' hw _ hstep ↦ ?_
  · rw [hw.2.2]
    exact ⟨Instance.grounded_fresh _, Instance.housed_fresh _⟩
  · obtain ⟨log, inst, hs, rfl⟩ := World.step_eq_some.mp hstep
    have hstep' := Instance.Step.of_step hs
    rw [put_insts_self, put_log]
    exact ⟨hw.1.step hstep', hw.2.step hw.1 hstep'⟩

/-! ## The service over the database -/

namespace StrokeService

variable {cfg : Config} {s s' : StrokeService} {a : ServiceAction}

/-- The statement that takes effect with a step, and its board. -/
def statement (s : StrokeService) (lost : Bool) : ServiceAction → Option (String × Statement)
  | .board b a => ((s.entry b).statement lost a).map (b, ·)
  | .flushAll _ => none

end StrokeService

structure Deployment where
  service : StrokeService
  db : Database

/-- A step of the service, the time at which the database executes its statement, and whether a
`touch` that rejects had taken effect. -/
structure DeploymentAction where
  action : ServiceAction
  now : ℤ
  lost : Bool

namespace Deployment

/-- A step of the service, on the answer of the database. -/
def step (cfg : Config) (d : Deployment) (a : DeploymentAction) : Option Deployment :=
  (d.service.step cfg a.action).bind fun service ↦
    match d.service.statement a.lost a.action with
    | none => some ⟨service, d.db⟩
    | some (b, st) =>
      (st.exec a.now b d.db).bind fun (db, answer) ↦
        if answer = st.answer (d.service.log b).store then some ⟨service, db⟩ else none

/-- The database has the rows of every board. -/
def Agrees (d : Deployment) : Prop := ∀ b, (d.service.log b).store.HeldBy d.db

/-- A service at start-up, over a database that has the rows. -/
def init (d : Deployment) : Prop := d.service.init ∧ d.Agrees

def machine (cfg : Config) : Machine Deployment DeploymentAction := ⟨init, step cfg⟩

variable {cfg : Config} {d d' : Deployment} {s s' : StrokeService} {a : ServiceAction}

theorem store_of_step (h : s.step cfg a = some s') (lost : Bool) (b : String) :
    (s'.log b).store = (s.statement lost a).elim (s.log b).store fun st ↦
      if st.1 = b then st.2.apply (s.log b).store else (s.log b).store := by
  cases a with
  | board b' a =>
    obtain ⟨w, hw, rfl⟩ := StrokeService.step_board_eq_some.mp h
    obtain ⟨log, inst, hs, rfl⟩ := World.step_eq_some.mp hw
    have hstore : log.store = (((s.entry b').statement lost a).map fun st ↦
        st.apply (s.log b').store).getD (s.log b').store := (Instance.Step.of_step hs).store lost
    rw [StrokeService.statement, Option.elim_map]
    by_cases hb : b' = b
    · subst hb
      rw [StrokeService.log, StrokeService.setBoard_boards_self, World.put_log, hstore]
      cases (s.entry b').statement lost a with
      | none => rfl
      | some st => exact (if_pos rfl).symm
    · rw [StrokeService.log, StrokeService.setBoard_boards_of_ne (Ne.symm hb)]
      cases (s.entry b').statement lost a with
      | none => rfl
      | some st => exact (if_neg hb).symm
  | flushAll f =>
    obtain ⟨-, rfl⟩ := StrokeService.step_flushAll_eq_some.mp h
    rw [StrokeService.log, StrokeService.boards_flushAll]
    split_ifs <;> rfl

theorem allowed_of_step (hs : (StrokeService.machine cfg).Reaches Machine.anyStep s)
    (h : s.step cfg a = some s') {lost : Bool} {b : String} {st : Statement}
    (hst : s.statement lost a = some (b, st)) : st.Allowed (s.log b).store := by
  cases a with
  | board b' a =>
    obtain ⟨w, hw, rfl⟩ := StrokeService.step_board_eq_some.mp h
    obtain ⟨log, inst, hstep, -⟩ := World.step_eq_some.mp hw
    obtain ⟨st', hst', heq⟩ := Option.map_eq_some_iff.mp hst
    cases heq
    have hhoused := (World.housed_of_reaches (StrokeService.reaches_boards hs b)).2
    exact (Instance.Step.of_step hstep).allowed hhoused hst'
  | flushAll f => cases hst

theorem boardId_of_reaches (hs : (StrokeService.machine cfg).Reaches Machine.anyStep s)
    (b : String) : (s.log b).store.boardId = b := by
  refine hs.invariant (P := fun s ↦ (s.log b).store.boardId = b) (fun s hs ↦ (hs.1 b).2)
    fun s a s' hs _ hstep ↦ ?_
  rw [store_of_step hstep false b]
  cases s.statement false a with
  | none => exact hs
  | some st =>
    obtain ⟨b', st⟩ := st
    rw [Option.elim_some]
    split_ifs
    · cases st <;> exact hs
    · exact hs

/-- A step of the service is one over the database, which has the rows of every board again. -/
theorem Agrees.exists_step (hs : (StrokeService.machine cfg).Reaches Machine.anyStep d.service)
    (hd : d.Agrees) (h : d.service.step cfg a = some s') (now : ℤ) (lost : Bool) :
    ∃ db, d.step cfg ⟨a, now, lost⟩ = some ⟨s', db⟩ ∧ Agrees ⟨s', db⟩ := by
  have hstore := fun b ↦ store_of_step h lost b
  unfold step
  rw [h, Option.bind_some]
  cases hst : d.service.statement lost a with
  | none =>
    refine ⟨d.db, rfl, fun b ↦ ?_⟩
    have hb := hstore b
    rw [hst] at hb
    rw [hb]
    exact hd b
  | some st =>
    obtain ⟨b, st⟩ := st
    have hid := boardId_of_reaches hs b
    obtain ⟨db, hexec, hself, hother⟩ := (hd b).exec (allowed_of_step hs h hst) now
    rw [hid] at hexec hother
    refine ⟨db, ?_, fun b' ↦ ?_⟩
    · dsimp only
      rw [hexec, Option.bind_some]
      exact if_pos rfl
    · have hb' := hstore b'
      rw [hst, Option.elim_some] at hb'
      rw [hb']
      split_ifs with hbb
      · subst hbb
        exact hself
      · refine hother _ ?_ (hd b')
        rw [boardId_of_reaches hs b']
        exact hbb

theorem agrees_of_reaches (hd : (machine cfg).Reaches Machine.anyStep d) :
    (StrokeService.machine cfg).Reaches Machine.anyStep d.service ∧ d.Agrees := by
  refine hd.invariant
    (P := fun d ↦ (StrokeService.machine cfg).Reaches Machine.anyStep d.service ∧ d.Agrees)
    (fun d hd ↦ ⟨⟨d.service, hd.1, .refl⟩, hd.2⟩) fun d a d' ih _ hstep ↦ ?_
  obtain ⟨s', hs', -⟩ := Option.bind_eq_some_iff.mp hstep
  obtain ⟨db, hdb, hagrees⟩ := ih.2.exists_step ih.1 hs' a.now a.lost
  cases hdb.symm.trans hstep
  exact ⟨ih.1.step trivial hs', hagrees⟩

/-! ## The database never gets in the way -/

/-- **One database is as good as one store for each board.** In every run of the service over a
database that all boards share, the database has exactly the rows of every board, and a step of the
service is possible over the database if and only if it is over the stores: no statement is in
error, the foreign key included, and each is answered as the store of its board answers it. -/
theorem shared_step_iff (hd : (machine cfg).Reaches Machine.anyStep d) : d.Agrees ∧
    ∀ a now lost s', d.service.step cfg a = some s' ↔
      ∃ db, d.step cfg ⟨a, now, lost⟩ = some ⟨s', db⟩ := by
  obtain ⟨hs, hagrees⟩ := agrees_of_reaches hd
  refine ⟨hagrees, fun a now lost s' ↦ ⟨fun h ↦ ?_, fun ⟨db, h⟩ ↦ ?_⟩⟩
  · obtain ⟨db, hdb, -⟩ := hagrees.exists_step hs h now lost
    exact ⟨db, hdb⟩
  · obtain ⟨s'', hs'', -⟩ := Option.bind_eq_some_iff.mp h
    obtain ⟨db', hdb', -⟩ := hagrees.exists_step hs hs'' now lost
    cases hdb'.symm.trans h
    exact hs''

/-- A service nobody has used, over empty tables. -/
def start : Deployment := ⟨StrokeService.start, ⟨.empty _, .empty _, fun _ hr ↦ (nomatch hr)⟩⟩

theorem init_start : start.init := by
  refine ⟨StrokeService.init_startOver _, fun b ↦ ⟨rfl, rfl⟩⟩

/-- A stroke fills the batch, which is inserted. -/
def storeRun : List DeploymentAction :=
  (StrokeService.onBoard "board-1" (sampleRestore ++ [.resume "a" 5 0, .drain 0 .insert])).map
    fun a ↦ ⟨a, 1000, false⟩

theorem shared_step_iff_storeRun : ∃ d, (machine (sampleConfig 1 9)).exec start storeRun = some d ∧
    d.db.count "board-1" = 1 ∧ d.Agrees := by
  obtain ⟨d, hexec, hsteps, hcount⟩ := Machine.exists_of_exec start storeRun
    (M := machine (sampleConfig 1 9)) (p := fun d ↦ d.db.count "board-1" = 1) (by decide +kernel)
  exact ⟨d, hexec, of_decide_eq_true hcount, (shared_step_iff ⟨_, init_start, hsteps⟩).1⟩

end Deployment

end Synapse
