import Synapse.Stroke.Deployment

/-!
# What the service leaves alone

The password hash of a board is written by nobody but who runs the server, and the join endpoint
relies on that. The stroke service writes to the same rows: it creates them, and it updates the
baseline and the time of the last activity. It never touches the rest of a row, deletes no row, and
writes nothing at all for a board it has no entry for. A join only reads.
-/

namespace Synapse

open Keyed Transition

/-- Whether a statement only reads. -/
def Statement.reads : Statement → Bool
  | getSnapshotSeq | loadSince _ | count => true
  | ensure | setSnapshot _ | touch | insertBatch _ | deleteThrough _ _ => false

theorem Statement.exec_of_reads {st : Statement} (h : st.reads) {now : ℤ} {b : String}
    {db : Database} {r : Database × Answer} (hexec : st.exec now b db = some r) : r.1 = db := by
  cases st with
  | getSnapshotSeq | count =>
    cases hexec
    rfl
  | loadSince n =>
    obtain ⟨strokes, -, rfl⟩ := Option.map_eq_some_iff.mp hexec
    rfl
  | _ => cases h

namespace Database

/-- The strokes of a board. -/
def rows (db : Database) (b : String) : List StrokeRecord :=
  db.strokes.rows.filter fun r ↦ decide (r.boardId = b)

/-- What a statement may do to the row of a board: create it without a password, or update it. -/
structure KeepsRow (old new : Option BoardRecord) : Prop where
  kept : ∀ r, old = some r →
    ∃ r', new = some r' ∧ r'.createdAt = r.createdAt ∧ r'.passwordHash = r.passwordHash
  created : ∀ r', old = none → new = some r' → r'.passwordHash = none

namespace KeepsRow

variable {old mid new : Option BoardRecord}

theorem refl (old : Option BoardRecord) : KeepsRow old old where
  kept r hr := ⟨r, hr, rfl, rfl⟩
  created r' hold hnew := by
    rw [hold] at hnew
    cases hnew

theorem trans (h : KeepsRow old mid) (h' : KeepsRow mid new) : KeepsRow old new where
  kept r hr := by
    obtain ⟨r', hmid, htime, hhash⟩ := h.kept r hr
    obtain ⟨r'', hnew, htime', hhash'⟩ := h'.kept r' hmid
    exact ⟨r'', hnew, htime'.trans htime, hhash'.trans hhash⟩
  created r'' hold hnew := by
    cases hmid : mid with
    | none => exact h'.created r'' hmid hnew
    | some r' =>
      obtain ⟨r, hr, -, hhash⟩ := h'.kept r' hmid
      cases hr.symm.trans hnew
      exact hhash.trans (h.created r' hold hmid)

end KeepsRow

end Database

namespace Statement

variable {db db' : Database} {now : ℤ} {b : String} {answer : Answer}

theorem keepsRow_update (db : Database) (b b' : String) {set : BoardRecord → BoardRecord}
    (hset : ∀ r, (set r).createdAt = r.createdAt ∧ (set r).passwordHash = r.passwordHash) :
    Database.KeepsRow (db.board b') ((db.update b set).board b') := by
  rw [Database.board_update]
  split_ifs
  · refine ⟨fun r hr ↦ ⟨_, congrArg _ hr, hset r⟩, fun r' hold hnew ↦ ?_⟩
    rw [hold] at hnew
    cases hnew
  · exact .refl _

/-- A statement keeps the row of every board, and changes that of its own board only. -/
theorem keepsRow_exec {st : Statement} (hexec : st.exec now b db = some (db', answer))
    (b' : String) : Database.KeepsRow (db.board b') (db'.board b') ∧
      (b ≠ b' → db'.board b' = db.board b') := by
  have hupdate : ∀ set : BoardRecord → BoardRecord, b ≠ b' →
      (db.update b set).board b' = db.board b' := by
    intro set hne
    rw [Database.board_update, if_neg hne]
  cases st with
  | ensure =>
    cases hexec
    rw [Database.board_ensure]
    split_ifs with hb
    · refine ⟨⟨fun r hr ↦ ⟨r, by rw [hr, Option.getD_some], rfl, rfl⟩, fun r' hold hnew ↦ ?_⟩,
        absurd hb⟩
      rw [hold] at hnew
      cases hnew
      rfl
    · exact ⟨.refl _, fun _ ↦ rfl⟩
  | setSnapshot seq =>
    cases hexec
    exact ⟨keepsRow_update db b b' fun r ↦ ⟨rfl, rfl⟩, hupdate _⟩
  | touch =>
    cases hexec
    exact ⟨keepsRow_update db b b' fun r ↦ ⟨rfl, rfl⟩, hupdate _⟩
  | insertBatch batch =>
    obtain ⟨db'', hinsert, heq⟩ := Option.map_eq_some_iff.mp hexec
    cases heq
    by_cases hb : b ∈ db.ids
    · obtain ⟨_, hdb⟩ := Database.insertBatch_of_mem hb batch
      cases hdb.symm.trans hinsert
      exact ⟨.refl _, fun _ ↦ rfl⟩
    · by_cases hne : batch = []
      · subst hne
        cases hinsert
        exact ⟨.refl _, fun _ ↦ rfl⟩
      · rw [Database.insertBatch_of_not_mem hb hne] at hinsert
        cases hinsert
  | deleteThrough n victims =>
    obtain ⟨-, heq⟩ := Option.ite_none_right_eq_some.mp hexec
    cases heq
    exact ⟨.refl _, fun _ ↦ rfl⟩
  | getSnapshotSeq | loadSince | count =>
    have hdb := exec_of_reads rfl hexec
    dsimp only at hdb
    rw [hdb]
    exact ⟨.refl _, fun _ ↦ rfl⟩

end Statement

/-! ## A board without an entry -/

/-- The actions that can be taken on a board without an entry. -/
def Action.possibleUnseen : Action → Bool
  | .append _ _ _ | .maybeCompact _ | .flush _ | .loadForJoin _ _ | .load _ _ => true
  | _ => false

namespace Instance

variable {cfg : Config} {log log' : BoardLog} {inst inst' : Instance} {a : Action}

/-- A board that no `append` and no `maybeCompact` has been called for. -/
structure Unseen (inst : Instance) : Prop where
  state : inst.state = none
  ready : inst.ready = []
  drains : ∀ d phase, inst.drains d = some phase → phase = .resolved
  compactions : ∀ c, inst.compactions c = none

namespace Unseen

theorem fresh : Unseen {} := ⟨rfl, rfl, by simp, by simp⟩

theorem board (h : inst.Unseen) : inst.board = {} := by
  rw [Instance.board, h.state, Option.getD_none]

theorem initPromise (h : inst.Unseen) : inst.board.initPromise = none := by rw [h.board]

theorem possible (h : inst.Unseen) (hstep : Step cfg log inst a log' inst') :
    a.possibleUnseen = true := by
  cases hstep with
  | resumeAppend _ _ _ _ _ _ _ hready | resumeCompact _ _ _ _ _ hready =>
    rw [h.ready] at hready
    cases hready
  | timerFires _ htimer | retryFires _ htimer =>
    rw [h.board] at htimer
    cases htimer
  | restoreEnsure hp | restoreSnapshot hp | restoreTail _ hp | restoreFinish _ hp
  | restoreFail _ hp =>
    rw [h.initPromise] at hp
    cases hp
  | insert d _ hphase | insertResolves d _ hphase | touchResolves d _ hphase
  | drainResolves d hphase | drainRejects d hphase => cases h.drains d _ hphase
  | drainFails d phase hphase hpending =>
    cases h.drains d phase hphase
    cases hpending
  | count c hphase | proceedWithin c _ hphase | proceedOver c _ hphase | compactSnapshot c hphase
  | compactTail c _ _ hphase | setSnapshot c _ hphase | deleteRows c _ hphase
  | compactFinish c hphase | countFails c hphase | compactFails c _ hphase =>
    rw [h.compactions c] at hphase
    cases hphase
  | _ => rfl

theorem step (h : inst.Unseen) (hstep : Step cfg log inst a log' inst')
    (hstate : inst'.state = none) : inst'.Unseen := by
  have hpossible := h.possible hstep
  cases hstep with
  | append =>
    rw [ensureInitialized, h.initPromise] at hstate
    cases hstate
  | maybeCompact =>
    rw [ensureInitialized, board_setCompaction, h.initPromise] at hstate
    cases hstate
  | flush d =>
    -- a flush of a board without an entry ends at once
    rw [Instance.flush, h.state]
    refine ⟨h.state, h.ready, fun e phase he ↦ ?_, h.compactions⟩
    rw [drains_setDrain] at he
    split_ifs at he with hed
    · exact (Option.some_inj.mp he).symm
    · exact h.drains e phase he
  | loadForJoin | loadSnapshot | loadRows | loadResolves | loadFails => exact ⟨h.1, h.2, h.3, h.4⟩
  | _ => cases hpossible

theorem reads (h : inst.Unseen) (hstep : Step cfg log inst a log' inst') {lost : Bool}
    {st : Statement} (hst : inst.statement lost a = some st) : st.reads := by
  have hpossible := h.possible hstep
  cases a with
  | append | maybeCompact | flush | loadForJoin => cases hst
  | load l r =>
    change inst.loadStatement l r = some st at hst
    unfold loadStatement at hst
    split at hst
    · cases hst
      rfl
    · split at hst <;> cases hst
      rfl
    · cases hst
    · cases hst
  | _ => cases hpossible

end Unseen

end Instance

namespace StrokeService

variable {cfg : Config} {s s' : StrokeService} {a : ServiceAction} {b : String}

theorem known_of_step (h : s.step cfg a = some s') (hb : b ∈ s.known) : b ∈ s'.known := by
  cases a with
  | board b' a =>
    obtain ⟨w, -, rfl⟩ := step_board_eq_some.mp h
    rw [setBoard]
    split_ifs
    · exact hb
    · exact List.mem_append_left _ hb
  | flushAll f =>
    obtain ⟨-, rfl⟩ := step_flushAll_eq_some.mp h
    exact hb

theorem unseen_of_reaches (hs : (machine cfg).Reaches Machine.anyStep s) :
    ∀ b ∉ s.known, (s.entry b).Unseen := by
  refine hs.invariant (P := fun s ↦ ∀ b ∉ s.known, (s.entry b).Unseen) (fun s hs b _ ↦ ?_)
    fun s a s' hs _ hstep b hb ↦ ?_
  · rw [entry, (hs.1 b).1.2.2]
    exact .fresh
  · have hbefore : b ∉ s.known := fun hmem ↦ hb (known_of_step hstep hmem)
    have hunseen := hs b hbefore
    change s.step cfg a = some s' at hstep
    cases a with
    | board b' a =>
      obtain ⟨w, hw, rfl⟩ := step_board_eq_some.mp hstep
      obtain ⟨log, inst, hinst, rfl⟩ := World.step_eq_some.mp hw
      by_cases hbb : b = b'
      · subst hbb
        rw [entry_setBoard_self, World.put_insts_self]
        refine hunseen.step (Instance.Step.of_step hinst) ?_
        by_contra hstate
        refine hb ?_
        rw [setBoard, World.put_insts_self, if_neg (not_or.mpr ⟨hbefore, hstate⟩)]
        exact List.mem_append_right _ (List.mem_singleton_self b)
      · rw [entry_setBoard_of_ne hbb]
        exact hunseen
    | flushAll f =>
      obtain ⟨-, rfl⟩ := step_flushAll_eq_some.mp hstep
      rw [entry, boards_flushAll, if_neg hbefore]
      exact hunseen

theorem reads_of_step (hs : (machine cfg).Reaches Machine.anyStep s) (h : s.step cfg a = some s')
    (hb : b ∉ s'.known) {lost : Bool} {st : Statement} (hst : s.statement lost a = some (b, st)) :
    st.reads := by
  cases a with
  | board b' a =>
    obtain ⟨st', hst', heq⟩ := Option.map_eq_some_iff.mp hst
    cases heq
    have hbefore : b ∉ s.known := fun hmem ↦ hb (known_of_step h hmem)
    obtain ⟨w, hw, -⟩ := step_board_eq_some.mp h
    obtain ⟨log, inst, hinst, -⟩ := World.step_eq_some.mp hw
    exact (unseen_of_reaches hs b hbefore).reads (Instance.Step.of_step hinst) hst'
  | flushAll f => cases hst

end StrokeService

namespace Deployment

variable {cfg : Config} {d d' : Deployment} {a : DeploymentAction} {b : String}

theorem exec_of_step (h : d.step cfg a = some d') :
    d.service.step cfg a.action = some d'.service ∧
      ((d.service.statement a.lost a.action = none ∧ d'.db = d.db) ∨
        ∃ b st answer, d.service.statement a.lost a.action = some (b, st) ∧
          st.exec a.now b d.db = some (d'.db, answer)) := by
  obtain ⟨s', hs', h⟩ := Option.bind_eq_some_iff.mp h
  split at h
  · next hst =>
    cases h
    exact ⟨hs', Or.inl ⟨hst, rfl⟩⟩
  · next b st hst =>
    obtain ⟨r, hexec, h⟩ := Option.bind_eq_some_iff.mp h
    obtain ⟨-, h⟩ := Option.ite_none_right_eq_some.mp h
    cases h
    exact ⟨hs', Or.inr ⟨b, st, r.2, hst, hexec⟩⟩

theorem keepsRow_of_step (h : d.step cfg a = some d') (b : String) :
    Database.KeepsRow (d.db.board b) (d'.db.board b) := by
  obtain ⟨-, ⟨-, hdb⟩ | ⟨b', st, answer, -, hexec⟩⟩ := exec_of_step h
  · rw [hdb]
    exact .refl _
  · exact (Statement.keepsRow_exec hexec b).1

theorem rows_eq_of_agrees (hd : (machine cfg).Reaches Machine.anyStep d) (b : String) :
    d.db.rows b = (d.service.log b).store.strokes.rows.map (StrokeRecord.ofStroke b) := by
  obtain ⟨hs, hagrees⟩ := agrees_of_reaches hd
  have hserves := (hagrees b).serves
  rw [BoardStore.Serves, boardId_of_reaches hs b] at hserves
  exact hserves

/-- A step writes nothing for a board that has no entry after it. -/
theorem untouched_of_step (hd : (machine cfg).Reaches Machine.anyStep d)
    (h : d.step cfg a = some d') (hb : b ∉ d'.service.known) :
    d'.db.board b = d.db.board b ∧ d'.db.rows b = d.db.rows b := by
  obtain ⟨hs, -⟩ := agrees_of_reaches hd
  obtain ⟨hstep, ⟨-, hdb⟩ | ⟨b', st, answer, hst, hexec⟩⟩ := exec_of_step h
  · rw [hdb]
    exact ⟨rfl, rfl⟩
  · by_cases hbb : b' = b
    · subst hbb
      have hdb := Statement.exec_of_reads (StrokeService.reads_of_step hs hstep hb hst) hexec
      dsimp only at hdb
      rw [hdb]
      exact ⟨rfl, rfl⟩
    · refine ⟨(Statement.keepsRow_exec hexec b).2 hbb, ?_⟩
      have hstore := store_of_step hstep a.lost b
      rw [hst, Option.elim_some, if_neg hbb] at hstore
      rw [rows_eq_of_agrees (hd.step trivial h), rows_eq_of_agrees hd, hstore]

/-- **What the service leaves alone.** In every run over the database no row of a board disappears,
and none has its password hash or its time of creation changed; a row that is created has no
password; and the rows of a board that the service has no entry for are as they were. -/
theorem leaves_alone (hd : (machine cfg).Reaches Machine.anyStep d)
    (h : (machine cfg).Steps Machine.anyStep d d') (b : String) :
    Database.KeepsRow (d.db.board b) (d'.db.board b) ∧
      (b ∉ d'.service.known → d'.db.board b = d.db.board b ∧ d'.db.rows b = d.db.rows b) := by
  induction h with
  | refl => exact ⟨.refl _, fun _ ↦ ⟨rfl, rfl⟩⟩
  | tail hsteps _ hstep ih =>
    refine ⟨ih.1.trans (keepsRow_of_step hstep b), fun hb ↦ ?_⟩
    have hknown := fun hmem ↦ hb (StrokeService.known_of_step (exec_of_step hstep).1 hmem)
    obtain ⟨hrow, hrows⟩ := untouched_of_step (hd.trans hsteps) hstep hb
    exact ⟨hrow.trans (ih.2 hknown).1, hrows.trans (ih.2 hknown).2⟩

/-- A board with a password, and a service nobody has used. -/
def protectedStart : Deployment where
  service := StrokeService.startOver fun b ↦
    { boardId := b, boardRow := if b = "board-1" then some 0 else none }
  db :=
    { boards := (Table.empty _).put ⟨"board-1", 0, 0, some "hash", 0, none⟩
      strokes := .empty _
      references := fun _ hr ↦ (nomatch hr) }

theorem init_protectedStart : protectedStart.init := by
  refine ⟨StrokeService.init_startOver _, fun b ↦ ⟨rfl, ?_⟩⟩
  have hput := Table.get?_put (Table.empty BoardRecord.id)
    ⟨"board-1", 0, 0, some "hash", 0, none⟩ b
  refine Eq.trans ?_ (congrArg (Option.map BoardRecord.snapshotSeq) hput.symm)
  change (if b = "board-1" then some 0 else none) = _
  by_cases hb : b = "board-1"
  · subst hb
    rfl
  · rw [if_neg hb, if_neg (Ne.symm hb)]
    rfl

/-- Strokes are stored on a protected board, which keeps its password. -/
theorem leaves_alone_protected : ∃ d r, (machine (sampleConfig 1 9)).exec protectedStart storeRun
    = some d ∧ d.db.count "board-1" = 1 ∧ d.db.board "board-1" = some r ∧
      r.passwordHash = some "hash" := by
  obtain ⟨d, hexec, hsteps, hcount⟩ := Machine.exists_of_exec protectedStart storeRun
    (M := machine (sampleConfig 1 9)) (p := fun d ↦ d.db.count "board-1" = 1) (by decide +kernel)
  obtain ⟨r, hr, -, hhash⟩ := (leaves_alone (.init init_protectedStart) hsteps "board-1").1.kept
    ⟨"board-1", 0, 0, some "hash", 0, none⟩ rfl
  exact ⟨d, r, hexec, of_decide_eq_true hcount, hr, hhash⟩

end Deployment

end Synapse
