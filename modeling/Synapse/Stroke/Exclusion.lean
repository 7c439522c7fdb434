import Synapse.Stroke.Compaction

/-!
# At most one compaction at a time

`compacting` is meant to be the lock of `maybeCompact`. It is tested before the count is awaited and
set after the count has arrived, so the test says nothing about the moment of setting: two calls may
both pass it, both find the board over its cap, and both go on.

## What the flag does guarantee

The flag is a lock in every run in which it is still down when a call that has counted too many rows
raises it. The only steps that matter are those that enter the critical section or leave it
(`Step.criticalMove`); what a call does while it waits for the restore or for its count is
invisible.
-/

namespace Synapse

open Transition

/-- The number of the compaction a call is. -/
def Caller.isCompaction (c : ℕ) : Caller → Bool
  | .append _ _ _ => false
  | .maybeCompact e => decide (e = c)

namespace Instance

/-- The action is the resumption of a compaction that has counted too many rows. -/
def enters (cfg : Config) (inst : Instance) : Action → Bool
  | .compact c .proceed =>
    match inst.compactions c with
    | some (.counted total) => decide (cfg.strokeCap < total)
    | _ => false
  | _ => false

/-- Compaction `c` is between setting `compacting` and its `finally` block. -/
def inCritical (inst : Instance) (c : ℕ) : Bool :=
  (inst.compactions c).any CompactionPhase.critical

/-- How often compaction `c` is waiting for the restore. -/
def awaiting (inst : Instance) (c : ℕ) : ℕ :=
  inst.waiting.countP (Caller.isCompaction c) + inst.ready.countP (Caller.isCompaction c)

/-- A compaction waits for the restore at most once, and only before it counts. -/
def QueuedOnce (inst : Instance) : Prop :=
  ∀ c, inst.awaiting c ≤ if inst.compactions c = some .initializing then 1 else 0

/-- `compacting` is set exactly while a compaction is in the critical section, and there is at most
one. -/
structure Locked (inst : Instance) : Prop where
  unique : ∀ c e, inst.inCritical c → inst.inCritical e → c = e
  flag : inst.board.compacting ↔ ∃ c, inst.inCritical c

theorem queuedOnce_fresh : QueuedOnce {} := fun _ ↦ by simp [awaiting]

theorem locked_fresh : Locked {} where
  unique _ _ h := by cases h
  flag := by simp [board, inCritical]

variable {cfg : Config} {log log' : BoardLog} {inst inst' : Instance} {a : Action} {c e : ℕ}

theorem inCritical_setCompaction (phase : CompactionPhase) :
    (inst.setCompaction c phase).inCritical
      = Function.update inst.inCritical c phase.critical := by
  funext e
  rw [inCritical, compactions_setCompaction, Function.update_apply]
  split_ifs <;> rfl

theorem inCritical_eq {phase : CompactionPhase} (h : inst.compactions c = some phase) :
    inst.inCritical c = phase.critical := by
  rw [inCritical, h, Option.any_some]

theorem inCritical_setCompaction_of_eq {phase : CompactionPhase}
    (h : inst.inCritical c = phase.critical) :
    (inst.setCompaction c phase).inCritical = inst.inCritical := by
  rw [inCritical_setCompaction, ← h, Function.update_eq_self]

/-! ## Waiting for the restore -/

theorem QueuedOnce.not_waiting (h : inst.QueuedOnce)
    (hc : inst.compactions c ≠ some .initializing) :
    inst.awaiting c = 0 := by
  have hle := h c
  rw [if_neg hc] at hle
  exact Nat.le_zero.mp hle

theorem QueuedOnce.initializing_of_mem (h : inst.QueuedOnce)
    (hc : .maybeCompact c ∈ inst.waiting ∨ .maybeCompact c ∈ inst.ready) :
    inst.compactions c = some .initializing := by
  by_contra hne
  have hzero := h.not_waiting hne
  rw [awaiting, Nat.add_eq_zero_iff, List.countP_eq_zero, List.countP_eq_zero] at hzero
  rcases hc with hc | hc
  · exact hzero.1 _ hc (by simp [Caller.isCompaction])
  · exact hzero.2 _ hc (by simp [Caller.isCompaction])

/-- No compaction waits more often than before, and those that wait still have not counted. -/
theorem QueuedOnce.of_le (h : inst.QueuedOnce) (hle : ∀ c, inst'.awaiting c ≤ inst.awaiting c)
    (hkeep : ∀ c, inst.compactions c = some .initializing →
      inst'.compactions c = some .initializing ∨ inst'.awaiting c = 0) : inst'.QueuedOnce := by
  intro c
  by_cases hc : inst.compactions c = some .initializing
  · rcases hkeep c hc with hkept | hzero
    · rw [if_pos hkept]
      exact (hle c).trans ((h c).trans (by rw [if_pos hc]))
    · rw [hzero]
      exact Nat.zero_le _
  · have hzero : inst'.awaiting c = 0 := Nat.le_zero.mp ((hle c).trans (h.not_waiting hc).le)
    rw [hzero]
    exact Nat.zero_le _

theorem QueuedOnce.frame (h : inst.QueuedOnce) (hwaiting : inst'.waiting = inst.waiting)
    (hready : inst'.ready = inst.ready) (hcompactions : inst'.compactions = inst.compactions) :
    inst'.QueuedOnce := by
  intro c
  rw [awaiting, hwaiting, hready, hcompactions]
  exact h c

theorem QueuedOnce.setBoard (h : inst.QueuedOnce) (state : BoardState) :
    (inst.setBoard state).QueuedOnce := h

theorem QueuedOnce.setCompaction {old : CompactionPhase} (h : inst.QueuedOnce)
    (hphase : inst.compactions c = some old) (hold : old ≠ .initializing)
    (phase : CompactionPhase) : (inst.setCompaction c phase).QueuedOnce := by
  have hc : inst.compactions c ≠ some .initializing := by
    rw [hphase]
    exact fun h ↦ hold (Option.some.inj h)
  refine h.of_le (fun _ ↦ le_rfl) fun e he ↦ Or.inl ?_
  rw [compactions_setCompaction, if_neg (by rintro rfl; exact hc he)]
  exact he

theorem awaiting_ensureInitialized (caller : Caller) (c : ℕ) :
    (inst.ensureInitialized caller).awaiting c
      = inst.awaiting c + if caller.isCompaction c then 1 else 0 := by
  unfold ensureInitialized awaiting
  split
  · simp only [setInitPromise, setWaiting, setBoard, List.countP_append, List.countP_singleton]
    omega
  · simp only [setReady, List.countP_append, List.countP_singleton]
    omega
  · simp only [setWaiting, List.countP_append, List.countP_singleton]
    omega

theorem QueuedOnce.resumeCompact (h : inst.QueuedOnce) {ready : List Caller}
    (hready : inst.ready = .maybeCompact c :: ready) (phase : CompactionPhase) :
    ((inst.setReady ready).setCompaction c phase).QueuedOnce := by
  have hphase : inst.compactions c = some .initializing :=
    h.initializing_of_mem (Or.inr (by rw [hready]; exact List.mem_cons_self))
  have hcount : ∀ e, inst.awaiting e = inst.waiting.countP (Caller.isCompaction e)
      + (ready.countP (Caller.isCompaction e) + if c = e then 1 else 0) := by
    intro e
    rw [awaiting, hready, List.countP_cons]
    simp [Caller.isCompaction]
  refine h.of_le (fun e ↦ ?_) fun e he ↦ ?_
  · rw [hcount]
    exact Nat.add_le_add_left (Nat.le_add_right _ _) _
  · by_cases hec : e = c
    · -- it was in the queues once, and has left them
      subst hec
      have hle := h e
      rw [hcount, if_pos hphase, if_pos rfl] at hle
      exact Or.inr (Nat.le_zero.mp (Nat.le_of_succ_le_succ hle))
    · left
      rw [compactions_setCompaction, if_neg hec]
      exact he

theorem QueuedOnce.failRestore (h : inst.QueuedOnce) : inst.failRestore.QueuedOnce := by
  refine h.of_le (fun c ↦ ?_) fun c hc ↦ ?_
  · simp only [awaiting, Instance.failRestore, Instance.setBoard, List.countP_nil]
    omega
  · by_cases hwaiting : Caller.maybeCompact c ∈ inst.waiting
    · right
      have hpos : 0 < inst.waiting.countP (Caller.isCompaction c) :=
        List.countP_pos_iff.mpr ⟨_, hwaiting, by simp [Caller.isCompaction]⟩
      have hle := h c
      rw [if_pos hc, awaiting] at hle
      simp only [awaiting, Instance.failRestore, Instance.setBoard, List.countP_nil]
      omega
    · left
      simpa [Instance.failRestore, hwaiting] using hc

theorem QueuedOnce.step (h : inst.QueuedOnce) (hs : Step cfg log inst a log' inst') :
    inst'.QueuedOnce := by
  cases hs with
  | append call userId seg =>
    refine h.of_le (fun c ↦ ?_) fun c hc ↦ Or.inl ?_
    · rw [awaiting_ensureInitialized]
      exact le_rfl
    · rwa [compactions_ensureInitialized]
  | maybeCompact c hidle =>
    intro e
    rw [awaiting_ensureInitialized, compactions_ensureInitialized, compactions_setCompaction]
    have hsame : (inst.setCompaction c .initializing).awaiting e = inst.awaiting e := rfl
    rw [hsame]
    by_cases hec : e = c
    · subst hec
      rw [h.not_waiting (by rw [hidle]; simp)]
      simp [Caller.isCompaction]
    · have hce : ¬ c = e := fun h ↦ hec h.symm
      simpa [Caller.isCompaction, hec, hce] using h e
  | resumeAppend id ts d call userId seg ready hready hidle =>
    refine h.of_le (fun c ↦ ?_) fun c hc ↦ Or.inl ?_
    · rw [awaiting, awaiting, waiting_push, ready_push, hready]
      simp [setReady, Caller.isCompaction]
    · rwa [compactions_push]
  | resumeCompact id ts d c ready hready => exact h.resumeCompact hready _
  | flush d hidle => exact h.frame (waiting_flush d) (ready_flush d) (compactions_flush d)
  | timerFires d htimer hidle =>
    exact h.frame (waiting_flush d) (ready_flush d) (compactions_flush d)
  | restoreFinish highest hpromise =>
    refine h.of_le (fun c ↦ ?_) fun c hc ↦ Or.inl hc
    simp only [awaiting, finishRestore, Instance.setBoard, List.countP_append, List.countP_nil]
    omega
  | restoreFail promise hpromise hpending => exact h.failRestore
  | count c hphase => exact h.setCompaction hphase (by simp) _
  | proceedWithin c total hphase hcap => exact h.setCompaction hphase (by simp) _
  | proceedOver c total hphase hcap => exact (h.setBoard _).setCompaction hphase (by simp) _
  | compactSnapshot c hphase => exact h.setCompaction hphase (by simp) _
  | compactTail c snapshotSeq cut hphase hcut => exact h.setCompaction hphase (by simp) _
  | setSnapshot c cut hphase => exact h.setCompaction hphase (by simp) _
  | deleteRows c cut hphase victims hdeletable => exact h.setCompaction hphase (by simp) _
  | compactFinish c hphase => exact (h.setBoard _).setCompaction hphase (by simp) _
  | countFails c hphase => exact h.setCompaction hphase (by simp) _
  | compactFails c phase hphase hcritical =>
    refine (h.setBoard _).setCompaction hphase ?_ _
    rintro rfl
    cases hcritical
  | _ => exact h.frame rfl rfl rfl

/-! ## Entering and leaving the critical section -/

/-- What a step does to the critical section. -/
inductive CriticalMove (cfg : Config) (inst inst' : Instance) (a : Action) : Prop
  | stay (henters : inst.enters cfg a = false) (hcritical : inst'.inCritical = inst.inCritical)
      (hflag : inst'.board.compacting = inst.board.compacting)
  | enter (c : ℕ) (henters : inst.enters cfg a = true) (hc : inst.inCritical c = false)
      (hcritical : inst'.inCritical = Function.update inst.inCritical c true)
      (hflag : inst'.board.compacting = true)
  | leave (c : ℕ) (henters : inst.enters cfg a = false) (hc : inst.inCritical c = true)
      (hcritical : inst'.inCritical = Function.update inst.inCritical c false)
      (hflag : inst'.board.compacting = false)

theorem CriticalMove.frame (henters : inst.enters cfg a = false)
    (hcompactions : inst'.compactions = inst.compactions)
    (hflag : inst'.board.compacting = inst.board.compacting) : CriticalMove cfg inst inst' a := by
  refine .stay henters ?_ hflag
  funext c
  rw [inCritical, hcompactions, inCritical]

theorem CriticalMove.setCompaction {old phase : CompactionPhase}
    (henters : inst.enters cfg a = false) (hphase : inst.compactions c = some old)
    (h : old.critical = phase.critical) : CriticalMove cfg inst (inst.setCompaction c phase) a :=
  .stay henters (inCritical_setCompaction_of_eq ((inCritical_eq hphase).trans h)) rfl

theorem Step.criticalMove (hs : Step cfg log inst a log' inst') (h : inst.QueuedOnce) :
    CriticalMove cfg inst inst' a := by
  cases hs with
  | append =>
    exact .frame rfl (compactions_ensureInitialized _) (frame_ensureInitialized _).2.2.2.2
  | maybeCompact c hidle =>
    refine .stay rfl ?_ (frame_ensureInitialized _).2.2.2.2
    have hnone : inst.inCritical c = CompactionPhase.critical .initializing := by
      rw [inCritical, hidle]
      rfl
    rw [← inCritical_setCompaction_of_eq hnone]
    funext e
    rw [inCritical, compactions_ensureInitialized, inCritical]
  | resumeAppend =>
    exact .frame rfl (compactions_push _ _ _) (board_push _ _ _).2.2
  | resumeCompact id ts d c ready hready =>
    have hphase : inst.compactions c = some .initializing :=
      h.initializing_of_mem (Or.inr (by rw [hready]; exact List.mem_cons_self))
    have hnone : (inst.setReady ready).inCritical c = false := inCritical_eq hphase
    refine .stay rfl (inCritical_setCompaction_of_eq ?_) rfl
    rw [hnone]
    split_ifs <;> rfl
  | flush => exact .frame rfl (compactions_flush _) (by rw [board_flush])
  | timerFires => exact .frame rfl (compactions_flush _) (by rw [board_flush]; rfl)
  | restoreFail promise hpromise hpending =>
    refine .stay rfl (funext fun c ↦ ?_) rfl
    by_cases hwaiting : Caller.maybeCompact c ∈ inst.waiting
    · rw [inCritical_eq (h.initializing_of_mem (Or.inl hwaiting))]
      simp [inCritical, failRestore, hwaiting, CompactionPhase.critical]
    · simp [inCritical, failRestore, hwaiting]
  | drainRejects d hphase =>
    refine .frame rfl rfl ?_
    rw [board_setDrain, board_setBoard, BoardState.handleFlushFailure]
    dsimp only
    split_ifs <;> rfl
  | count c hphase => exact .setCompaction rfl hphase rfl
  | proceedWithin c total hphase hcap =>
    exact .setCompaction (by simp [enters, hphase, hcap]) hphase rfl
  | proceedOver c total hphase hcap =>
    exact .enter c (by simp [enters, hphase, hcap]) (inCritical_eq hphase)
      (inCritical_setCompaction _) rfl
  | compactSnapshot c hphase => exact .setCompaction rfl hphase rfl
  | compactTail c snapshotSeq cut hphase hcut =>
    refine .setCompaction rfl hphase ?_
    split_ifs <;> rfl
  | setSnapshot c cut hphase => exact .setCompaction rfl hphase rfl
  | deleteRows c cut hphase victims hdeletable =>
    refine .setCompaction rfl hphase ?_
    split_ifs <;> rfl
  | compactFinish c hphase =>
    exact .leave c rfl (inCritical_eq hphase) (inCritical_setCompaction _) rfl
  | countFails c hphase => exact .setCompaction rfl hphase rfl
  | compactFails c phase hphase hcritical =>
    exact .leave c rfl ((inCritical_eq hphase).trans hcritical) (inCritical_setCompaction _) rfl
  | _ => exact .frame rfl rfl rfl

/-- With the flag down, a compaction that enters is alone. -/
theorem Locked.enter (h : inst.Locked) (hdown : inst.board.compacting = false)
    (hcritical : inst'.inCritical = Function.update inst.inCritical c true)
    (hflag : inst'.board.compacting = true) : inst'.Locked := by
  have hnobody : ∀ e, inst.inCritical e = false := by
    intro e
    by_contra hne
    rw [h.flag.mpr ⟨e, by simpa using hne⟩] at hdown
    cases hdown
  have honly : ∀ e, inst'.inCritical e → e = c := by
    intro e he
    by_contra hec
    rw [hcritical, Function.update_of_ne hec, hnobody] at he
    cases he
  refine ⟨fun e f he hf ↦ (honly e he).trans (honly f hf).symm, ?_⟩
  exact ⟨fun _ ↦ ⟨c, by rw [hcritical, Function.update_self]⟩, fun _ ↦ hflag⟩

theorem Locked.leave (h : inst.Locked) (hc : inst.inCritical c = true)
    (hcritical : inst'.inCritical = Function.update inst.inCritical c false)
    (hflag : inst'.board.compacting = false) : inst'.Locked := by
  have hnobody : ∀ e, inst'.inCritical e = false := by
    intro e
    by_cases hec : e = c
    · rw [hcritical, hec, Function.update_self]
    · rw [hcritical, Function.update_of_ne hec]
      exact Bool.eq_false_iff.mpr fun he ↦ hec (h.unique e c he hc)
  refine ⟨fun e _ he ↦ absurd he (by simp [hnobody]), ?_⟩
  rw [hflag]
  simp [hnobody]

/-- While one compaction holds the flag, another that enters is one too many. -/
theorem Locked.not_enter (h : inst.Locked) (hup : inst.board.compacting = true)
    (hc : inst.inCritical c = false)
    (hcritical : inst'.inCritical = Function.update inst.inCritical c true) : ¬ inst'.Locked := by
  intro h'
  obtain ⟨e, he⟩ := h.flag.mp hup
  have hec : e ≠ c := by
    rintro rfl
    rw [hc] at he
    cases he
  refine hec (h'.unique e c ?_ ?_)
  · rw [hcritical, Function.update_of_ne hec]
    exact he
  · rw [hcritical, Function.update_self]

/-- **The flag is a lock exactly as long as it is down when it is raised.** -/
theorem Locked.step_iff (h : inst.Locked) (ha : inst.QueuedOnce)
    (hs : Step cfg log inst a log' inst') :
    inst'.Locked ↔ (inst.enters cfg a → inst.board.compacting = false) := by
  rcases hs.criticalMove ha with ⟨henters, hcritical, hflag⟩ | ⟨c, henters, hc, hcritical, hflag⟩ |
    ⟨c, henters, hc, hcritical, hflag⟩
  · refine iff_of_true ⟨?_, ?_⟩ fun hyes ↦ absurd hyes (by simp [henters])
    · rw [hcritical]
      exact h.unique
    · rw [hcritical, hflag]
      exact h.flag
  · refine ⟨fun h' _ ↦ ?_, fun hdown ↦ h.enter (hdown henters) hcritical hflag⟩
    exact Bool.eq_false_iff.mpr fun hup ↦ h.not_enter hup hc hcritical h'
  · exact iff_of_true (h.leave hc hcritical hflag) fun hyes ↦ absurd hyes (by simp [henters])

end Instance

namespace World

variable {ι : Type*}

/-- Whenever a compaction of instance `i` has counted too many rows, it finds the flag down. -/
def EntersUnlocked (cfg : ι → Config) (i : ι) (w : World ι) (a : ι × Action) : Prop :=
  a.1 = i → (w.insts i).enters (cfg i) a.2 → (w.insts i).board.compacting = false

instance [DecidableEq ι] (cfg : ι → Config) (i : ι) (w : World ι) (a : ι × Action) :
    Decidable (EntersUnlocked cfg i w a) :=
  inferInstanceAs (Decidable (_ → _ → _))

/-- Compactions only wait, or count, or hold the flag alone. -/
structure Exclusive (i : ι) (w : World ι) : Prop where
  queued : (w.insts i).QueuedOnce
  locked : (w.insts i).Locked

theorem Exclusive.of_init {i : ι} {w : World ι} (h : w.init) : Exclusive i w := by
  refine ⟨?_, ?_⟩ <;> rw [h.2.2 i]
  · exact Instance.queuedOnce_fresh
  · exact Instance.locked_fresh

variable [DecidableEq ι] {cfg : ι → Config} {w w' : World ι} {a : ι × Action}

/-- Every step keeps the queues in order, and keeps the lock exactly if it enters unlocked. -/
theorem Exclusive.step {i : ι} (h : Exclusive i w) (hs : w.step cfg a = some w') :
    (w'.insts i).QueuedOnce ∧ ((w'.insts i).Locked ↔ EntersUnlocked cfg i w a) := by
  obtain ⟨j, a⟩ := a
  obtain ⟨log, inst, hstep, rfl⟩ := step_eq_some.mp hs
  by_cases hij : j = i
  · subst hij
    rw [put_insts_self]
    refine ⟨h.queued.step (.of_step hstep), ?_⟩
    rw [h.locked.step_iff h.queued (.of_step hstep)]
    exact ⟨fun hok _ ↦ hok, fun hok ↦ hok rfl⟩
  · rw [put_insts_of_ne _ (Ne.symm hij)]
    exact ⟨h.queued, iff_of_true h.locked fun hji ↦ absurd hji hij⟩

/-- In every run in which a compaction that has counted too many rows finds the flag down, at most
one compaction is in its critical section and the flag says whether one is; and the first step that
finds the flag up ends that. -/
theorem compacting_iff_inCritical (i : ι) (h : (machine cfg).Reaches (EntersUnlocked cfg i) w) :
    (w.insts i).Locked ∧ ∀ a w', w.step cfg a = some w' →
      ((w'.insts i).Locked ↔ EntersUnlocked cfg i w a) := by
  have hexclusive : Exclusive i w :=
    h.invariant (fun _ ↦ .of_init) fun u a v hu hok hs ↦ ⟨(hu.step hs).1, (hu.step hs).2.mpr hok⟩
  exact ⟨hexclusive.locked, fun a w' hs ↦ (hexclusive.step hs).2⟩

/-! ## Two draws over the cap -/

/-- Two compactions pass the guard and count before either sets the flag. -/
def overlappingRun : List Action :=
  [.maybeCompact 0, .maybeCompact 1, .restore .ensure, .restore .readSnapshotSeq,
    .restore .readTail, .restore .finish, .resume "" 0 0, .resume "" 0 0, .compact 0 .count,
    .compact 1 .count, .compact 0 .proceed, .compact 1 .proceed]

private def bothInside (w : World Unit) : Bool :=
  (w.insts ()).inCritical 0 && (w.insts ()).inCritical 1

theorem two_inCritical : ∃ w : World Unit,
    (machine fun _ ↦ sampleConfig 9 2).Reaches Machine.anyStep w ∧ ¬ (w.insts ()).Locked := by
  obtain ⟨w, -, hsteps, hp⟩ := Machine.exists_of_exec (M := machine fun _ ↦ sampleConfig 9 2)
    (p := bothInside) (start Unit (sampleStoreOf 3)) (overLone overlappingRun) (by decide +kernel)
  rw [bothInside, Bool.and_eq_true] at hp
  refine ⟨w, ⟨_, init_start _, hsteps⟩, fun hlocked ↦ ?_⟩
  exact absurd (hlocked.unique 0 1 hp.1 hp.2) (by decide)

private def aloneInside (w : World Unit) : Bool := (w.insts ()).inCritical 0

theorem compacting_iff_inCritical_alone : ∃ w : World Unit, (w.insts ()).inCritical 0 ∧
    (w.insts ()).Locked := by
  obtain ⟨w, -, hsteps, hp⟩ : ∃ w,
      (machine fun _ ↦ sampleConfig 9 2).exec (start Unit (sampleStoreOf 3))
        (overLone compactOpening) = some w ∧
      (machine fun _ ↦ sampleConfig 9 2).Steps (EntersUnlocked (fun _ ↦ sampleConfig 9 2) ())
        (start Unit (sampleStoreOf 3)) w ∧ aloneInside w = true :=
    Machine.exists_of_guarded_any _ _ (by decide +kernel)
  exact ⟨w, hp, (compacting_iff_inCritical () ⟨_, init_start _, hsteps⟩).1⟩

end World

end Synapse
