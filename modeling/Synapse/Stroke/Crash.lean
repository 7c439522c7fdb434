import Synapse.Stroke.Baseline
import Synapse.Stroke.Flush

/-!
# Crashes

A crash takes the buffers and the counters with it; what starts afterwards knows the database and
nothing else. So a process is a run from start-up, over the rows its predecessor has left, and what
outlives a crash are the rows. A statement that was under way when the process died has taken effect
before the next process starts, or does not take effect any more.

## The numbers

The counter of a new process is restored from the baseline and the rows above it. Strokes that were
only in memory are lost, and their numbers are given out again. A number whose stroke has reached
the database is not, not even when the row has been compacted since, for then the baseline is at or
above it. `Above` is what a number to stay clear of asks of the restore.
-/

namespace Synapse

open Keyed Transition

namespace Instance

variable {cfg : Config} {log log' : BoardLog} {inst inst' : Instance} {a : Action} {m : ℕ}

/-- The number `m` is at or below the baseline, and below what will be assigned. -/
structure Above (log : BoardLog) (inst : Instance) (m : ℕ) : Prop where
  baseline : m ≤ log.store.getSnapshotSeq
  tailRead : ∀ n, inst.board.initPromise = some (.tailRead n) → m ≤ n
  fulfilled : inst.board.initPromise = some .fulfilled → m < inst.board.nextSeq

theorem above_fresh (h : m ≤ log.store.getSnapshotSeq) : Above log {} m where
  baseline := h
  tailRead _ hn := by cases hn
  fulfilled hf := by cases hf

/-- **A step that does not move the baseline back assigns no number at or below it.** -/
theorem Above.step (hm : inst.Above log m) (hr : inst.Restored log) (hg : inst.Grounded log)
    (h : Step cfg log inst a log' inst') (hadvances : inst.advances log a) :
    inst'.Above log' m := by
  have hbaseline := hm.baseline.trans (h.snapshot_le hg hadvances)
  by_cases hp : inst.board.initPromise = some .fulfilled
  · have hp' := h.fulfilled hp
    refine ⟨hbaseline, by simp [hp'], fun _ ↦ ?_⟩
    have hlt := hm.fulfilled hp
    rcases h.counter hp with ⟨-, hseq⟩ | ⟨k, hk, -, hseq⟩ <;> omega
  · cases h.restoreMove with
    | stay h' =>
      exact ⟨hbaseline, fun n hn ↦ hm.tailRead n (h' ▸ hn), fun hf ↦ absurd (h' ▸ hf) hp⟩
    | tailRead n hn h' =>
      refine ⟨hbaseline, fun n' hn' ↦ ?_, by simp [h']⟩
      rw [h'] at hn'
      cases hn'
      rw [hr.readingTail n hn]
      exact le_highestOf (Or.inl hm.baseline)
    | finish highest hn h' hseq =>
      refine ⟨hbaseline, by simp [h'], fun _ ↦ ?_⟩
      have hle := hm.tailRead highest hn
      omega
    | start _ h' | ensured _ h' | snapshotRead _ h' | fail _ h' =>
      exact ⟨hbaseline, by simp [h'], by simp [h']⟩

end Instance

/-- The process that serves a board, and what its predecessors have deleted. -/
structure Lives where
  world : World Unit
  /-- History: the rows deleted before the last crash. -/
  pruned : List PersistedStroke

/-- What happens to a process. -/
inductive LifeAction
  | service (a : Action)
  /-- The process dies, and another one starts. -/
  | crash

/-- Whether the process survives the action. -/
def LifeAction.survives : LifeAction → Bool
  | service _ => true
  | crash => false

namespace Lives

variable (s : Lives)

def crash : Lives where
  world := World.start Unit s.world.log.store
  pruned := s.pruned ++ s.world.log.pruned

def step (cfg : Config) : LifeAction → Option Lives
  | .service a => (s.world.step (fun _ ↦ cfg) ((), a)).map fun world ↦ { s with world }
  | .crash => some s.crash

def init : Prop := s.world.init ∧ s.pruned = []

/-- The transition system of the processes that serve a board one after the other. -/
def machine (cfg : Config) : Machine Lives LifeAction := ⟨init, fun s a ↦ s.step cfg a⟩

/-- The first process, over `store`. -/
def start (store : BoardStore) : Lives := ⟨World.start Unit store, []⟩

theorem init_start (store : BoardStore) : (start store).init := ⟨World.init_start store, rfl⟩

/-- The stroke has reached the database, whether or not it was compacted later. -/
def Durable (k : PersistedStroke) : Prop := k ∈ s.pruned ∨ s.world.custody.Stored k

instance (k : PersistedStroke) : Decidable (s.Durable k) := inferInstanceAs (Decidable (_ ∨ _))

variable {s} {s' t u : Lives} {cfg : Config} {a : LifeAction} {k x : PersistedStroke} {d : ℕ}

theorem step_service_eq_some {b : Action} : s.step cfg (.service b) = some s' ↔
    ∃ w, s.world.step (fun _ ↦ cfg) ((), b) = some w ∧ s' = { s with world := w } := by
  rw [step, Option.map_eq_some_iff]
  exact exists_congr fun w ↦ and_congr_right fun _ ↦ eq_comm

/-! ## What outlives a crash -/

theorem owned_step (hs : s.world.Owned) (h : s.step cfg a = some s') : s'.world.Owned := by
  cases a with
  | service b =>
    obtain ⟨w, hw, rfl⟩ := step_service_eq_some.mp h
    exact hs.step hw
  | crash =>
    cases h
    exact .of_init (World.init_start _)

/-- **No step and no crash takes a stroke from the database**, other than a compaction. -/
theorem Durable.step (hs : s.world.Owned) (hk : s.Durable k) (h : s.step cfg a = some s') :
    s'.Durable k := by
  cases a with
  | service b =>
    obtain ⟨w, hw, rfl⟩ := step_service_eq_some.mp h
    exact hk.imp_right (hs.moves hw).stored
  | crash =>
    cases h
    rcases hk with hk | hk | hk
    · exact Or.inl (List.mem_append_left _ hk)
    · exact Or.inr (Or.inl hk)
    · exact Or.inl (List.mem_append_right _ hk)

theorem Durable.steps (hs : s.world.Owned) (hk : s.Durable k)
    (h : (machine cfg).Steps Machine.anyStep s t) : t.Durable k :=
  (h.invariant (P := fun u ↦ u.world.Owned ∧ u.Durable k) ⟨hs, hk⟩ fun _ _ _ hu _ hstep ↦
    ⟨owned_step hu.1 hstep, hu.2.step hu.1 hstep⟩).2

/-- Between two crashes a process runs like the service it is. -/
theorem steps_world (h : (machine cfg).Steps (fun _ a ↦ a.survives) s t) :
    (World.machine fun _ ↦ cfg).Steps Machine.anyStep s.world t.world := by
  refine h.simulate fun u a v ha hs ↦ ?_
  cases a with
  | service b =>
    obtain ⟨w, hw, rfl⟩ := step_service_eq_some.mp hs
    exact .single trivial hw
  | crash => cases ha

theorem owned_of_reaches {ok : Lives → LifeAction → Prop} (h : (machine cfg).Reaches ok s) :
    s.world.Owned :=
  h.invariant (fun _ hi ↦ .of_init hi.1) fun _ _ _ hu _ hs ↦ owned_step hu hs

/-- **What a flush has saved is safe from every crash.** Once a flush has resolved, the strokes that
were accepted before it are in the database, unless they are compacted, whatever runs and crashes
follow. At the call, the batches in flight had been written. -/
theorem durable_of_flush_resolved (hs : (machine cfg).Reaches Machine.anyStep s)
    (hbatches : s.world.BatchesWritten) (hflush : s.step cfg (.service (.flush d)) = some s')
    (hlife : (machine cfg).Steps (fun _ a ↦ a.survives) s' t) (hresolved : t.world.Resolved d)
    (hafter : (machine cfg).Steps Machine.anyStep t u) (hk : k ∈ s.world.log.accepted) :
    u.Durable k := by
  have howned := owned_of_reaches hs
  obtain ⟨w, hw, rfl⟩ := step_service_eq_some.mp hflush
  have hrun := steps_world hlife
  have hstored := World.stored_of_flush_resolved howned hbatches hw hrun hresolved k hk
  have ht : t.world.Owned :=
    hrun.invariant (howned.step hw) fun _ _ _ hv _ hstep ↦ hv.step hstep
  exact Durable.steps ht (Or.inr hstored) hafter

/-- Two strokes are buffered. -/
def bufferRun : List LifeAction :=
  List.map .service (sampleRestore ++
    ([.resume "a" 5 0, .append 1 "ada" sampleSegment, .resume "b" 6 0] : List Action))

/-- The drain of a flush runs to its end. -/
def drainRun : List LifeAction :=
  [.service (.drain 0 .insert), .service (.drain 0 .insertResolves),
    .service (.drain 0 .touchResolves), .service (.drain 0 .resolve)]

/-- A third stroke is accepted, and lost with the process. The next process is about to accept a
fourth. -/
def lossRun : List LifeAction :=
  .service (.append 2 "ada" sampleSegment) :: .service (.resume "c" 7 1) :: .crash ::
    List.map .service sampleRestore

theorem durable_of_flush_resolved_lossRun : ∃ u,
    (machine (sampleConfig 9 9)).exec (start sampleStore)
      (bufferRun ++ .service (.flush 0) :: drainRun ++ lossRun) = some u ∧
    u.Durable ⟨sampleSegment, "b", 2, "ada", 6⟩ := by
  have hbuffer : ((machine (sampleConfig 9 9)).exec (start sampleStore) bufferRun).any (fun s ↦
      decide (⟨sampleSegment, "b", 2, "ada", 6⟩ ∈ s.world.log.accepted)) = true := by decide
  obtain ⟨s, hs, hsteps, hk⟩ := Machine.exists_of_exec _ _ hbuffer
  have hbatches : s.world.BatchesWritten := by
    cases hs
    intro e k hk
    cases hk
  have hflush : (((machine (sampleConfig 9 9)).step s (.service (.flush 0))).isSome) := by
    cases hs
    rfl
  obtain ⟨s', hflush⟩ := Option.isSome_iff_exists.mp hflush
  have hdrain : (((machine (sampleConfig 9 9)).guarded fun _ a ↦ a.survives).exec s'
      drainRun).any (fun t ↦ decide (t.world.Resolved 0)) = true := by
    cases hs
    cases hflush
    decide
  obtain ⟨t, ht, hlife, hresolved⟩ := Machine.exists_of_guarded_any _ _ hdrain
  have hloss : ((machine (sampleConfig 9 9)).exec t lossRun).isSome := by
    cases hs
    cases hflush
    cases ht
    rfl
  obtain ⟨u, hu⟩ := Option.isSome_iff_exists.mp hloss
  refine ⟨u, ?_, durable_of_flush_resolved ⟨_, init_start _, hsteps⟩ hbatches hflush hlife
    (of_decide_eq_true hresolved) (Machine.steps_of_exec hu) (of_decide_eq_true hk)⟩
  rw [Machine.exec_append, Machine.exec_append, hs, Option.bind_some, Machine.exec_cons, hflush,
    Option.bind_some, ht, Option.bind_some, hu]

/-! ## Numbers that are not assigned again -/

/-- The action does not move the baseline back. -/
def Advances (s : Lives) : LifeAction → Prop
  | .service a => (s.world.insts ()).advances s.world.log a
  | .crash => True

instance (s : Lives) (a : LifeAction) : Decidable (s.Advances a) :=
  match a with
  | .service _ => inferInstanceAs (Decidable (_ = true))
  | .crash => inferInstanceAs (Decidable True)

/-- Whatever has been deleted is at or below the baseline, and below what will be assigned. -/
structure Clear (s : Lives) : Prop where
  owned : s.world.Owned
  covered : s.world.Covered
  above : ∀ k ∈ s.pruned, (s.world.insts ()).Above s.world.log k.seq

theorem Clear.of_init (h : s.init) : s.Clear := by
  refine ⟨.of_init h.1, .of_init h.1, fun k hk ↦ ?_⟩
  rw [h.2] at hk
  cases hk

theorem Clear.step (hs : s.Clear) (ha : s.Advances a) (h : s.step cfg a = some s') : s'.Clear := by
  have howned := owned_step hs.owned h
  cases a with
  | service b =>
    obtain ⟨w, hw, rfl⟩ := step_service_eq_some.mp h
    have hfresh := World.freshAppend_of_restored hs.owned.restored ((), b)
    refine ⟨howned, (hs.covered.step ⟨hfresh, ha⟩ hw).2, fun k hk ↦ ?_⟩
    obtain ⟨log, inst, hstep, rfl⟩ := World.step_eq_some.mp hw
    exact (hs.above k hk).step hs.owned.restored (hs.covered.grounded ()) (.of_step hstep) ha
  | crash =>
    cases h
    refine ⟨howned, .of_init (World.init_start _), fun k hk ↦ Instance.above_fresh ?_⟩
    rcases List.mem_append.mp hk with hk | hk
    · exact (hs.above k hk).baseline
    · exact hs.covered.pruned k hk

theorem seq_of_accepted {w : World Unit} {b : Action} (hs : s.world.Owned)
    (hw : s.world.step (fun _ ↦ cfg) ((), b) = some w) (hk : k ∈ w.log.accepted)
    (hnew : k ∉ s.world.log.accepted) :
    (s.world.insts ()).board.initPromise = some .fulfilled ∧
      k.seq = (s.world.insts ()).board.nextSeq := by
  obtain ⟨log, inst, hstep, rfl⟩ := World.step_eq_some.mp hw
  have hstep := Instance.Step.of_step hstep
  by_cases hp : (s.world.insts ()).board.initPromise = some .fulfilled
  · refine ⟨hp, ?_⟩
    rcases hstep.counter hp with ⟨hsame, -⟩ | ⟨x, hx, haccepted, -⟩
    · exact absurd (hsame ▸ hk) hnew
    · have hmem : k ∈ s.world.log.accepted ++ [x] := haccepted ▸ hk
      rw [List.mem_append, List.mem_singleton] at hmem
      rw [hmem.resolve_left hnew, hx]
  · -- nothing is accepted before the restore has succeeded
    have hready := (hs.restored.dormant hp).ready
    have hsame : log.accepted = s.world.log.accepted :=
      hstep.effect.accepted (Instance.accepts_of_ready_nil hready b)
    exact absurd (hsame ▸ hk) hnew

/-- **A number that has reached the database is not assigned again**, however often the process
crashes, and whether or not its row is compacted, as long as no compaction moves the baseline
back. -/
theorem lt_of_accepted (hs : (machine cfg).Reaches Advances s) {b : Action}
    (h : s.step cfg (.service b) = some s') (hk : k ∈ s'.world.log.accepted)
    (hnew : k ∉ s.world.log.accepted) (hx : s.Durable x) : x.seq < k.seq := by
  have hclear : s.Clear := hs.invariant (fun _ hi ↦ .of_init hi) fun _ _ _ hu ha hstep ↦
    hu.step ha hstep
  obtain ⟨w, hw, rfl⟩ := step_service_eq_some.mp h
  obtain ⟨hp, hseq⟩ := seq_of_accepted hclear.owned hw hk hnew
  rw [hseq]
  rcases hx with hx | hx
  · exact (hclear.above x hx).fulfilled hp
  · have haccepted := hclear.owned.accounted.sound.accepted_of_stored x hx
    exact hclear.owned.restored.fulfilled hp x haccepted

/-- The number of the stroke that was lost is assigned again, those of the saved ones are not. -/
theorem lt_of_accepted_lossRun : ∃ s s' x k,
    (machine (sampleConfig 9 9)).exec (start sampleStore)
      (bufferRun ++ .service (.flush 0) :: drainRun ++ lossRun) = some s ∧
    s.step (sampleConfig 9 9) (.service (.resume "d" 8 0)) = some s' ∧
    x = ⟨sampleSegment, "b", 2, "ada", 6⟩ ∧ s.Durable x ∧
    k = ⟨sampleSegment, "d", 3, "ada", 8⟩ ∧ k ∈ s'.world.log.accepted ∧ x.seq < k.seq := by
  have hrun : (((machine (sampleConfig 9 9)).guarded Advances).exec (start sampleStore)
      (bufferRun ++ .service (.flush 0) :: drainRun ++ lossRun)).any (fun s ↦
        decide (s.Durable ⟨sampleSegment, "b", 2, "ada", 6⟩ ∧
          ⟨sampleSegment, "d", 3, "ada", 8⟩ ∉ s.world.log.accepted) &&
        (s.step (sampleConfig 9 9) (.service (.resume "d" 8 0))).any fun s' ↦
          decide (⟨sampleSegment, "d", 3, "ada", 8⟩ ∈ s'.world.log.accepted)) = true := by
    decide
  obtain ⟨s, hs, hsteps, hp⟩ := Machine.exists_of_guarded_any _ _ hrun
  obtain ⟨hbefore, hafter⟩ := Bool.and_eq_true_iff.mp hp
  obtain ⟨hdurable, hnew⟩ := of_decide_eq_true hbefore
  obtain ⟨s', hstep, hk⟩ := (Option.any_eq_true _ _).mp hafter
  have hk := of_decide_eq_true hk
  exact ⟨s, s', _, _, hs, hstep, rfl, hdurable, rfl, hk,
    lt_of_accepted ⟨_, init_start _, hsteps⟩ hstep hk hnew hdurable⟩

end Lives

end Synapse
