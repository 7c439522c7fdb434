import Synapse.Stroke.Account

/-!
# Several instances, one board

Each instance seeds its counter once, from the rows, and counts privately from then on. Another
instance that accepts a stroke afterwards, or had one in its buffer when the rows were read, is
not noticed. The counter is then behind, the next stroke is given a number that is taken, and the
insertion of whichever of the two strokes comes second does nothing.

## When it goes well

`Cluster` adds to the world, for each instance, whether that has happened: whether it has been
`overtaken`. The flag is history; no step reads it. As long as no stroke is accepted by an instance
that has been overtaken, the counters never clash and the account of `Synapse.Stroke.Account`
holds of all the instances together.
-/

namespace Synapse

open Keyed Transition

/-- An accepted stroke is above the baseline and above all the rows, where `initBoard` cannot find
it. -/
def BoardLog.hides (log : BoardLog) : Bool :=
  log.accepted.any fun k ↦ decide (log.store.getSnapshotSeq < k.seq) &&
    log.store.strokes.rows.all fun r ↦ decide (r.seq < k.seq)

theorem BoardLog.le_of_not_hides {log : BoardLog} (h : log.hides = false) {k : PersistedStroke}
    (hk : k ∈ log.accepted) :
    k.seq ≤ log.store.getSnapshotSeq ∨ ∃ r ∈ log.store.strokes, k.seq ≤ r.seq := by
  have hnot := List.any_eq_false.mp h k hk
  rw [Bool.and_eq_true, decide_eq_true_iff, List.all_eq_true, not_and_or] at hnot
  refine hnot.imp not_lt.mp fun hrows ↦ ?_
  push Not at hrows
  obtain ⟨r, hr, hle⟩ := hrows
  exact ⟨r, Table.mem_rows.mp hr, not_lt.mp fun hlt ↦ hle (decide_eq_true hlt)⟩

/-- The world, and which instances have been overtaken. -/
structure Cluster (ι : Type*) where
  world : World ι
  /-- History: whether another instance has accepted a stroke that the restore of this one did not
  find. -/
  overtaken : ι → Bool

namespace Cluster

variable {ι : Type*}

def init (c : Cluster ι) : Prop := c.world.init ∧ ∀ i, c.overtaken i = false

/-- The cluster over `store` at start-up. -/
def start (ι : Type*) (store : BoardStore) : Cluster ι := ⟨World.start ι store, fun _ ↦ false⟩

theorem init_start (store : BoardStore) : (start ι store).init :=
  ⟨World.init_start store, fun _ ↦ rfl⟩

/-- No compaction runs, and an instance that has been overtaken accepts nothing. -/
def Unovertaken (c : Cluster ι) (a : ι × Action) : Prop :=
  a.2.compacts = false ∧ ((c.world.insts a.1).accepts a.2 → c.overtaken a.1 = false)

instance (c : Cluster ι) (a : ι × Action) : Decidable (c.Unovertaken a) :=
  inferInstanceAs (Decidable (_ ∧ _))

/-- What keeps the counters apart. -/
structure Seeded (c : Cluster ι) : Prop where
  accounted : c.world.Accounted
  pruned : c.world.log.pruned = []
  ready : ∀ i, (c.world.insts i).board.initPromise ≠ some .fulfilled →
    (c.world.insts i).ready = []
  readingTail : ∀ i n, (c.world.insts i).board.initPromise = some (.readingTail n) →
    n = c.world.log.store.getSnapshotSeq
  current : ∀ i, c.overtaken i = false → (c.world.insts i).Current c.world.log

theorem Seeded.of_init {c : Cluster ι} (h : c.init) : c.Seeded := by
  have hfresh : ∀ i, c.world.insts i = {} := h.1.2.2
  refine ⟨.of_init h.1, h.1.2.1, fun i _ ↦ by rw [hfresh], fun i n hn ↦ ?_, fun i _ ↦ ?_⟩
  · rw [hfresh] at hn
    cases hn
  · rw [hfresh]
    exact Instance.current_fresh _

theorem Seeded.freshAppend {c : Cluster ι} (hc : c.Seeded) {a : ι × Action}
    (hok : c.Unovertaken a) : c.world.FreshAppend a := by
  intro haccepts k hk
  have hp : (c.world.insts a.1).board.initPromise = some .fulfilled := by
    by_contra hp
    rw [Instance.accepts_of_ready_nil (hc.ready a.1 hp)] at haccepts
    cases haccepts
  exact ne_of_lt ((hc.current a.1 (hok.2 haccepts)).fulfilled hp k hk)

/-! ## Steps -/

variable [DecidableEq ι]

/-- Who has been overtaken after an action of instance `i`. -/
def overtake (c : Cluster ι) (i : ι) (a : Action) : ι → Bool :=
  if a = .restore .readTail then Function.update c.overtaken i c.world.log.hides
  else if (c.world.insts i).accepts a then fun j ↦ decide (j ≠ i) || c.overtaken j
  else c.overtaken

def step (cfg : ι → Config) (c : Cluster ι) (a : ι × Action) : Option (Cluster ι) :=
  (c.world.step cfg a).map fun world ↦ ⟨world, c.overtake a.1 a.2⟩

/-- The transition system of a board served by several instances. -/
def machine (cfg : ι → Config) : Machine (Cluster ι) (ι × Action) := ⟨init, step cfg⟩

variable {cfg : ι → Config} {c c' : Cluster ι}

/-- An instance is ahead of everything accepted before its own step, unless it has been overtaken
by the end of it. -/
theorem Seeded.current_self (hc : c.Seeded) {i : ι} {a : Action} {log : BoardLog}
    {inst : Instance} (h : Instance.Step (cfg i) c.world.log (c.world.insts i) a log inst)
    (hi : c.overtake i a i = false) : inst.Current log := by
  by_cases ha : a = .restore .readTail
  · have hhides : c.world.log.hides = false := by
      rw [overtake, if_pos ha, Function.update_self] at hi
      exact hi
    -- the restore is only now reading, so nothing is known of the counter before the step
    have hbefore : (c.world.insts i).Current c.world.log := by
      subst ha
      cases h with
      | restoreTail n hn => exact ⟨by simp [hn], by simp [hn]⟩
    refine hbefore.step h (hc.ready i) fun n _ hn k hk ↦ ?_
    rw [hc.readingTail i n hn]
    exact Instance.le_highestOf (BoardLog.le_of_not_hides hhides hk)
  · have hbefore : c.overtaken i = false := by
      rw [overtake, if_neg ha] at hi
      split_ifs at hi
      · simpa using hi
      · exact hi
    exact (hc.current i hbefore).step h (hc.ready i) fun _ hread ↦ absurd hread ha

/-- A step of another instance leaves the counter ahead, unless it overtakes it. -/
theorem Seeded.current_of_ne (hc : c.Seeded) {i j : ι} (hij : j ≠ i) {a : Action} {log : BoardLog}
    {inst : Instance} (h : Instance.Step (cfg i) c.world.log (c.world.insts i) a log inst)
    (hj : c.overtake i a j = false) : (c.world.insts j).Current log := by
  have haccepts : (c.world.insts i).accepts a = false := by
    by_contra hne
    have hresumes := Bool.not_eq_false _ ▸ hne
    have ha : a ≠ .restore .readTail := by
      rintro rfl
      cases hresumes
    rw [overtake, if_neg ha, if_pos hresumes] at hj
    simp [hij] at hj
  have hbefore : c.overtaken j = false := by
    rw [overtake, haccepts, if_neg Bool.false_ne_true] at hj
    split_ifs at hj
    · rwa [Function.update_of_ne hij] at hj
    · exact hj
  exact (hc.current j hbefore).of_accepted_eq (h.effect.accepted haccepts)

/-- **A step by an instance that has not been overtaken keeps the counters apart.** -/
theorem Seeded.step (hc : c.Seeded) {a : ι × Action} (hok : c.Unovertaken a)
    (h : c.step cfg a = some c') : c'.Seeded := by
  obtain ⟨w, hw, rfl⟩ := Option.map_eq_some_iff.mp h
  have haccounted := hc.accounted.step (hc.freshAppend hok) hw
  obtain ⟨i, a⟩ := a
  obtain ⟨log, inst, hs, rfl⟩ := World.step_eq_some.mp hw
  have hstep := Instance.Step.of_step hs
  obtain ⟨hsnapshot, hpruned⟩ := hstep.effect.fixed hok.1
  refine ⟨haccounted, hpruned.trans hc.pruned, fun j ↦ ?_, fun j n ↦ ?_, fun j ↦ ?_⟩ <;>
    rcases eq_or_ne j i with rfl | hij
  · rw [World.put_insts_self]
    exact hstep.ready (hc.ready j)
  · rw [World.put_insts_of_ne _ hij]
    exact hc.ready j
  · rw [World.put_insts_self, World.put_log, hsnapshot]
    intro hn
    exact (hstep.restoreMove.readingTail hn).elim (hc.readingTail j n) id
  · rw [World.put_insts_of_ne _ hij, World.put_log, hsnapshot]
    exact hc.readingTail j n
  · rw [World.put_insts_self]
    exact hc.current_self hstep
  · rw [World.put_insts_of_ne _ hij]
    exact hc.current_of_ne hij hstep

/-- Every instance's buffer has been flushed, and the flushes have been written. -/
def AllFlushed (w : World ι) : Prop :=
  ∀ i, (w.insts i).buffer = [] ∧ ∀ d, (w.insts i).batch d = []

/-- **Several instances, one board.** In every run in which no stroke is accepted by an instance
that has been overtaken, no two accepted strokes carry the same number, and once every instance's
buffer has been flushed every accepted stroke is a row. -/
theorem stored_of_unovertaken (h : (machine cfg).Reaches Unovertaken c) :
    (c.world.log.accepted.map PersistedStroke.seq).Nodup ∧
      (AllFlushed c.world → ∀ k ∈ c.world.log.accepted, k ∈ c.world.log.store.strokes) := by
  have hc : c.Seeded := h.invariant (fun _ hi ↦ .of_init hi) fun _ _ _ hu ha hs ↦ hu.step ha hs
  refine ⟨hc.accounted.sound.keyed, fun hflushed k hk ↦ ?_⟩
  rcases hc.accounted.sound.accounted k hk with (hrow | hpruned) | ⟨⟨i, p⟩, hheld⟩
  · exact hrow
  · have hmem : k ∈ c.world.log.pruned := hpruned
    rw [hc.pruned] at hmem
    cases hmem
  · have hmem : k ∈ (c.world.insts i).held p := hheld
    cases p with
    | none =>
      rw [Instance.held_none, (hflushed i).1] at hmem
      cases hmem
    | some d =>
      rw [Instance.held_some, (hflushed i).2 d] at hmem
      cases hmem

/-! ## Two instances -/

/-- One of two instances takes the actions in turn. -/
def byInstance (i : Bool) (as : List Action) : List (Bool × Action) := as.map (i, ·)

/-- The waiting stroke is accepted under the id `id` and flushed. -/
def acceptAndFlush (id : String) : List Action :=
  [.resume id 5 0, .flush 0, .drain 0 .insert, .drain 0 .insertResolves, .drain 0 .touchResolves,
    .drain 0 .resolve]

/-- The second instance opens the board after the first has flushed its stroke. -/
def handoverRun : List (Bool × Action) :=
  byInstance false (sampleRestore ++ acceptAndFlush "a")
    ++ byInstance true (sampleRestore ++ acceptAndFlush "b")

theorem stored_after_handoverRun : ∃ c,
    (machine fun _ ↦ sampleConfig 9 9).exec (start Bool sampleStore) handoverRun = some c ∧
      (c.world.log.accepted.map PersistedStroke.seq).Nodup ∧
      c.world.log.accepted.map PersistedStroke.id = ["a", "b"] ∧
      ∀ k ∈ c.world.log.accepted, k ∈ c.world.log.store.strokes := by
  obtain ⟨c, hc, hsteps⟩ := Machine.exists_of_guarded (start Bool sampleStore)
    (M := machine fun _ ↦ sampleConfig 9 9) handoverRun
    (show Option.isSome (((machine fun _ ↦ sampleConfig 9 9).guarded Unovertaken).exec _ _) = true
      by decide)
  have hstored := stored_of_unovertaken ⟨_, init_start _, hsteps⟩
  cases hc
  refine ⟨_, rfl, hstored.1, rfl, hstored.2 fun i ↦ ⟨?_, fun d ↦ ?_⟩⟩
  · cases i <;> rfl
  · cases i <;> cases d <;> rfl

/-- Both instances open the board before either has flushed a stroke. -/
def clashRun : List (Bool × Action) :=
  byInstance false sampleRestore ++ byInstance true sampleRestore
    ++ byInstance false (acceptAndFlush "a") ++ byInstance true (acceptAndFlush "b")

/-- Both strokes are numbered `1`, every flush has succeeded, and the second stroke is not among
the rows. -/
theorem clash_drops_stroke : ∃ c,
    (machine fun _ ↦ sampleConfig 9 9).exec (start Bool sampleStore) clashRun = some c ∧
      ¬ (c.world.log.accepted.map PersistedStroke.seq).Nodup ∧ AllFlushed c.world ∧
      ∃ k ∈ c.world.log.accepted, ∀ r ∈ c.world.log.store.strokes.rows, r.id ≠ k.id := by
  refine ⟨_, rfl, by decide, fun i ↦ ⟨?_, fun d ↦ ?_⟩, ⟨sampleSegment, "b", 1, "ada", 5⟩, ?_⟩
  · cases i <;> rfl
  · cases i <;> cases d <;> rfl
  · decide

end Cluster

end Synapse
