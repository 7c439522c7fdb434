import Synapse.Client.FreshJoin
import Synapse.Stroke.History

/-!
# Unpersisted strokes and the cut

A compaction computes its cut from the stored rows alone. The service takes it that strokes not yet
persisted carry the highest numbers, so that no cut reaches them. Batches of one board are written
independently of each other, though: when an early one fails and later ones succeed, the rows run
ahead of what is still held, and a cut among them overtakes it.

What decides is how many rows have run ahead (`BoardStore.countFrom`): a cut leaves `keepTail` rows
standing, so it stays below a held stroke exactly when no more rows than that are numbered as high
as the stroke. The invariant is `Unovertaken`. Every number that is the baseline, or that a
compaction may make the baseline, is below whatever the instance holds or will hold
(`Instance.Beneath`).
-/

namespace Synapse

open Keyed Transition

/-- How many rows are numbered `m` or more. -/
def BoardStore.countFrom (store : BoardStore) (m : ℕ) : ℕ :=
  store.strokes.rows.countP fun r ↦ decide (m ≤ r.seq)

theorem BoardStore.countP_loadSince (store : BoardStore) {n m : ℕ} (h : n < m) :
    (store.loadSince n).countP (fun r ↦ decide (m ≤ r.seq)) = store.countFrom m := by
  rw [loadSince, Table.above, (sortByKey_perm _).countP_eq, List.countP_filter, countFrom]
  refine List.countP_congr fun r _ ↦ ?_
  simp only [Bool.and_eq_true, decide_eq_true_iff]
  omega

/-- **The cut reaches a number above the baseline when more than `keepTail` rows do.** -/
theorem le_cutSeq_iff (cfg : Config) (store : BoardStore) {n m : ℕ} (h : n < m) :
    m ≤ cutSeq cfg n (store.loadSince n) ↔ keepTail cfg < store.countFrom m := by
  rw [← store.countP_loadSince h]
  unfold cutSeq
  split_ifs with htail
  · have hindex : (store.loadSince n).length - keepTail cfg - 1 < (store.loadSince n).length := by
      omega
    rw [List.getElem?_eq_getElem hindex, Option.map_some, Option.getD_some,
      (store.ascending_loadSince n).le_key_getElem_iff hindex]
    omega
  · have hcount := List.countP_le_length (p := fun r ↦ decide (m ≤ r.seq)) (l := store.loadSince n)
    omega

namespace Instance

variable {cfg : Config} {log log' : BoardLog} {inst inst' : Instance} {a : Action} {n : ℕ}

theorem Effect.mem_held (h : Effect cfg log inst a log' inst') {p : Option ℕ}
    {k : PersistedStroke} (hk : k ∈ inst'.held p) :
    (∃ q, k ∈ inst.held q) ∨ (k.seq = inst.board.nextSeq ∧ inst.resumesAppend) := by
  cases h with
  | quiet hheld | ensure hheld | setSnapshot _ _ _ hheld | insert _ _ hheld
  | prune _ _ _ _ _ hheld =>
    rw [hheld] at hk
    exact Or.inl ⟨p, hk⟩
  | accept x hseq hready hheld =>
    rw [hheld, Function.update_apply] at hk
    split_ifs at hk
    · rcases List.mem_append.mp hk with hk | hk
      · exact Or.inl ⟨none, hk⟩
      · rw [List.mem_singleton.mp hk]
        exact Or.inr ⟨hseq, hready⟩
    · exact Or.inl ⟨p, hk⟩
  | capture d _ _ hheld =>
    rw [hheld, Function.update_apply, Function.update_apply] at hk
    split_ifs at hk
    · cases hk
    · exact Or.inl ⟨none, hk⟩
    · exact Or.inl ⟨p, hk⟩
  | acceptCapture x hseq hready _ _ hheld =>
    rw [hheld, Function.update_apply, Function.update_apply] at hk
    split_ifs at hk
    · cases hk
    · rcases List.mem_append.mp hk with hk | hk
      · exact Or.inl ⟨none, hk⟩
      · rw [List.mem_singleton.mp hk]
        exact Or.inr ⟨hseq, hready⟩
    · exact Or.inl ⟨p, hk⟩
  | release d _ hheld =>
    rw [hheld, Function.update_apply] at hk
    split_ifs at hk
    · cases hk
    · exact Or.inl ⟨p, hk⟩
  | rebuffer d hheld =>
    rw [hheld, Function.update_apply, Function.update_apply] at hk
    split_ifs at hk
    · cases hk
    · rcases List.mem_append.mp hk with hk | hk
      · exact Or.inl ⟨some d, hk⟩
      · exact Or.inl ⟨none, hk⟩
    · exact Or.inl ⟨p, hk⟩

/-! ## Beneath the held strokes -/

/-- The number is below whatever the instance holds or will hold. -/
structure Beneath (inst : Instance) (n : ℕ) : Prop where
  held : ∀ p, ∀ k ∈ inst.held p, n < k.seq
  tailRead : ∀ m, inst.board.initPromise = some (.tailRead m) → n ≤ m
  fulfilled : inst.board.initPromise = some .fulfilled → n < inst.board.nextSeq

theorem Beneath.mono (hb : inst.Beneath n) {m : ℕ} (h : m ≤ n) : inst.Beneath m where
  held p k hk := h.trans_lt (hb.held p k hk)
  tailRead x hx := h.trans (hb.tailRead x hx)
  fulfilled hf := h.trans_lt (hb.fulfilled hf)

/-- **A step keeps a number beneath**, provided that a restore under way finds no lower one. -/
theorem Beneath.step (hb : inst.Beneath n) (hr : inst.Restored log)
    (hn : inst.board.initPromise ≠ some .fulfilled → n ≤ log.store.getSnapshotSeq)
    (h : Step cfg log inst a log' inst') : inst'.Beneath n := by
  by_cases hp : inst.board.initPromise = some .fulfilled
  · have hnext := hb.fulfilled hp
    have hp' := h.fulfilled hp
    refine ⟨fun p k hk ↦ ?_, by simp [hp'], fun _ ↦ ?_⟩
    · rcases h.effect.mem_held hk with ⟨q, hq⟩ | ⟨hseq, -⟩
      · exact hb.held q k hq
      · rwa [hseq]
    · rcases h.counter hp with ⟨-, hseq⟩ | ⟨k, hk, -, hseq⟩ <;> omega
  · have hd := hr.dormant hp
    obtain ⟨-, -, -, hheld⟩ := hd.log_step h.effect
    have hnil : ∀ p, ∀ k ∈ inst'.held p, n < k.seq := by simp [hheld]
    cases h.restoreMove with
    | stay h' => exact ⟨hnil, fun m hm ↦ hb.tailRead m (h' ▸ hm), fun hf ↦ absurd (h' ▸ hf) hp⟩
    | tailRead m hm h' =>
      refine ⟨hnil, fun x hx ↦ ?_, by simp [h']⟩
      rw [h'] at hx
      cases hx
      rw [hr.readingTail m hm]
      exact le_highestOf (Or.inl (hn hp))
    | finish highest hm h' hseq =>
      have := hb.tailRead highest hm
      exact ⟨hnil, by simp [h'], fun _ ↦ by omega⟩
    | start _ h' | ensured _ h' | snapshotRead _ h' | fail _ h' =>
      exact ⟨hnil, by simp [h'], by simp [h']⟩

/-! ## Beneath the baseline to come -/

theorem compactions_of_setCompaction (inst : Instance) {c e : ℕ} {phase target : CompactionPhase}
    (hne : phase ≠ target) (h : (inst.setCompaction e phase).compactions c = some target) :
    inst.compactions c = some target := by
  rw [compactions_setCompaction] at h
  split_ifs at h
  · exact absurd (Option.some_inj.mp h) hne
  · exact h

theorem Step.settingSnapshot (h : Step cfg log inst a log' inst') {c cut : ℕ}
    (hc : inst'.compactions c = some (.settingSnapshot cut)) :
    inst.compactions c = some (.settingSnapshot cut) ∨ ∃ m, a = .compact c .readTail ∧
      inst.compactions c = some (.readingTail m) ∧ m < cut ∧
      cut = cutSeq cfg m (log.store.loadSince m) := by
  cases h with
  | append =>
    rw [compactions_ensureInitialized] at hc
    exact Or.inl hc
  | maybeCompact =>
    rw [compactions_ensureInitialized] at hc
    exact Or.inl (compactions_of_setCompaction inst (by simp) hc)
  | resumeAppend =>
    rw [compactions_push] at hc
    exact Or.inl hc
  | resumeCompact =>
    exact Or.inl (compactions_of_setCompaction (inst.setReady _) (by split_ifs <;> simp) hc)
  | flush | timerFires =>
    rw [compactions_flush] at hc
    exact Or.inl hc
  | restoreFail =>
    simp only [failRestore] at hc
    split_ifs at hc
    · cases hc
    · exact Or.inl hc
  | compactTail e m cut' hphase hcut =>
    rw [compactions_setCompaction] at hc
    split_ifs at hc with he hlt
    · cases hc
      exact Or.inr ⟨m, he ▸ rfl, he ▸ hphase, hlt, hcut⟩
    · cases hc
    · exact Or.inl hc
  | count | proceedWithin | compactSnapshot | setSnapshot | countFails =>
    exact Or.inl (compactions_of_setCompaction inst (by simp) hc)
  | deleteRows => exact Or.inl (compactions_of_setCompaction inst (by split_ifs <;> simp) hc)
  | proceedOver | compactFinish | compactFails =>
    exact Or.inl (compactions_of_setCompaction (inst.setBoard _) (by simp) hc)
  | _ => exact Or.inl hc

/-- Every baseline there is or may be is beneath the instance. -/
structure Unovertaken (log : BoardLog) (inst : Instance) : Prop where
  snapshot : inst.Beneath log.store.getSnapshotSeq
  read : ∀ c n, inst.compactions c = some (.readingTail n) → inst.Beneath n
  cut : ∀ c n, inst.compactions c = some (.settingSnapshot n) → inst.Beneath n

theorem beneath_fresh (n : ℕ) : Beneath {} n where
  held p k hk := by cases p <;> cases hk
  tailRead _ hp := by cases hp
  fulfilled hp := by cases hp

theorem unovertaken_fresh (log : BoardLog) : Unovertaken log {} where
  snapshot := beneath_fresh _
  read _ _ hc := by cases hc
  cut _ _ hc := by cases hc

/-- No more than `keepTail` rows are numbered as high as a stroke that is not persisted yet. -/
def TailClear (cfg : Config) (log : BoardLog) (inst : Instance) : Prop :=
  ∀ p, ∀ k ∈ inst.held p, log.store.countFrom k.seq ≤ keepTail cfg

theorem tailClear_of_idle (hidle : ∀ d, inst.drains d = none)
    (hbuffer : ∀ k ∈ inst.buffer, log.store.countFrom k.seq ≤ keepTail cfg) :
    inst.TailClear cfg log := by
  intro p k hk
  cases p with
  | none => exact hbuffer k hk
  | some d =>
    rw [held_some, batch_of_idle (hidle d)] at hk
    cases hk

/-- The cut of a clear tail is beneath the instance. -/
theorem beneath_cutSeq (hn : inst.Beneath n) (hp : inst.board.initPromise = some .fulfilled)
    (hrows : ∀ r ∈ log.store.strokes, r ∈ log.accepted) (hr : inst.Restored log)
    (hclear : inst.TailClear cfg log) : inst.Beneath (cutSeq cfg n (log.store.loadSince n)) := by
  refine ⟨fun p k hk ↦ ?_, by simp [hp], fun _ ↦ ?_⟩
  · rw [← not_le, le_cutSeq_iff cfg log.store (hn.held p k hk), not_lt]
    exact hclear p k hk
  · rcases cutSeq_cases cfg n (log.store.loadSince n) with ⟨-, hcut⟩ | ⟨-, r, hrow, hcut⟩
    · rw [hcut]
      exact hn.fulfilled hp
    · rw [hcut]
      exact hr.fulfilled hp r (hrows r (BoardStore.mem_loadSince.mp hrow).1)

theorem getSnapshotSeq_setSnapshot_le (store : BoardStore) (seq : ℕ) :
    (store.setSnapshot seq).getSnapshotSeq ≤ seq := by
  cases hrow : store.boardRow <;> simp [BoardStore.setSnapshot, BoardStore.getSnapshotSeq, hrow]

theorem Unovertaken.step (hu : inst.Unovertaken log) (hr : inst.Restored log)
    (hrows : ∀ r ∈ log.store.strokes, r ∈ log.accepted) (h : Step cfg log inst a log' inst')
    (hclear : ∀ c, a = .compact c .readTail → inst.TailClear cfg log) :
    inst'.Unovertaken log' := by
  have hfulfilled : ∀ {c phase}, inst.compactions c = some phase → phase.underway = true →
      inst.board.initPromise = some .fulfilled := by
    intro c phase hc hunder
    by_contra hp
    rw [(hr.dormant hp).idle c phase hc] at hunder
    cases hunder
  have hsnapshot : inst'.Beneath log.store.getSnapshotSeq :=
    hu.snapshot.step hr (fun _ ↦ le_rfl) h
  refine ⟨?_, fun c n hc ↦ ?_, fun c n hc ↦ ?_⟩
  · have hcases := h.effect
    cases hcases with
    | setSnapshot c cut hphase =>
      have hp := hfulfilled hphase rfl
      exact ((hu.cut c cut hphase).step hr (absurd hp) h).mono (getSnapshotSeq_setSnapshot_le _ _)
    | _ => exact hsnapshot
  · have hmove := h.compactMove c
    rw [hc] at hmove
    generalize hold : inst.compactions c = old at hmove
    cases hmove with
    | stay => exact (hu.read c n hold).step hr (absurd (hfulfilled hold rfl)) h
    | rest _ _ hrest => cases hrest
    | readSnapshotSeq => exact hsnapshot
    | readTail _ _ _ _ hphase => rcases hphase with ⟨-, h'⟩ | ⟨-, h'⟩ <;> cases h'
    | deleteRows _ _ hphase => rcases hphase with h' | h' <;> cases h'
  · rcases h.settingSnapshot hc with hold | ⟨m, ha, hold, -, rfl⟩
    · exact (hu.cut c n hold).step hr (absurd (hfulfilled hold rfl)) h
    · have hp := hfulfilled hold rfl
      exact (beneath_cutSeq (hu.read c m hold) hp hrows hr (hclear c ha)).step hr (absurd hp) h

end Instance

namespace World

variable {cfg : Config} {w w' : World Unit}

/-- A compaction reads the tail only while it is clear. -/
def ReadsClear (cfg : Config) (w : World Unit) (a : Unit × Action) : Prop :=
  ∀ c, a.2 = .compact c .readTail → (w.insts ()).TailClear cfg w.log

/-- Whether the action reads the tail of a compaction. -/
def readsTail : Action → Bool
  | .compact _ .readTail => true
  | _ => false

theorem ReadsClear.of_quiet {a : Unit × Action} (h : readsTail a.2 = false) :
    w.ReadsClear cfg a := by
  intro c hc
  rw [hc] at h
  cases h

theorem Owned.unovertaken_step (hw : w.Owned) (hu : (w.insts ()).Unovertaken w.log)
    {a : Unit × Action} (ha : w.ReadsClear cfg a) (h : w.step (fun _ ↦ cfg) a = some w') :
    (w'.insts ()).Unovertaken w'.log := by
  obtain ⟨i, a⟩ := a
  obtain ⟨log, inst, hstep, rfl⟩ := step_eq_some.mp h
  have hrows : ∀ r ∈ w.log.store.strokes, r ∈ w.log.accepted := fun r hr ↦
    hw.accounted.sound.accepted_of_stored r (Or.inl hr)
  exact hu.step hw.restored hrows (.of_step hstep) ha

theorem unovertaken_of_reaches (h : (machine fun _ ↦ cfg).Reaches (ReadsClear cfg) w) :
    w.Owned ∧ (w.insts ()).Unovertaken w.log := by
  refine h.invariant (P := fun w ↦ w.Owned ∧ (w.insts ()).Unovertaken w.log)
    (fun w hi ↦ ⟨.of_init hi, ?_⟩) fun u a v ⟨hw, hu⟩ ha hs ↦
      ⟨hw.step hs, hw.unovertaken_step hu ha hs⟩
  rw [hi.2.2]
  exact Instance.unovertaken_fresh _

theorem Owned.mem_loadForJoin (hw : w.Owned) {k : PersistedStroke}
    (hwhere : k ∈ w.log.store.strokes ∨ k ∈ (w.insts ()).buffer) {sinceSeq : Option ℕ}
    (hseq : fromSeq sinceSeq w.log.store.getSnapshotSeq < k.seq) (now : ℕ) :
    k ∈ (w.loadForJoin sinceSeq now).strokes := by
  refine mem_mergeBufferedStrokes.mpr ?_
  by_cases hrow : k ∈ w.log.store.strokes
  · exact Or.inl (BoardStore.mem_loadSince.mpr ⟨hrow, hseq⟩)
  · refine Or.inr ⟨hwhere.resolve_left hrow, hseq, fun hseen ↦ hrow ?_⟩
    -- a row with the number of an accepted stroke is that stroke
    obtain ⟨r, hr, heq⟩ := List.mem_map.mp hseen
    have hs := hw.accounted.sound
    have haccepted := hs.accepted_of_held ((), none) k (hwhere.resolve_left hrow)
    have hr := (BoardStore.mem_loadSince.mp hr).1
    exact hs.eq_of_key_eq (hs.accepted_of_stored r (Or.inl hr)) haccepted heq ▸ hr

/-- **No compaction overtakes a stroke that is not persisted yet**, in every run in which a
compaction reads the tail only while it is clear: the stroke is above the baseline, and in every
reply to a client that does not have it, unless a batch in flight is the only place it is in. -/
theorem held_not_overtaken (h : (machine fun _ ↦ cfg).Reaches (ReadsClear cfg) w) {p : Option ℕ}
    {k : PersistedStroke} (hk : k ∈ (w.insts ()).held p) :
    w.log.store.getSnapshotSeq < k.seq ∧
      ∀ (sinceSeq : Option ℕ) (now : ℕ), (∀ n ∈ sinceSeq, n < k.seq) →
        k ∈ w.log.store.strokes ∨ k ∈ (w.insts ()).buffer →
        k ∈ (w.loadForJoin sinceSeq now).strokes := by
  obtain ⟨howned, hu⟩ := unovertaken_of_reaches h
  have habove := hu.snapshot.held p k hk
  refine ⟨habove, fun sinceSeq now hsince hwhere ↦ howned.mem_loadForJoin hwhere ?_ now⟩
  cases sinceSeq with
  | none => exact habove
  | some n => exact max_lt (hsince n rfl) habove

/-- A stroke waits in the buffer while a compaction cuts the rows below it. -/
def clearRun : List Action :=
  sampleRestore ++ [.resume "a" 5 0, .maybeCompact 0, .resume "" 0 0, .compact 0 .count,
    .compact 0 .proceed, .compact 0 .readSnapshotSeq]

/-- The baseline stops short of the stroke. -/
theorem held_not_overtaken_clearRun : ∃ w k,
    (machine fun _ ↦ sampleConfig 9 2).exec (start Unit (sampleStoreOf 3))
      (overLone (clearRun ++ [.compact 0 .readTail, .compact 0 .setSnapshot])) = some w ∧
    k ∈ (w.insts ()).buffer ∧ w.log.store.getSnapshotSeq = 2 ∧
    (w.log.store.getSnapshotSeq < k.seq ∧
      ∀ (sinceSeq : Option ℕ) (now : ℕ), (∀ n ∈ sinceSeq, n < k.seq) →
        k ∈ w.log.store.strokes ∨ k ∈ (w.insts ()).buffer →
        k ∈ (w.loadForJoin sinceSeq now).strokes) := by
  obtain ⟨w, hw, hsteps⟩ := Machine.exists_of_guarded (start Unit (sampleStoreOf 3))
    (M := machine fun _ ↦ sampleConfig 9 2) (overLone clearRun)
    (show Option.isSome (((machine fun _ ↦ sampleConfig 9 2).guarded
      fun _ a ↦ readsTail a.2 = false).exec _ _) = true by decide)
  cases hw
  have hprefix : (machine fun _ ↦ sampleConfig 9 2).Steps (ReadsClear (sampleConfig 9 2)) _ _ :=
    hsteps.mono fun w a ha ↦ .of_quiet ha
  -- only the buffer holds anything, and no row is numbered as high as its stroke
  have hread := hprefix.tail (a := ((), Action.compact 0 .readTail))
    (fun _ _ ↦ Instance.tailClear_of_idle (fun _ ↦ rfl) (by decide)) rfl
  have hset := hread.tail (a := ((), Action.compact 0 .setSnapshot)) (.of_quiet rfl) rfl
  have hreaches : (machine fun _ ↦ sampleConfig 9 2).Reaches (ReadsClear (sampleConfig 9 2)) _ :=
    ⟨_, init_start _, hset⟩
  refine ⟨_, ⟨sampleSegment, "a", 4, "ada", 5⟩, rfl, ?_, rfl,
    held_not_overtaken (p := none) hreaches ?_⟩ <;> exact List.mem_singleton_self _

/-! ## Overtaken -/

theorem grounded_step {a : Unit × Action} (hg : (w.insts ()).Grounded w.log)
    (h : w.step (fun _ ↦ cfg) a = some w') : (w'.insts ()).Grounded w'.log := by
  obtain ⟨i, a⟩ := a
  obtain ⟨log, inst, hstep, rfl⟩ := step_eq_some.mp h
  exact hg.step (.of_step hstep)

/-- A compaction whose cut is above the baseline it has read makes it the baseline. -/
theorem exec_setBaseline {c n : ℕ} (hphase : (w.insts ()).compactions c = some (.readingTail n))
    (hlt : n < cutSeq cfg n (w.log.store.loadSince n)) : ∃ w',
      (machine fun _ ↦ cfg).exec w (overLone [.compact c .readTail, .compact c .setSnapshot])
        = some w' ∧
      w'.log.store = w.log.store.setSnapshot (cutSeq cfg n (w.log.store.loadSince n)) ∧
      (w'.insts ()).held = (w.insts ()).held := by
  simp [overLone, machine, step, Instance.step, Instance.compactStep, hphase, hlt,
    Instance.setCompaction, BoardLog.mapStore]
  rfl

/-- The condition is exact: a compaction that reads a tail that is not clear overtakes a stroke as
soon as it sets the baseline. -/
theorem overtakes_of_not_tailClear (h : (machine fun _ ↦ cfg).Reaches (ReadsClear cfg) w)
    {c n : ℕ} (hphase : (w.insts ()).compactions c = some (.readingTail n))
    (hnot : ¬ (w.insts ()).TailClear cfg w.log) : ∃ w',
      (machine fun _ ↦ cfg).exec w (overLone [.compact c .readTail, .compact c .setSnapshot])
        = some w' ∧
      ∃ p, ∃ k ∈ (w'.insts ()).held p, k.seq ≤ w'.log.store.getSnapshotSeq := by
  have hgrounded : (w.insts ()).Grounded w.log :=
    h.invariant (P := fun w ↦ (w.insts ()).Grounded w.log)
      (fun w hi ↦ by rw [hi.2.2]; exact Instance.grounded_fresh _)
      fun _ _ _ hg _ hs ↦ grounded_step hg hs
  have hrow := hgrounded.underway c _ hphase rfl
  simp only [Instance.TailClear, not_forall, not_le] at hnot
  obtain ⟨p, k, hheld, hcount⟩ := hnot
  have habove := ((unovertaken_of_reaches h).2.read c n hphase).held p k hheld
  have hcut := (le_cutSeq_iff cfg w.log.store habove).mpr hcount
  obtain ⟨w', hexec, hstore, hheld'⟩ := exec_setBaseline hphase (habove.trans_le hcut)
  refine ⟨w', hexec, p, k, hheld' ▸ hheld, ?_⟩
  rwa [hstore, BoardStore.getSnapshotSeq_setSnapshot hrow]

/-- Three strokes are written by a drain each. The first drain fails after the others have
succeeded, and a compaction cuts between their rows. -/
def overtakingRun : List Action :=
  sampleRestore ++ [.resume "a" 5 0, .append 1 "ada" sampleSegment, .resume "b" 6 1,
    .append 2 "ada" sampleSegment, .resume "c" 7 2, .drain 1 .insert, .drain 1 .insertResolves,
    .drain 1 .touchResolves, .drain 2 .insert, .drain 2 .insertResolves, .drain 2 .touchResolves,
    .drain 0 .fail, .drain 0 .reject, .maybeCompact 0, .resume "" 0 3, .compact 0 .count,
    .compact 0 .proceed, .compact 0 .readSnapshotSeq, .compact 0 .readTail,
    .compact 0 .setSnapshot, .compact 0 (.deleteRows [2]), .compact 0 .finish]

/-- The first stroke is back in the buffer, below the baseline, and no joiner receives it. -/
theorem buffered_below_baseline : ∃ w k,
    (machine fun _ ↦ sampleConfig 1 1).exec (start Unit sampleStore) (overLone overtakingRun)
      = some w ∧
    k ∈ (w.insts ()).buffer ∧ k.seq < w.log.store.getSnapshotSeq ∧
    k ∉ (w.loadForJoin none 8).strokes := by
  refine ⟨_, ⟨sampleSegment, "a", 1, "ada", 5⟩, rfl, ?_⟩
  decide

end World

end Synapse
