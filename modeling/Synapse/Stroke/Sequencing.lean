import Synapse.Stroke.Baseline
import Synapse.Stroke.Compaction

/-!
# Gap-free numbering across restores and restarts

A lone instance continues the numbering of the store it finds. Its first successful restore sets
the counter to one past the highest number found (`BoardStore.highest`), a failed restore turns its
callers away and leaves no trace, and no restore runs after a successful one. So the strokes
accepted since are numbered without a gap, whatever the interleaving (`Numbered`).

A restart continues where the instance stopped because compactions spare the highest stroke: every
cut, and so every baseline, is the baseline found at the start or lies below some stroke
(`Spared`). Once nothing is held, the highest stroke is a row again, and the next restore finds it.
-/

namespace Synapse

open Keyed Transition

/-! ## The highest number of a store -/

theorem le_foldr_max {l : List ℕ} {s n : ℕ} : n ≤ l.foldr max s ↔ n ≤ s ∨ ∃ m ∈ l, n ≤ m := by
  induction l with
  | nil => simp
  | cons m l ih =>
    rw [List.foldr_cons, le_max_iff, ih]
    simp only [List.mem_cons, exists_eq_or_imp]
    tauto

namespace BoardStore

/-- The highest number of a row, or the baseline if no row exceeds it. -/
def highest (store : BoardStore) : ℕ :=
  (store.strokes.rows.map PersistedStroke.seq).foldr max store.getSnapshotSeq

variable {store : BoardStore}

theorem le_highest_iff {n : ℕ} :
    n ≤ store.highest ↔ n ≤ store.getSnapshotSeq ∨ ∃ r ∈ store.strokes, n ≤ r.seq := by
  rw [highest, le_foldr_max]
  simp [List.mem_map]

/-- The rows a restore reads are enough to find the highest number. -/
theorem highestOf_eq_highest (store : BoardStore) :
    Instance.highestOf store.getSnapshotSeq (store.loadSince store.getSnapshotSeq)
      = store.highest := by
  refine le_antisymm ?_ (Instance.le_highestOf (le_highest_iff.mp le_rfl))
  unfold Instance.highestOf
  cases hlast : (store.loadSince store.getSnapshotSeq).getLast? with
  | none => exact le_highest_iff.mpr (Or.inl le_rfl)
  | some r =>
    have hr := (mem_loadSince.mp (List.mem_of_getLast? hlast)).1
    exact le_highest_iff.mpr (Or.inr ⟨r, hr, le_rfl⟩)

end BoardStore

theorem exists_cutSeq_lt {cfg : Config} (snapshotSeq : ℕ) {tail : List PersistedStroke}
    (hasc : Ascending PersistedStroke.seq tail) (h : keepTail cfg < tail.length) :
    ∃ r ∈ tail, cutSeq cfg snapshotSeq tail < r.seq := by
  have hkeep : 1 ≤ keepTail cfg := le_max_left _ _
  have hindex : tail.length - keepTail cfg - 1 < tail.length - 1 := by omega
  refine ⟨tail[tail.length - 1], List.getElem_mem _, ?_⟩
  rw [cutSeq, if_pos h, List.getElem?_eq_getElem (by omega), Option.map_some, Option.getD_some]
  exact List.pairwise_iff_getElem.mp hasc _ _ _ _ hindex

/-- The number a compaction has read or computed, while it matters. -/
def CompactionPhase.bound : CompactionPhase → Option ℕ
  | readingTail n | settingSnapshot n | deleting n => some n
  | _ => none

theorem CompactionPhase.bound_of_rest {phase : CompactionPhase} (h : phase.underway = false) :
    phase.bound = none := by
  cases phase <;> first | rfl | cases h

/-- Below an accepted stroke, or the baseline found at the start. -/
def Spares (store : BoardStore) (log : BoardLog) (n : ℕ) : Prop :=
  store.getSnapshotSeq ≤ n ∧ (n = store.getSnapshotSeq ∨ ∃ k ∈ log.accepted, n < k.seq)

theorem Spares.mono {store : BoardStore} {log log' : BoardLog} {n : ℕ} (h : Spares store log n)
    (hsub : log.accepted ⊆ log'.accepted) : Spares store log' n :=
  ⟨h.1, h.2.imp_right fun ⟨k, hk, hlt⟩ ↦ ⟨k, hsub hk, hlt⟩⟩

namespace Instance

variable {cfg : Config} {store : BoardStore} {log log' : BoardLog} {inst inst' : Instance}
  {a : Action}

/-! ## The numbers issued -/

/-- The log continues the rows of `store` with `n` strokes numbered from `h + 1` on. -/
def Issued (store : BoardStore) (h n : ℕ) (log : BoardLog) : Prop :=
  ∃ new, log.accepted = store.strokes.rows ++ new ∧
    new.map PersistedStroke.seq = List.range' (h + 1) n

theorem Issued.append {h n : ℕ} (hi : Issued store h n log) {k : PersistedStroke}
    (hk : k.seq = h + n + 1) (hlog : log'.accepted = log.accepted ++ [k]) :
    Issued store h (n + 1) log' := by
  obtain ⟨new, haccepted, hseqs⟩ := hi
  refine ⟨new ++ [k], ?_, ?_⟩
  · rw [hlog, haccepted, List.append_assoc]
  · rw [List.map_append, hseqs, List.range'_concat, List.map_cons, List.map_nil, hk]
    congr 2
    omega

theorem Issued.mem_seqs {h n : ℕ} {new : List PersistedStroke}
    (hseqs : new.map PersistedStroke.seq = List.range' (h + 1) n) {m : ℕ} :
    m ∈ new.map PersistedStroke.seq ↔ h + 1 ≤ m ∧ m < h + 1 + n := by
  rw [hseqs, List.mem_range'_1]

theorem Issued.seq_le {n : ℕ} (hi : Issued store store.highest n log) {k : PersistedStroke}
    (hk : k ∈ log.accepted) : k.seq ≤ store.highest + n := by
  obtain ⟨new, haccepted, hseqs⟩ := hi
  rw [haccepted, List.mem_append] at hk
  rcases hk with hk | hk
  · have := BoardStore.le_highest_iff.mpr (Or.inr ⟨k, hk, le_rfl⟩)
    omega
  · have := (mem_seqs hseqs).mp (List.mem_map_of_mem hk)
    omega

/-- The last number issued is that of a stroke, or the baseline found at the start. -/
theorem Issued.exists_last {n : ℕ} (hi : Issued store store.highest n log) :
    store.highest + n = store.getSnapshotSeq ∨
      ∃ k ∈ log.accepted, k.seq = store.highest + n := by
  have hbase : store.getSnapshotSeq ≤ store.highest :=
    BoardStore.le_highest_iff.mpr (Or.inl le_rfl)
  have hle : ∀ k ∈ log.accepted, k.seq ≤ store.highest + n := fun k ↦ hi.seq_le
  obtain ⟨new, haccepted, hseqs⟩ := hi
  rcases Nat.eq_zero_or_pos n with rfl | hpos
  · rcases BoardStore.le_highest_iff.mp (le_refl store.highest) with hlow | ⟨r, hr, hhigh⟩
    · exact Or.inl (le_antisymm hlow hbase)
    · have hacc : r ∈ log.accepted := haccepted ▸ List.mem_append_left _ hr
      exact Or.inr ⟨r, hacc, le_antisymm (hle r hacc) hhigh⟩
  · obtain ⟨k, hk, hseq⟩ := List.mem_map.mp ((mem_seqs hseqs (m := store.highest + n)).mpr
      (by omega))
    exact Or.inr ⟨k, haccepted ▸ List.mem_append_right _ hk, hseq⟩

/-- The restore and the counter, against the store found at the start. -/
structure Numbered (store : BoardStore) (log : BoardLog) (inst : Instance) : Prop where
  /-- Until the restore has succeeded the rows and the baseline are those found. -/
  found : inst.board.initPromise ≠ some .fulfilled →
    log.accepted = store.strokes.rows ∧ log.store.strokes = store.strokes ∧
      log.store.getSnapshotSeq = store.getSnapshotSeq
  tailRead : ∀ n, inst.board.initPromise = some (.tailRead n) → n = store.highest
  issued : ∃ n, Issued store store.highest n log ∧
    (inst.board.initPromise = some .fulfilled → inst.board.nextSeq = store.highest + n + 1)

theorem numbered_fresh (store : BoardStore) :
    Numbered store ⟨store, store.strokes.rows, []⟩ {} where
  found _ := ⟨rfl, rfl, rfl⟩
  tailRead _ hn := by cases hn
  issued := ⟨0, ⟨[], (List.append_nil _).symm, rfl⟩, fun hf ↦ by cases hf⟩

/-- **A step issues the next number or none.** -/
theorem Numbered.step (hn : inst.Numbered store log) (hr : inst.Restored log)
    (h : Step cfg log inst a log' inst') : inst'.Numbered store log' := by
  obtain ⟨n, hissued, hnext⟩ := hn.issued
  by_cases hp : inst.board.initPromise = some .fulfilled
  · have hp' := h.fulfilled hp
    refine ⟨absurd hp', by simp [hp'], ?_⟩
    rcases h.counter hp with ⟨haccepted, hseq⟩ | ⟨k, hk, haccepted, hseq⟩
    · obtain ⟨new, hnew, hseqs⟩ := hissued
      exact ⟨n, ⟨new, haccepted.trans hnew, hseqs⟩, fun _ ↦ hseq.trans (hnext hp)⟩
    · have hk' : k.seq = store.highest + n + 1 := hk.trans (hnext hp)
      exact ⟨n + 1, hissued.append hk' haccepted, fun _ ↦ by omega⟩
  · -- nothing changes while the restore is under way
    have hd := hr.dormant hp
    obtain ⟨haccepted, hsnapshot, hrows, -⟩ := hd.log_step h.effect
    obtain ⟨hfound, hstrokes, hbase⟩ := hn.found hp
    have hissued' : Issued store store.highest 0 log' :=
      ⟨[], (haccepted.trans hfound).trans (List.append_nil _).symm, rfl⟩
    refine ⟨fun _ ↦ ⟨haccepted.trans hfound, hrows.trans hstrokes, hsnapshot.trans hbase⟩, ?_, ?_⟩
    · intro m hm
      cases h.restoreMove with
      | stay h' => exact hn.tailRead m (h' ▸ hm)
      | tailRead s hs h' =>
        rw [h'] at hm
        cases hm
        have htail : log.store.loadSince s = store.loadSince s := by
          rw [BoardStore.loadSince, hstrokes]
          rfl
        rw [hr.readingTail s hs, hbase] at htail ⊢
        rw [htail, store.highestOf_eq_highest]
      | start _ h' | ensured _ h' | snapshotRead _ h' | finish _ _ h' | fail _ h' =>
        rw [h'] at hm
        cases hm
    · refine ⟨0, hissued', fun hf ↦ ?_⟩
      cases h.restoreMove with
      | stay h' => exact absurd (h' ▸ hf) hp
      | finish highest hm _ hseq => rw [hseq, hn.tailRead highest hm, Nat.add_zero]
      | start _ h' | ensured _ h' | snapshotRead _ h' | tailRead _ _ h' | fail _ h' =>
        rw [h'] at hf
        cases hf

/-! ## What compactions spare -/

/-- No baseline and no deletion reaches the highest stroke. -/
structure Spared (store : BoardStore) (log : BoardLog) (inst : Instance) : Prop where
  snapshot : Spares store log log.store.getSnapshotSeq
  compaction : ∀ c phase, inst.compactions c = some phase →
    ∀ n ∈ phase.bound, Spares store log n
  pruned : ∀ k ∈ log.pruned, k.seq ≤ store.getSnapshotSeq ∨ ∃ x ∈ log.accepted, k.seq < x.seq

theorem spared_fresh (store : BoardStore) : Spared store ⟨store, store.strokes.rows, []⟩ {} where
  snapshot := ⟨le_rfl, Or.inl rfl⟩
  compaction _ _ hc := by cases hc
  pruned _ hk := by cases hk

/-- A cut spares the highest stroke if the baseline it was computed from does. -/
theorem spares_cutSeq (cfg : Config) {n : ℕ} (h : Spares store log n)
    (hrows : ∀ r ∈ log.store.strokes, r ∈ log.accepted) :
    Spares store log (cutSeq cfg n (log.store.loadSince n)) := by
  rcases cutSeq_cases cfg n (log.store.loadSince n) with ⟨-, hcut⟩ | ⟨htail, r, hr, hcut⟩
  · rwa [hcut]
  · have habove := (BoardStore.mem_loadSince.mp hr).2
    refine ⟨?_, Or.inr ?_⟩
    · rw [hcut]
      exact h.1.trans habove.le
    · obtain ⟨x, hx, hlt⟩ := exists_cutSeq_lt n (log.store.ascending_loadSince n) htail
      exact ⟨x, hrows x (BoardStore.mem_loadSince.mp hx).1, hlt⟩

theorem Spared.step (hsp : inst.Spared store log) (hg : inst.Grounded log)
    (hrows : ∀ r ∈ log.store.strokes, r ∈ log.accepted) (hsub : log.accepted ⊆ log'.accepted)
    (h : Step cfg log inst a log' inst') : inst'.Spared store log' := by
  refine ⟨?_, fun c phase hc n hn ↦ ?_, fun k hk ↦ ?_⟩
  · cases h.effect with
    | setSnapshot c cut hphase =>
      have hrow := hg.underway c _ hphase rfl
      rw [BoardLog.mapStore, BoardStore.getSnapshotSeq_setSnapshot hrow]
      exact hsp.compaction c _ hphase cut rfl
    | _ => exact hsp.snapshot.mono hsub
  · have hmove := h.compactMove c
    rw [hc] at hmove
    generalize hold : inst.compactions c = old at hmove
    cases hmove with
    | stay => exact (hsp.compaction c phase hold n hn).mono hsub
    | rest _ _ hrest =>
      rw [CompactionPhase.bound_of_rest hrest] at hn
      cases hn
    | resume | count | proceed => cases hn
    | readSnapshotSeq =>
      cases hn
      exact hsp.snapshot.mono hsub
    | readTail m cut hcut _ hphase =>
      have hspares := spares_cutSeq cfg (hsp.compaction c _ hold m rfl) hrows
      rw [← hcut] at hspares
      rcases hphase with ⟨-, rfl⟩ | ⟨-, rfl⟩ <;> cases hn <;> exact hspares.mono hsub
    | setSnapshot =>
      cases hn
      exact (hsp.compaction c _ hold n rfl).mono hsub
    | deleteRows _ _ hphase =>
      rcases hphase with rfl | rfl <;> cases hn
      exact (hsp.compaction c _ hold n rfl).mono hsub
  · have hbefore : k ∈ log.pruned →
        k.seq ≤ store.getSnapshotSeq ∨ ∃ x ∈ log'.accepted, k.seq < x.seq := by
      intro hk
      rcases hsp.pruned k hk with hle | ⟨x, hx, hlt⟩
      · exact Or.inl hle
      · exact Or.inr ⟨x, hsub hx, hlt⟩
    cases h.effect with
    | prune c cut victims hphase hdeletable =>
      rcases List.mem_append.mp hk with hk | hk
      · exact hbefore hk
      · -- a deleted row is at or below a cut
        have hle := hdeletable.le (BoardStore.mem_deletedRows.mp hk).2
        rcases (hsp.compaction c _ hphase cut rfl).2 with rfl | ⟨x, hx, hlt⟩
        · exact Or.inl hle
        · exact Or.inr ⟨x, hx, hle.trans_lt hlt⟩
    | _ => exact hbefore hk

end Instance

namespace World

variable {cfg : Config} {store : BoardStore} {w w' : World Unit}

/-- A lone instance over the store it found. -/
structure Continues (store : BoardStore) (w : World Unit) : Prop where
  owned : w.Owned
  grounded : (w.insts ()).Grounded w.log
  numbered : (w.insts ()).Numbered store w.log
  spared : (w.insts ()).Spared store w.log

theorem Continues.start (store : BoardStore) : (World.start Unit store).Continues store :=
  ⟨.of_init (init_start store), Instance.grounded_fresh _, Instance.numbered_fresh store,
    Instance.spared_fresh store⟩

theorem Continues.step (hw : w.Continues store) {a : Unit × Action}
    (h : w.step (fun _ ↦ cfg) a = some w') : w'.Continues store := by
  have hsub : w.log.accepted ⊆ w'.log.accepted := (hw.owned.moves h).prefix_accepted.subset
  have hrows : ∀ r ∈ w.log.store.strokes, r ∈ w.log.accepted := fun r hr ↦
    hw.owned.accounted.sound.accepted_of_stored r (Or.inl hr)
  have howned := hw.owned.step h
  obtain ⟨i, a⟩ := a
  obtain ⟨log, inst, hs, rfl⟩ := step_eq_some.mp h
  have hstep := Instance.Step.of_step hs
  exact ⟨howned, hw.grounded.step hstep, hw.numbered.step hw.owned.restored hstep,
    hw.spared.step hw.grounded hrows hsub hstep⟩

theorem Continues.of_steps {ok : World Unit → Unit × Action → Prop}
    (h : (machine fun _ ↦ cfg).Steps ok (World.start Unit store) w) : w.Continues store :=
  h.invariant (.start store) fun _ _ _ hu _ hs ↦ hu.step hs

/-- Once nothing is held, the store has all the numbers issued and no more. -/
theorem Continues.highest (hw : w.Continues store) {n : ℕ}
    (hissued : Instance.Issued store store.highest n w.log)
    (hheld : ∀ p, (w.insts ()).held p = []) :
    w.log.store.highest = store.highest + n := by
  have hsound := hw.owned.accounted.sound
  have hbase : store.getSnapshotSeq ≤ store.highest := BoardStore.le_highest_iff.mpr (Or.inl le_rfl)
  -- the last stroke is a row, unless there is none above the baseline
  have htop : store.highest + n = store.getSnapshotSeq ∨
      ∃ k ∈ w.log.store.strokes, k.seq = store.highest + n := by
    rcases hissued.exists_last with heq | ⟨k, hk, hseq⟩
    · exact Or.inl heq
    rcases hsound.accounted k hk with (hrow | hpruned) | ⟨⟨⟨⟩, p⟩, hp⟩
    · exact Or.inr ⟨k, hrow, hseq⟩
    · rcases hw.spared.pruned k hpruned with hle | ⟨x, hx, hlt⟩
      · exact Or.inl (by omega)
      · have := hissued.seq_le hx
        omega
    · have hk : k ∈ (w.insts ()).held p := hp
      rw [hheld] at hk
      cases hk
  refine le_antisymm ?_ (BoardStore.le_highest_iff.mpr ?_)
  · rcases BoardStore.le_highest_iff.mp (le_refl w.log.store.highest) with hle | ⟨r, hr, hle⟩
    · rcases hw.spared.snapshot.2 with hsame | ⟨k, hk, hlt⟩
      · omega
      · have := hissued.seq_le hk
        omega
    · exact hle.trans (hissued.seq_le (hsound.accepted_of_stored r (Or.inl hr)))
  · rcases htop with heq | ⟨k, hk, hseq⟩
    · exact Or.inl (heq ▸ hw.spared.snapshot.1)
    · exact Or.inr ⟨k, hk, hseq.ge⟩

/-- The calls that await the restore are turned away, and nothing else changes. -/
structure TurnsAway (w w' : World Unit) : Prop where
  log : w'.log = w.log
  held : (w'.insts ()).held = (w.insts ()).held
  counter : (w'.insts ()).board.nextSeq = (w.insts ()).board.nextSeq
  waiting : (w'.insts ()).waiting = []
  ready : (w'.insts ()).ready = []

theorem Owned.turnsAway (hw : w.Owned)
    (h : w.step (fun _ ↦ cfg) ((), .restore .fail) = some w') : w.TurnsAway w' := by
  obtain ⟨log, inst, hs, rfl⟩ := step_eq_some.mp h
  cases Instance.Step.of_step hs with
  | restoreFail promise hp hpending =>
    have hd := hw.restored.dormant (by simpa [hp] using hpending)
    exact ⟨rfl, Instance.held_setBoard rfl, rfl, rfl, hd.ready⟩

theorem not_finish_of_fulfilled (h : (w.insts ()).board.initPromise = some .fulfilled) :
    w.step (fun _ ↦ cfg) ((), .restore .finish) = none := by
  simp [step, Instance.step, Instance.restoreStep, h]

theorem fulfilled_step {a : Unit × Action} (h : w.step (fun _ ↦ cfg) a = some w')
    (hp : (w.insts ()).board.initPromise = some .fulfilled) :
    (w'.insts ()).board.initPromise = some .fulfilled := by
  obtain ⟨i, a⟩ := a
  obtain ⟨log, inst, hs, rfl⟩ := step_eq_some.mp h
  exact (Instance.Step.of_step hs).fulfilled hp

theorem finish_once {ok : World Unit → Unit × Action → Prop} {u : World Unit}
    (h : w.step (fun _ ↦ cfg) ((), .restore .finish) = some w')
    (hs : (machine fun _ ↦ cfg).Steps ok w' u) :
    u.step (fun _ ↦ cfg) ((), .restore .finish) = none := by
  obtain ⟨log, inst, hstep, rfl⟩ := step_eq_some.mp h
  cases Instance.Step.of_step hstep with
  | restoreFinish =>
    refine not_finish_of_fulfilled (hs.invariant
      (P := fun u ↦ (u.insts ()).board.initPromise = some .fulfilled) rfl
      fun _ _ _ hu _ ha ↦ fulfilled_step ha hu)

/-- **Numbers are issued without a gap, across failed restores and restarts.** In every run over
`store`, whatever fails: the strokes accepted are numbered from one past the highest found; a
failing restore turns its callers away and changes nothing else; the restore that sets the counter
is the only one; and once nothing is held, every run of a new instance over what is stored by then
continues with the next number. -/
theorem sequence_gap_free
    (h : (machine fun _ ↦ cfg).Steps Machine.anyStep (World.start Unit store) w) :
    ∃ n, Instance.Issued store store.highest n w.log ∧
      (∀ w', w.step (fun _ ↦ cfg) ((), .restore .fail) = some w' → w.TurnsAway w') ∧
      (∀ u v, w.step (fun _ ↦ cfg) ((), .restore .finish) = some u →
        (machine fun _ ↦ cfg).Steps Machine.anyStep u v →
        v.step (fun _ ↦ cfg) ((), .restore .finish) = none) ∧
      ((∀ p, (w.insts ()).held p = []) → ∀ (cfg' : Config) (w' : World Unit),
        (machine fun _ ↦ cfg').Steps Machine.anyStep (World.start Unit w.log.store) w' →
        ∃ m, Instance.Issued w.log.store (store.highest + n) m w'.log) := by
  have hw := Continues.of_steps h
  obtain ⟨n, hissued, -⟩ := hw.numbered.issued
  refine ⟨n, hissued, fun _ ↦ hw.owned.turnsAway, fun _ _ ↦ finish_once, ?_⟩
  intro hheld cfg' w' hs
  obtain ⟨m, hm, -⟩ := (Continues.of_steps hs).numbered.issued
  rw [hw.highest hissued hheld] at hm
  exact ⟨m, hm⟩

/-- The first restore fails. The second serves an append, which is flushed, and a compaction, which
cuts. -/
def restoringRun : List Action :=
  [.append 0 "ada" sampleSegment, .restore .ensure, .restore .readSnapshotSeq, .restore .fail,
    .append 1 "ada" sampleSegment, .maybeCompact 0, .restore .ensure, .restore .readSnapshotSeq,
    .restore .readTail, .restore .finish, .resume "a" 5 0, .flush 0, .drain 0 .insert,
    .drain 0 .insertResolves, .drain 0 .touchResolves, .drain 0 .resolve, .resume "" 0 1,
    .compact 0 .count, .compact 0 .proceed, .compact 0 .readSnapshotSeq, .compact 0 .readTail,
    .compact 0 .setSnapshot, .compact 0 (.deleteRows [1, 2, 3]), .compact 0 .finish]

/-- A new instance accepts one stroke. -/
def restartedRun : List Action := sampleRestore ++ [.resume "b" 6 0]

/-- Number 4 is issued before the restart, and number 5 after it. -/
theorem sequence_gap_free_restoringRun : ∃ w w' : World Unit,
    (machine fun _ ↦ sampleConfig 9 2).exec (World.start Unit (sampleStoreOf 3))
      (overLone restoringRun) = some w ∧
    (machine fun _ ↦ sampleConfig 9 2).exec (World.start Unit w.log.store)
      (overLone restartedRun) = some w' ∧
    w'.log.accepted.map PersistedStroke.seq = [4, 5] ∧
    ∃ n, Instance.Issued (sampleStoreOf 3) (sampleStoreOf 3).highest n w.log ∧
      ∃ m, Instance.Issued w.log.store ((sampleStoreOf 3).highest + n) m w'.log := by
  have hheld : ∀ w, (machine fun _ ↦ sampleConfig 9 2).exec (World.start Unit (sampleStoreOf 3))
      (overLone restoringRun) = some w → ∀ p, (w.insts ()).held p = [] := by
    intro w hw p
    cases hw
    match p with
    | none | some 0 | some (d + 1) => rfl
  obtain ⟨w, hw, hsteps, hp⟩ := Machine.exists_of_exec (M := machine fun _ ↦ sampleConfig 9 2)
    (p := fun w ↦ ((machine fun _ ↦ sampleConfig 9 2).exec (World.start Unit w.log.store)
      (overLone restartedRun)).any fun w' ↦ w'.log.accepted.map PersistedStroke.seq == [4, 5])
    (World.start Unit (sampleStoreOf 3)) (overLone restoringRun) (by decide)
  obtain ⟨w', hw', hsteps', hseqs⟩ := Machine.exists_of_exec _ _ hp
  obtain ⟨n, hissued, -, -, hrestart⟩ := sequence_gap_free hsteps
  exact ⟨w, w', hw, hw', by simpa using hseqs, n, hissued, hrestart (hheld w hw) _ w' hsteps'⟩

end World

end Synapse
