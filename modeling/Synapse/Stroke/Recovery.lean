import Synapse.Stroke.Compaction

/-!
# Compactions that fail

Any repository call of a compaction may fail, and a `deleteThrough` that fails may have deleted any
of the rows it was to delete. The machine of this file adds that last step to the steps of a lone
instance, and an `Attempt` is a call of `maybeCompact` that settles, one way or the other, with
nothing else going on.

However it ends, an attempt leaves the rows above the baseline it ends with alone (`KeepsAbove`).
One in which nothing fails keeps nothing but these, once there are more rows than the cap
(`Trimmed`). Below the cap it does nothing, not even clear what a failed attempt has left behind.
-/

namespace Synapse

open Keyed Transition

/-! ## Attempts -/

/-- A step of a lone instance, or a `deleteThrough` that fails after deleting some of its rows. -/
inductive RecoveryAction
  | step (a : Action)
  | deleteFails (c : ℕ) (victims : List ℕ)
  deriving DecidableEq

namespace World

/-- The rows `victims` have been deleted when `deleteThrough` rejects. -/
def deleteFails (w : World Unit) (c : ℕ) (victims : List ℕ) : Option (World Unit) :=
  match (w.insts ()).compactions c with
  | some (.deleting cut) =>
    if ∀ n ∈ victims, n ∈ w.log.store.matching cut then
      some (w.put () (w.log.prune victims, (w.insts ()).leaveCompaction c))
    else none
  | _ => none

def recoveryStep (cfg : Config) (w : World Unit) : RecoveryAction → Option (World Unit)
  | .step a => w.step (fun _ ↦ cfg) ((), a)
  | .deleteFails c victims => w.deleteFails c victims

/-- The transition system of a lone instance whose deletions may be cut short. -/
def recovery (cfg : Config) : Machine (World Unit) RecoveryAction := ⟨init, recoveryStep cfg⟩

end World

/-- Whether the action is a step of compaction `c`, or of the restore it awaits. -/
def RecoveryAction.ofAttempt (c : ℕ) : RecoveryAction → Bool
  | .step (.maybeCompact e) => e == c
  | .step (.resume _ _ _) => true
  | .step (.restore _) => true
  | .step (.compact e _) => e == c
  | .step _ => false
  | .deleteFails e _ => e == c

namespace World

variable {cfg : Config} {w w' : World Unit}

/-- A call of `maybeCompact` is made in `w` and settles in `w'`, and nothing else goes on. -/
def Attempt (cfg : Config) (w w' : World Unit) : Prop :=
  ∃ c, (w.insts ()).compactions c = none ∧
    (recovery cfg).Steps (fun _ a ↦ a.ofAttempt c) w w' ∧
    ((w'.insts ()).compactions c = some .resolved ∨ (w'.insts ()).compactions c = some .rejected)

theorem CompactsTo.attempt (h : CompactsTo cfg w w') : Attempt cfg w w' := by
  obtain ⟨c, hidle, hsteps, hresolved⟩ := h
  refine ⟨c, hidle, ?_, Or.inl hresolved⟩
  refine hsteps.simulate (f := id) fun u ⟨⟨⟩, a⟩ v ha hs ↦ .single (a := .step a) ?_ hs
  cases a with
  | maybeCompact e => exact ha
  | compact e r =>
    obtain rfl := ofCompaction_compact ha
    exact beq_self_eq_true e
  | resume | restore => rfl
  | _ => cases ha

end World

/-! ## What an attempt leaves -/

/-- What every attempt keeps to, however it ends. -/
structure KeepsAbove (cfg : Config) (before store : BoardStore) : Prop where
  within : before.count ≤ cfg.strokeCap → Same before store
  snapshot : before.getSnapshotSeq ≤ store.getSnapshotSeq
  rows : store.loadSince store.getSnapshotSeq = before.loadSince store.getSnapshotSeq

/-- What an attempt in which nothing fails makes of a board with more rows than the cap. -/
structure Trimmed (cfg : Config) (before store : BoardStore) : Prop where
  /-- The rows left are those above the baseline. -/
  above : ∀ k, k ∈ store.strokes ↔ k ∈ before.strokes ∧ store.getSnapshotSeq < k.seq
  /-- They are the last ones of the tail, at most half the cap of them. -/
  tail : store.loadSince store.getSnapshotSeq
    = (before.loadSince before.getSnapshotSeq).drop
        ((before.loadSince before.getSnapshotSeq).length - max 1 (cfg.strokeCap / 2))
  count : store.count ≤ cfg.strokeCap

theorem Same.loadSince {before store : BoardStore} (h : Same before store) (n : ℕ) :
    store.loadSince n = before.loadSince n := by
  rw [BoardStore.loadSince, h.rows]
  rfl

theorem Same.keepsAbove {cfg : Config} {before store : BoardStore} (h : Same before store) :
    KeepsAbove cfg before store :=
  ⟨fun _ ↦ h, h.snapshot.ge, h.loadSince _⟩

theorem CutAt.keepsAbove {cfg : Config} {before store : BoardStore}
    (h : CutAt before (before.cut cfg) store) (hcap : cfg.strokeCap < before.count) :
    KeepsAbove cfg before store := by
  refine ⟨fun hle ↦ absurd hcap (not_lt.mpr hle), ?_, ?_⟩
  · rw [h.snapshot]
    exact before.le_cut cfg
  · rw [h.snapshot, h.rows]

theorem Outcome.keepsAbove {cfg : Config} {before store : BoardStore}
    (h : Outcome cfg before store) : KeepsAbove cfg before store := by
  unfold Outcome at h
  split_ifs at h with hcap
  · exact h.keepsAbove
  · exact h.keepsAbove (not_le.mp hcap)

theorem BoardStore.loadSince_cut (cfg : Config) (store : BoardStore) :
    store.loadSince (store.cut cfg) = (store.loadSince store.getSnapshotSeq).drop
      ((store.loadSince store.getSnapshotSeq).length - keepTail cfg) := by
  set tail := store.loadSince store.getSnapshotSeq with htail
  have hasc : Ascending PersistedStroke.seq tail := store.ascending_loadSince _
  have hcut : store.cut cfg = cutSeq cfg store.getSnapshotSeq tail := rfl
  by_cases hlen : keepTail cfg < tail.length
  · have hindex : tail.length - keepTail cfg - 1 < tail.length := by omega
    have hseq : store.cut cfg = (tail[tail.length - keepTail cfg - 1]).seq := by
      rw [hcut, cutSeq, if_pos hlen, List.getElem?_eq_getElem hindex, Option.map_some,
        Option.getD_some]
    have hsucc : tail.length - keepTail cfg = tail.length - keepTail cfg - 1 + 1 := by omega
    refine (store.ascending_loadSince _).eq_of_mem_iff (hasc.sublist (List.drop_sublist _ _))
      fun k ↦ ?_
    rw [hsucc, hasc.mem_drop_succ_iff hindex, ← hseq, mem_loadSince, htail, mem_loadSince]
    have hle := store.le_cut cfg
    exact ⟨fun ⟨hk, hlt⟩ ↦ ⟨⟨hk, hle.trans_lt hlt⟩, hlt⟩, fun ⟨⟨hk, _⟩, hlt⟩ ↦ ⟨hk, hlt⟩⟩
  · rw [hcut, cutSeq, if_neg hlen, show tail.length - keepTail cfg = 0 by omega, List.drop_zero]

/-- A board whose rows up to the cut are gone is trimmed. -/
theorem CutAt.trimmed {cfg : Config} {before store : BoardStore}
    (h : CutAt before (before.cut cfg) store) (hswept : store.matching (before.cut cfg) = []) :
    Trimmed cfg before store := by
  have habove : ∀ k ∈ store.strokes, before.cut cfg < k.seq := by
    intro k hk
    by_contra hle
    have hmem := BoardStore.mem_matching.mpr ⟨k, hk, rfl, not_lt.mp hle⟩
    rw [hswept] at hmem
    cases hmem
  have hmem : ∀ k, k ∈ store.strokes ↔ k ∈ before.strokes ∧ before.cut cfg < k.seq := by
    intro k
    rw [← BoardStore.mem_loadSince, ← h.rows, BoardStore.mem_loadSince]
    exact ⟨fun hk ↦ ⟨hk, habove k hk⟩, And.left⟩
  have hcount : store.count = (store.loadSince (before.cut cfg)).length := by
    rw [BoardStore.count, BoardStore.loadSince, Table.above, length_sortByKey,
      List.filter_eq_self.mpr fun k hk ↦ decide_eq_true (habove k hk)]
  have hcap := cfg.strokeCap_pos
  refine ⟨?_, ?_, ?_⟩
  · rw [h.snapshot]
    exact hmem
  · rw [h.snapshot, h.rows, before.loadSince_cut]
    rfl
  · rw [hcount, h.rows, before.loadSince_cut, List.length_drop]
    unfold keepTail
    omega

/-! ## How an attempt ends -/

namespace Instance

variable {cfg : Config} {c : ℕ} {before : BoardStore} {buffer : List PersistedStroke}
  {log : BoardLog} {inst : Instance}

/-- Inside the critical section the rows above the baseline are intact. -/
theorem Stage.keepsAbove (hst : Stage cfg c before buffer log inst) {phase : CompactionPhase}
    (hphase : inst.compactions c = some phase) (hcritical : phase.critical) :
    KeepsAbove cfg before log.store := by
  have hdone := hst.done
  rw [hphase] at hdone
  cases phase with
  | readingSnapshot | readingTail | settingSnapshot => exact hdone.1.keepsAbove
  | deleting cut =>
    obtain ⟨hcap, rfl, hcut⟩ := hdone
    exact hcut.keepsAbove hcap
  | deleted => exact hdone.2.keepsAbove hdone.1
  | _ => cases hcritical

end Instance

namespace World

variable {cfg : Config} {c : ℕ} {before : BoardStore} {buffer : List PersistedStroke}
  {w w' : World Unit}

/-- Compaction `c` has settled after a failure. -/
structure GaveUp (cfg : Config) (c : ℕ) (before : BoardStore) (buffer : List PersistedStroke)
    (w : World Unit) : Prop where
  atRest : w.AtRest
  buffer : (w.insts ()).buffer = buffer
  settled : (w.insts ()).compactions c = some .resolved ∨
    (w.insts ()).compactions c = some .rejected
  keepsAbove : KeepsAbove cfg before w.log.store

theorem GaveUp.not_step (hw : w.GaveUp cfg c before buffer) {a : RecoveryAction}
    (ha : a.ofAttempt c) : recoveryStep cfg w a ≠ some w' := by
  have hphase : ∀ phase, (w.insts ()).compactions c = some phase → phase.underway = false := by
    intro phase hp
    rcases hw.settled with h | h <;> rw [h] at hp <;> cases hp <;> rfl
  have hidle : (w.insts ()).compactions c ≠ none := by
    rcases hw.settled with h | h <;> simp [h]
  have hready := hw.atRest.ready
  have hrest : ∀ p, (w.insts ()).board.initPromise = some p → p = .fulfilled := by
    intro p hp
    rcases hw.atRest.settled with h | h <;> rw [h] at hp <;> cases hp
    rfl
  intro h
  cases a with
  | step a =>
    change w.step (fun _ ↦ cfg) ((), a) = some w' at h
    obtain ⟨log, inst, hs, -⟩ := step_eq_some.mp h
    cases Instance.Step.of_step hs with
    | maybeCompact e he =>
      obtain rfl : e = c := beq_iff_eq.mp ha
      exact hidle he
    | resumeAppend _ _ _ _ _ _ _ hcons | resumeCompact _ _ _ _ _ hcons =>
      rw [hready] at hcons
      cases hcons
    | restoreEnsure hp | restoreSnapshot hp | restoreTail _ hp | restoreFinish _ hp =>
      cases hrest _ hp
    | restoreFail promise hp hpending => exact hpending (hrest _ hp)
    | count e hp | proceedWithin e _ hp | proceedOver e _ hp | compactSnapshot e hp
    | compactTail e _ _ hp | setSnapshot e _ hp | deleteRows e _ hp | compactFinish e hp
    | countFails e hp =>
      obtain rfl : e = c := beq_iff_eq.mp ha
      cases hphase _ hp
    | compactFails e phase hp hcritical =>
      obtain rfl : e = c := beq_iff_eq.mp ha
      have := phase.underway_of_critical hcritical
      rw [hphase _ hp] at this
      cases this
    | _ => cases ha
  | deleteFails e victims =>
    obtain rfl : e = c := beq_iff_eq.mp ha
    rcases hw.settled with hp | hp <;> simp [recoveryStep, deleteFails, hp] at h

theorem gaveUp_of_critical {phase : CompactionPhase} {log : BoardLog}
    (hst : Instance.Stage cfg c before buffer w.log (w.insts ()))
    (hphase : (w.insts ()).compactions c = some phase) (hcritical : phase.critical)
    (hrow : log.store.boardRow = w.log.store.boardRow) (hkept : KeepsAbove cfg before log.store) :
    (w.put () (log, (w.insts ()).leaveCompaction c)).GaveUp cfg c before buffer := by
  obtain ⟨hfulfilled, hready, hwaiting⟩ :=
    hst.quiet hphase (phase.underway_of_critical hcritical)
  have hstep : Instance.Step cfg w.log (w.insts ()) (.compact c .fail) w.log
      ((w.insts ()).leaveCompaction c) := .compactFails c phase hphase hcritical
  have hg : ((w.insts ()).leaveCompaction c).Grounded log :=
    (hst.grounded.step hstep).mono fun hsome ↦ by rwa [hrow]
  refine ⟨⟨hg, hready, hwaiting, Or.inr hfulfilled, rfl⟩, hst.buffer, Or.inl ?_, hkept⟩
  exact Instance.compactions_setCompaction_self _ c .resolved

theorem gaveUp_of_deleteFails (hst : Instance.Stage cfg c before buffer w.log (w.insts ()))
    {victims : List ℕ} (h : w.deleteFails c victims = some w') :
    w'.GaveUp cfg c before buffer := by
  rw [deleteFails] at h
  split at h
  · next cut hphase =>
    obtain ⟨hvictims, hput⟩ := Option.ite_none_right_eq_some.mp h
    cases hput
    have hdone := hst.done
    rw [hphase] at hdone
    obtain ⟨hcap, rfl, hcut⟩ := hdone
    -- only rows up to the cut are deleted
    have hrows : (w.log.prune victims).store.loadSince (before.cut cfg)
        = w.log.store.loadSince (before.cut cfg) := by
      refine Table.above_deleteWhere fun r _ hr ↦ ?_
      obtain ⟨_, _, _, hle⟩ := BoardStore.mem_matching.mp (hvictims _ (of_decide_eq_true hr))
      exact hle
    have hafter : CutAt before (before.cut cfg) (w.log.prune victims).store :=
      ⟨hcut.snapshot, hrows.trans hcut.rows⟩
    exact gaveUp_of_critical hst hphase rfl rfl (hafter.keepsAbove hcap)
  · cases h

/-- **A step of an attempt takes the call on, or ends it with a failure.** -/
theorem stage_or_gaveUp (hst : Instance.Stage cfg c before buffer w.log (w.insts ()))
    {a : RecoveryAction} (ha : a.ofAttempt c) (h : recoveryStep cfg w a = some w') :
    Instance.Stage cfg c before buffer w'.log (w'.insts ()) ∨ w'.GaveUp cfg c before buffer := by
  cases a with
  | step a =>
    change w.step (fun _ ↦ cfg) ((), a) = some w' at h
    obtain ⟨log, inst, hs, rfl⟩ := step_eq_some.mp h
    have hstep := Instance.Step.of_step hs
    by_cases hcompacts : a.ofCompaction c
    · exact Or.inl (hst.step hstep hcompacts)
    -- the step is a failure, of the restore or of the compaction itself
    right
    have hdone := hst.done
    have hung := hst.unguarded
    have hg := hst.grounded.step hstep
    cases hstep with
    | restoreFail promise hp hpending =>
      obtain ⟨hphase, hready, hwaiting⟩ := hst.awaits.restoring hp hpending
      rw [hphase] at hdone hung
      refine ⟨⟨hg, hready, rfl, Or.inl rfl, hung rfl⟩, hst.buffer, Or.inr ?_, Same.keepsAbove hdone⟩
      simp [Instance.failRestore, hwaiting]
    | countFails e hphase =>
      obtain rfl : e = c := beq_iff_eq.mp ha
      obtain ⟨hfulfilled, hready, hwaiting⟩ := hst.quiet hphase rfl
      rw [hphase] at hdone hung
      exact ⟨⟨hg, hready, hwaiting, Or.inr hfulfilled, hung rfl⟩, hst.buffer,
        Or.inr (Instance.compactions_setCompaction_self _ _ _), Same.keepsAbove hdone⟩
    | compactFails e phase hphase hcritical =>
      obtain rfl : e = c := beq_iff_eq.mp ha
      exact gaveUp_of_critical hst hphase hcritical rfl (hst.keepsAbove hphase hcritical)
    | resumeAppend | resumeCompact | restoreEnsure | restoreSnapshot | restoreTail
    | restoreFinish => exact absurd rfl hcompacts
    | maybeCompact => exact absurd ha hcompacts
    | count | proceedWithin | proceedOver | compactSnapshot | compactTail | setSnapshot
    | deleteRows | compactFinish =>
      exact absurd (by simpa [Action.ofCompaction, RecoveryAction.ofAttempt] using ha) hcompacts
    | _ => cases ha
  | deleteFails e victims =>
    obtain rfl : e = c := beq_iff_eq.mp ha
    exact Or.inr (gaveUp_of_deleteFails hst h)

/-- **However an attempt ends, the board is at rest again and its rows are kept.** -/
theorem Attempt.keepsAbove (h : Attempt cfg w w') (hw : w.AtRest) :
    w'.AtRest ∧ KeepsAbove cfg w.log.store w'.log.store := by
  obtain ⟨c, hidle, hsteps, hsettled⟩ := h
  have hend := hsteps.invariant
    (P := fun u ↦ Instance.Stage cfg c w.log.store (w.insts ()).buffer u.log (u.insts ()) ∨
      u.GaveUp cfg c w.log.store (w.insts ()).buffer)
    (Or.inl (hw.stage hidle)) fun u a v hu ha hs ↦ by
      rcases hu with hst | hgave
      · exact stage_or_gaveUp hst ha hs
      · exact absurd hs (hgave.not_step ha)
  rcases hend with hst | hgave
  · have hawaits := hst.awaits
    have hung := hst.unguarded
    have hdone := hst.done
    rcases hsettled with hphase | hphase <;> rw [hphase] at hawaits hung hdone
    · exact ⟨⟨hst.grounded, hawaits.2.1, hawaits.2.2, Or.inr hawaits.1, hung rfl⟩,
        Outcome.keepsAbove hdone⟩
    · exact hdone.elim
  · exact ⟨hgave.atRest, hgave.keepsAbove⟩

end World

/-! ## Deletions that run to the end -/

theorem BoardStore.matching_deleteRows {store : BoardStore} {n : ℕ} {victims : List ℕ}
    (h : store.Deletable n victims) (hlast : victims.length < deleteBatchSize) :
    (store.deleteRows victims).matching n = [] := by
  obtain ⟨hnodup, hsub, hlen⟩ := h
  have hall : store.matching n ⊆ victims := by
    have hsubperm := List.subperm_of_subset hnodup hsub
    exact (hsubperm.perm_of_length_le (by omega)).symm.subset
  refine List.eq_nil_iff_forall_not_mem.mpr fun m hm ↦ ?_
  obtain ⟨k, hk, rfl, hle⟩ := mem_matching.mp hm
  obtain ⟨hrow, hspared⟩ := mem_deleteRows.mp hk
  exact hspared (hall (mem_matching.mpr ⟨k, hrow, rfl, hle⟩))

namespace Instance

variable {cfg : Config} {c : ℕ} {before : BoardStore} {buffer : List PersistedStroke}
  {log log' : BoardLog} {inst inst' : Instance} {a : Action}

/-- The rows up to the cut are gone once compaction `c`, over the cap, has done its deletions. -/
def Swept (cfg : Config) (c : ℕ) (before : BoardStore) (log : BoardLog) (inst : Instance) : Prop :=
  match inst.compactions c with
  | some .deleted => log.store.matching (before.cut cfg) = []
  | some .resolved => cfg.strokeCap < before.count → log.store.matching (before.cut cfg) = []
  | _ => True

theorem Swept.step (hsw : Swept cfg c before log inst)
    (hst : Stage cfg c before buffer log inst) (h : Step cfg log inst a log' inst')
    (ha : a.ofCompaction c) : Swept cfg c before log' inst' := by
  have hdone := hst.done
  have hself : ∀ {phase}, (inst.setCompaction c phase).compactions c = some phase :=
    compactions_setCompaction_self inst c _
  cases h with
  | maybeCompact e =>
    obtain rfl : e = c := beq_iff_eq.mp ha
    rw [Swept, compactions_ensureInitialized, hself]
    trivial
  | resumeAppend _ _ _ _ _ _ _ hready =>
    rcases hst.awaits.ready with hnil | ⟨-, -, hone, -⟩
    · rw [hnil] at hready
      cases hready
    · rw [hone] at hready
      cases hready
  | resumeCompact _ _ _ e ready hready =>
    rcases hst.awaits.ready with hnil | ⟨hphase, -, hone, -⟩
    · rw [hnil] at hready
      cases hready
    · rw [hone] at hready
      cases hready
      have hung := hst.unguarded
      rw [hphase] at hung
      rw [Swept, compactions_setCompaction_self, hung rfl]
      trivial
  | restoreEnsure | restoreSnapshot | restoreTail | restoreFinish => exact hsw
  | proceedWithin e total hphase hcap =>
    obtain rfl := ofCompaction_compact ha
    rw [hphase] at hdone
    rw [Swept, hself]
    exact fun hover ↦ absurd hover (by rw [← hdone.2]; omega)
  | deleteRows e cut hphase victims hdeletable =>
    obtain rfl := ofCompaction_compact ha
    rw [hphase] at hdone
    obtain ⟨-, rfl, -⟩ := hdone
    rw [Swept, hself]
    split_ifs with hlast
    · exact BoardStore.matching_deleteRows hdeletable hlast
    · trivial
  | compactFinish e hphase =>
    obtain rfl := ofCompaction_compact ha
    rw [Swept, hphase] at hsw
    rw [Swept, leaveCompaction, compactions_setCompaction_self]
    exact fun _ ↦ hsw
  | compactTail e =>
    obtain rfl := ofCompaction_compact ha
    rw [Swept, hself]
    split_ifs <;> trivial
  | count e | compactSnapshot e | setSnapshot e =>
    obtain rfl := ofCompaction_compact ha
    rw [Swept, hself]
    trivial
  | proceedOver e =>
    obtain rfl := ofCompaction_compact ha
    rw [Swept, compactions_setCompaction_self]
    trivial
  | restoreFail | countFails | compactFails => simp [Action.ofCompaction] at ha
  | _ => cases ha

end Instance

namespace World

variable {cfg : Config} {w₀ w w' : World Unit}

/-- **A compaction in which nothing fails brings the rows within the cap**, and a board over the
cap down to the rows above the baseline. -/
theorem CompactsTo.trimmed (h : CompactsTo cfg w w') (hw : w.AtRest) :
    w'.log.store.count ≤ cfg.strokeCap ∧
      (cfg.strokeCap < w.log.store.count → Trimmed cfg w.log.store w'.log.store) := by
  have houtcome := (h.outcome hw).2.2
  unfold Outcome at houtcome
  split_ifs at houtcome with hcap
  · refine ⟨?_, fun hover ↦ absurd hcap (not_le.mpr hover)⟩
    rw [BoardStore.count, houtcome.rows]
    exact hcap
  · obtain ⟨c, hidle, hsteps, hresolved⟩ := h
    have hend := hsteps.invariant
      (P := fun u ↦ Instance.Stage cfg c w.log.store (w.insts ()).buffer u.log (u.insts ()) ∧
        Instance.Swept cfg c w.log.store u.log (u.insts ()))
      ⟨hw.stage hidle, by rw [Instance.Swept, hidle]; trivial⟩ fun u a v hu ha hs ↦ by
        obtain ⟨i, a⟩ := a
        change u.step (fun _ ↦ cfg) (i, a) = some v at hs
        obtain ⟨log, inst, hstep, rfl⟩ := step_eq_some.mp hs
        have hstep := Instance.Step.of_step hstep
        exact ⟨hu.1.step hstep ha, hu.2.step hu.1 hstep ha⟩
    have hswept := hend.2
    rw [Instance.Swept, hresolved] at hswept
    have htrimmed := houtcome.trimmed (hswept (not_le.mp hcap))
    exact ⟨htrimmed.count, fun _ ↦ htrimmed⟩

/-- **Compactions keep to their contract and heal themselves.** After any attempts: whatever fails,
the next attempt does nothing within the cap, does not move the baseline back, and keeps every row
above it; if nothing fails, it ends within the cap and, when it found more rows than that, with the
last rows of the tail alone. -/
theorem compaction_recovers (hw : w₀.AtRest) (h : Relation.ReflTransGen (Attempt cfg) w₀ w) :
    (∀ w', Attempt cfg w w' → KeepsAbove cfg w.log.store w'.log.store) ∧
      ∀ w', CompactsTo cfg w w' → w'.log.store.count ≤ cfg.strokeCap ∧
        (cfg.strokeCap < w.log.store.count → Trimmed cfg w.log.store w'.log.store) := by
  have hrest : w.AtRest := by
    induction h with
    | refl => exact hw
    | tail _ hattempt ih => exact (hattempt.keepsAbove ih).1
  exact ⟨fun _ ha ↦ (ha.keepsAbove hrest).2, fun _ hc ↦ hc.trimmed hrest⟩

/-- The baseline is set, and `deleteThrough` fails after deleting the first row. -/
def brokenRun : List RecoveryAction :=
  compactOpening.map .step ++ [.step (.compact 0 .readSnapshotSeq), .step (.compact 0 .readTail),
    .step (.compact 0 .setSnapshot), .deleteFails 0 [1]]

/-- A second compaction finds the rows over the cap, and clears what the first one has left. -/
def healingRun : List Action :=
  [.maybeCompact 1, .resume "" 0 0, .compact 1 .count, .compact 1 .proceed,
    .compact 1 .readSnapshotSeq, .compact 1 .readTail, .compact 1 (.deleteRows [2, 3, 4]),
    .compact 1 .finish]

/-- A second compaction finds the rows within the cap. -/
def idleRun : List Action :=
  [.maybeCompact 1, .resume "" 0 0, .compact 1 .count, .compact 1 .proceed]

/-- A broken attempt over the rows `1, …, n`, and a compaction that succeeds after it. -/
theorem exists_broken_then (n : ℕ) (as : List Action) (p : World Unit → World Unit → Bool)
    (h : (((recovery (sampleConfig 9 2)).guarded fun _ a ↦ a.ofAttempt 0 = true).exec
        (start Unit (sampleStoreOf n)) brokenRun).any (fun w ↦
      decide ((w.insts ()).compactions 0 = some .resolved ∧ (w.insts ()).compactions 1 = none) &&
      (((machine fun _ ↦ sampleConfig 9 2).guarded fun _ a ↦ a.2.ofCompaction 1 = true).exec w
        (overLone as)).any fun w' ↦
          decide ((w'.insts ()).compactions 1 = some .resolved) && p w w') = true) :
    ∃ w w', Attempt (sampleConfig 9 2) (start Unit (sampleStoreOf n)) w ∧
      CompactsTo (sampleConfig 9 2) w w' ∧ p w w' = true := by
  obtain ⟨w, -, hsteps, hw⟩ := Machine.exists_of_guarded_any _ _ h
  rw [Bool.and_eq_true, decide_eq_true_iff] at hw
  obtain ⟨w', -, hsteps', hw'⟩ := Machine.exists_of_guarded_any _ _ hw.2
  rw [Bool.and_eq_true, decide_eq_true_iff] at hw'
  exact ⟨w, w', ⟨0, rfl, hsteps, Or.inl hw.1.1⟩, ⟨1, hw.1.2, hsteps', hw'.1⟩, hw'.2⟩

/-- Over five rows the second compaction leaves one of them, the last. -/
theorem compaction_recovers_brokenRun : ∃ w w',
    Attempt (sampleConfig 9 2) (start Unit (sampleStoreOf 5)) w ∧
    CompactsTo (sampleConfig 9 2) w w' ∧
    w.log.store.strokes.rows.map PersistedStroke.seq = [2, 3, 4, 5] ∧
    w'.log.store.strokes.rows.map PersistedStroke.seq = [5] ∧
    Trimmed (sampleConfig 9 2) w.log.store w'.log.store := by
  obtain ⟨w, w', hattempt, hcompacts, hp⟩ := exists_broken_then 5 healingRun
    (fun w w' ↦ decide (w.log.store.strokes.rows.map PersistedStroke.seq = [2, 3, 4, 5] ∧
      w'.log.store.strokes.rows.map PersistedStroke.seq = [5])) (by decide)
  obtain ⟨hbefore, hafter⟩ := of_decide_eq_true hp
  have hover : (sampleConfig 9 2).strokeCap < w.log.store.count := by
    rw [BoardStore.count, ← List.length_map PersistedStroke.seq, hbefore]
    decide
  have hrecovers := compaction_recovers (atRest_start _) (.single hattempt)
  exact ⟨w, w', hattempt, hcompacts, hbefore, hafter, (hrecovers.2 w' hcompacts).2 hover⟩

/-- Over three rows the second compaction does nothing, and a row at the baseline stays. -/
theorem leftover_below_cap : ∃ w w',
    Attempt (sampleConfig 9 2) (start Unit (sampleStoreOf 3)) w ∧
    CompactsTo (sampleConfig 9 2) w w' ∧
    ∃ k ∈ w'.log.store.strokes, k.seq ≤ w'.log.store.getSnapshotSeq := by
  obtain ⟨w, w', hattempt, hcompacts, hp⟩ := exists_broken_then 3 idleRun
    (fun _ w' ↦ decide (∃ k ∈ w'.log.store.strokes.rows, k.seq ≤ w'.log.store.getSnapshotSeq))
    (by decide)
  exact ⟨w, w', hattempt, hcompacts, of_decide_eq_true hp⟩

end World

end Synapse
