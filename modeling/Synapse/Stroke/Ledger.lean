import Synapse.Stroke.History

/-!
# A board that is not compacted

While no compaction runs, the baseline is a constant below every row and below every number handed
out, so a load owes its caller what was accepted above the number the caller reported, whatever
baseline it has read. `Ledger` puts this together with the account of the strokes and what is owed
to the loads.
-/

namespace Synapse

open Transition

/-- The baseline the load has read. -/
def LoadPhase.baseline : LoadPhase → ℕ
  | readingRows n | rowsRead n _ | resolved n _ => n
  | readingSnapshot | rejected => 0

namespace World

variable {cfg : Config} {w w' : World Unit} {a : Unit × Action}

/-- What keeps the replies of an uncompacted board complete. -/
structure Ledger (w : World Unit) : Prop where
  owned : w.Owned
  pruned : w.log.pruned = []
  owes : ∀ l, ∀ load ∈ (w.insts ()).loads l, w.Owes load
  baseline : ∀ l, ∀ load ∈ (w.insts ()).loads l, load.phase.baseline ≤ w.log.store.getSnapshotSeq
  above : ∀ k ∈ w.log.accepted, w.log.store.getSnapshotSeq < k.seq
  tailRead : ∀ n, (w.insts ()).board.initPromise = some (.tailRead n) →
    w.log.store.getSnapshotSeq ≤ n
  next : (w.insts ()).board.initPromise = some .fulfilled →
    w.log.store.getSnapshotSeq < (w.insts ()).board.nextSeq

theorem Ledger.of_init (h : w.init) (habove : ∀ k ∈ w.log.store.strokes.rows,
    w.log.store.getSnapshotSeq < k.seq) : w.Ledger := by
  obtain ⟨haccepted, hpruned, hfresh⟩ := h
  have hinst : w.insts () = {} := hfresh ()
  constructor
  · exact .of_init ⟨haccepted, hpruned, hfresh⟩
  · exact hpruned
  · simp [hinst]
  · simp [hinst]
  · rwa [haccepted]
  · rintro n hn
    rw [hinst] at hn
    cases hn
  · intro hp
    rw [hinst] at hp
    cases hp

/-- The steps that keep the ledger: no compaction, and no stroke escapes a load. -/
def Kept (cfg : Config) (w : World Unit) (a : Unit × Action) : Prop :=
  a.2.compacts = false ∧ w.HistorySafe cfg a

theorem Ledger.counter (hw : w.Ledger) {log : BoardLog} {inst : Instance} {b : Action}
    (h : Instance.Step cfg w.log (w.insts ()) b log inst) :
    (∀ n, inst.board.initPromise = some (.tailRead n) → w.log.store.getSnapshotSeq ≤ n) ∧
      (inst.board.initPromise = some .fulfilled →
        w.log.store.getSnapshotSeq < inst.board.nextSeq) := by
  by_cases hp : (w.insts ()).board.initPromise = some .fulfilled
  · constructor
    · intro n hn
      rw [h.fulfilled hp] at hn
      cases hn
    · intro _
      have hnext := hw.next hp
      rcases h.counter hp with ⟨-, hseq⟩ | ⟨k, hk, -, hseq⟩ <;> omega
  · cases h.restoreMove with
    | stay h' =>
      constructor
      · intro n hn
        exact hw.tailRead n (h' ▸ hn)
      · intro hf
        exact absurd (h' ▸ hf) hp
    | tailRead n hn h' =>
      constructor
      · intro m hm
        rw [h'] at hm
        cases hm
        rw [hw.owned.restored.readingTail n hn]
        exact Instance.le_highestOf (Or.inl le_rfl)
      · simp [h']
    | finish highest hn h' hseq =>
      have hle := hw.tailRead highest hn
      constructor
      · simp [h']
      · omega
    | start _ h' | ensured _ h' | snapshotRead _ h' | fail _ h' => simp [h']

theorem Ledger.accepts (hw : w.Ledger) {log : BoardLog} {inst : Instance} {b : Action}
    (h : Instance.Step cfg w.log (w.insts ()) b log inst) :
    ∀ k ∈ log.accepted, w.log.store.getSnapshotSeq < k.seq := by
  intro k hk
  by_cases hp : (w.insts ()).board.initPromise = some .fulfilled
  · rcases h.counter hp with ⟨haccepted, -⟩ | ⟨x, hx, haccepted, -⟩ <;> rw [haccepted] at hk
    · exact hw.above k hk
    · rcases List.mem_append.mp hk with hk | hk
      · exact hw.above k hk
      · rw [List.mem_singleton.mp hk, hx]
        exact hw.next hp
  · have hready : (w.insts ()).ready = [] := (hw.owned.restored.dormant hp).ready
    rw [h.effect.accepted (Instance.accepts_of_ready_nil hready b)] at hk
    exact hw.above k hk

/-- **A step without a compaction, at which no stroke escapes a load, keeps the ledger.** -/
theorem Ledger.step (hw : w.Ledger) (hok : w.Kept cfg a)
    (h : w.step (fun _ ↦ cfg) a = some w') : w'.Ledger := by
  have howned := hw.owned.step h
  have howes := Owes.step hw.owned hw.pruned hok.2 h hw.owes
  obtain ⟨i, a⟩ := a
  obtain ⟨log, inst, hstep, rfl⟩ := step_eq_some.mp h
  have hs := Instance.Step.of_step hstep
  obtain ⟨hsnapshot, hpruned⟩ := hs.effect.fixed hok.1
  obtain ⟨htail, hnext⟩ := hw.counter hs
  refine ⟨howned, hpruned.trans hw.pruned, howes, ?_, ?_, ?_, ?_⟩ <;>
    rw [put_log, hsnapshot] <;> try rw [put_insts_self]
  · intro l load hload
    have hmove := hs.loadMove l
    rw [Option.mem_def] at hload
    rw [hload] at hmove
    generalize hold : (w.insts ()).loads l = old at hmove
    cases hmove with
    | stay => exact hw.baseline l load hold
    | call | fail => exact Nat.zero_le _
    | readSnapshotSeq => exact le_rfl
    | readRows load n hphase | resolve load n _ hphase =>
      have hle := hw.baseline l load hold
      rwa [hphase] at hle
  · exact hw.accepts hs
  · exact htail
  · exact hnext

/-- The reply contains everything accepted before the call and above the reported number. -/
theorem Ledger.mem_history (hw : w.Ledger) {l : ℕ} {load : Load}
    (hload : (w.insts ()).loads l = some load) {snapshotSeq : ℕ} {history : RoomHistory}
    (hphase : load.phase = .resolved snapshotSeq history) {k : PersistedStroke}
    (hk : k ∈ load.before) (hlt : load.sinceSeq.getD 0 < k.seq) : k ∈ history.strokes := by
  obtain ⟨hbefore, howes⟩ := hw.owes l load hload
  have hbaseline := hw.baseline l load hload
  have habove := hw.above k (hbefore hk)
  rw [hphase] at howes hbaseline
  -- the baseline raises the bound, but not up to an accepted stroke
  have hlow : snapshotSeq < k.seq := lt_of_le_of_lt hbaseline habove
  apply howes k
  rw [mem_owed]
  refine ⟨hk, ?_⟩
  unfold fromSeq
  split
  · next n hn =>
    rw [hn] at hlt
    exact max_lt hlt hlow
  · exact hlow

end World

end Synapse
