import Synapse.Stroke.Account

/-!
# What a history reply contains

`loadForJoin` samples two of the three places a stroke can be in: the rows, at one await, and the
buffer, when the rows have arrived. A stroke is missed when it is in the third place at the wrong
time: in a batch that has not been inserted when the rows are read, or in the buffer when the rows
are read and captured by a drain before the merge. `HistorySafe` says that neither happens to a
stroke the call owes.

Under that condition the reply is complete. The invariant is `Owes`: once the rows have been read,
every stroke owed is among them or still in the buffer.
-/

namespace Synapse

open Custody Keyed Transition

/-! ## The merge -/

theorem mem_mergeBufferedStrokes {persisted buffer : List PersistedStroke} {n : ℕ}
    {k : PersistedStroke} : k ∈ mergeBufferedStrokes persisted buffer n ↔
      k ∈ persisted ∨ (k ∈ buffer ∧ n < k.seq ∧ k.seq ∉ persisted.map PersistedStroke.seq) := by
  unfold mergeBufferedStrokes
  dsimp only
  have hmem : k ∈ buffer.filter
      (fun k ↦ decide (n < k.seq ∧ k.seq ∉ persisted.map PersistedStroke.seq)) ↔
      k ∈ buffer ∧ n < k.seq ∧ k.seq ∉ persisted.map PersistedStroke.seq := by
    rw [List.mem_filter, decide_eq_true_iff]
  rw [← hmem]
  split_ifs with hnil
  · rw [hnil]
    exact ⟨Or.inl, fun h ↦ h.resolve_right List.not_mem_nil⟩
  · rw [mem_sortByKey, List.mem_append]

theorem ascending_mergeBufferedStrokes {persisted buffer : List PersistedStroke} (n : ℕ)
    (hrows : Ascending PersistedStroke.seq persisted)
    (hbuffer : (buffer.map PersistedStroke.seq).Nodup) :
    Ascending PersistedStroke.seq (mergeBufferedStrokes persisted buffer n) := by
  unfold mergeBufferedStrokes
  dsimp only
  split_ifs
  · exact hrows
  · refine ascending_sortByKey ?_
    rw [List.map_append]
    refine hrows.nodup_keys.append (hbuffer.sublist (List.filter_sublist.map _)) fun m hm hm' ↦ ?_
    obtain ⟨k, hk, rfl⟩ := List.mem_map.mp hm'
    exact (of_decide_eq_true (List.mem_filter.mp hk).2).2 hm

namespace World

variable {cfg : Config} {w w' : World Unit}

/-! ## The condition -/

/-- The strokes a load that reads above `snapshotSeq` owes its caller. -/
def owed (load : Load) (snapshotSeq : ℕ) : List PersistedStroke :=
  load.before.filter fun k ↦ decide (fromSeq load.sinceSeq snapshotSeq < k.seq)

theorem mem_owed {load : Load} {snapshotSeq : ℕ} {k : PersistedStroke} :
    k ∈ owed load snapshotSeq ↔ k ∈ load.before ∧ fromSeq load.sinceSeq snapshotSeq < k.seq := by
  rw [owed, List.mem_filter, decide_eq_true_iff]

/-- When the rows are read, no batch in flight holds a stroke that is owed and not yet stored. -/
def RowsReadSafe (w : World Unit) (l : ℕ) : Prop :=
  ∀ load ∈ (w.insts ()).loads l, ∀ snapshotSeq, load.phase = .readingRows snapshotSeq →
    ∀ d, ∀ k ∈ (w.insts ()).batch d, k ∈ owed load snapshotSeq → k ∈ w.log.store.strokes

/-- When the buffer is captured, no load between its reads and its merge needs a stroke in it. -/
def CaptureSafe (w : World Unit) : Prop :=
  ∀ l, ∀ load ∈ (w.insts ()).loads l, ∀ snapshotSeq persisted,
    load.phase = .rowsRead snapshotSeq persisted →
    ∀ k ∈ owed load snapshotSeq, k ∈ (w.insts ()).buffer → k ∈ persisted

/-- The steps at which no stroke escapes a load. -/
def HistorySafe (cfg : Config) (w : World Unit) (a : Unit × Action) : Prop :=
  (∀ l, a.2 = .load l .readRows → w.RowsReadSafe l) ∧
    (Instance.captures cfg (w.insts ()) a.2 → w.CaptureSafe)

/-- Whether the action reads the rows of a load. -/
def readsRows : Action → Bool
  | .load _ .readRows => true
  | _ => false

theorem HistorySafe.of_quiet {a : Unit × Action} (hread : readsRows a.2 = false)
    (hcapture : Instance.captures cfg (w.insts ()) a.2 = false) : w.HistorySafe cfg a := by
  refine ⟨fun l hl ↦ ?_, fun hc ↦ ?_⟩
  · rw [hl] at hread
    cases hread
  · rw [hcapture] at hc
    cases hc

/-- The runs without a deletion in which every step is safe. -/
def SafeHistory (cfg : Config) (w : World Unit) (a : Unit × Action) : Prop :=
  a.2.prunes = false ∧ w.HistorySafe cfg a

/-! ## The invariant -/

/-- What is known of a load. -/
def Owes (w : World Unit) (load : Load) : Prop :=
  load.before ⊆ w.log.accepted ∧
    match load.phase with
    | .rowsRead snapshotSeq persisted => persisted ⊆ w.log.accepted ∧
        ∀ k ∈ owed load snapshotSeq, k ∈ persisted ∨ k ∈ (w.insts ()).buffer
    | .resolved snapshotSeq history => ∀ k ∈ owed load snapshotSeq, k ∈ history.strokes
    | _ => True

theorem buffer_step {log log' : BoardLog} {inst inst' : Instance} {a : Action}
    (h : Instance.Effect cfg log inst a log' inst') {k : PersistedStroke} (hk : k ∈ inst.buffer) :
    k ∈ inst'.buffer ∨ Instance.captures cfg inst a := by
  rw [show inst'.buffer = inst'.held none from rfl]
  cases h with
  | quiet hheld | ensure hheld | setSnapshot _ _ _ hheld | insert _ _ hheld
  | prune _ _ _ _ _ hheld =>
    rw [hheld]
    exact Or.inl hk
  | accept x _ _ hheld =>
    rw [hheld, Function.update_self]
    exact Or.inl (List.mem_append_left _ hk)
  | capture _ _ hcapture | acceptCapture _ _ _ _ hcapture => exact Or.inr hcapture
  | release d _ hheld =>
    rw [hheld, Function.update_of_ne (by simp)]
    exact Or.inl hk
  | rebuffer d hheld =>
    rw [hheld, Function.update_of_ne (by simp), Function.update_self]
    exact Or.inl (List.mem_append_right _ hk)

theorem Owes.stay {a : Unit × Action} (hw : w.Owned) (hsafe : w.HistorySafe cfg a)
    (h : w.step (fun _ ↦ cfg) a = some w') {l : ℕ} {load : Load}
    (hload : load ∈ (w.insts ()).loads l) (howes : w.Owes load) : w'.Owes load := by
  have haccepted : w.log.accepted ⊆ w'.log.accepted := (hw.moves h).prefix_accepted.subset
  obtain ⟨i, a⟩ := a
  obtain ⟨log, inst, hstep, rfl⟩ := step_eq_some.mp h
  have heffect := (Instance.Step.of_step hstep).effect
  refine ⟨List.Subset.trans howes.1 haccepted, ?_⟩
  have hphase := howes.2
  rcases hp : load.phase with _ | _ | ⟨snapshotSeq, persisted⟩ | _ | _ <;>
    rw [hp] at hphase <;> try trivial
  -- the rows are read and the buffer is not yet: only a capture can come in between
  · refine ⟨List.Subset.trans hphase.1 haccepted, fun k hk ↦ ?_⟩
    rcases hphase.2 k hk with hk' | hk'
    · exact Or.inl hk'
    · rcases buffer_step heffect hk' with hb | hcapture
      · exact Or.inr hb
      · exact Or.inl (hsafe.2 hcapture l load hload snapshotSeq persisted hp k hk hk')

/-- What the rows and the buffer owe between them, the merge delivers. -/
theorem mem_history_of_owed (hw : w.Owned) {load : Load} {snapshotSeq : ℕ}
    {persisted : List PersistedStroke} (hrows : persisted ⊆ w.log.accepted) (boardId : String)
    (now : ℕ) {k : PersistedStroke} (hk : k ∈ owed load snapshotSeq)
    (hwhere : k ∈ persisted ∨ k ∈ (w.insts ()).buffer) :
    k ∈ (joinHistory boardId load.sinceSeq snapshotSeq persisted (w.insts ()).buffer
      now).strokes := by
  refine mem_mergeBufferedStrokes.mpr ?_
  rcases hwhere with hk' | hk'
  · exact Or.inl hk'
  · by_cases hseen : k.seq ∈ persisted.map PersistedStroke.seq
    · -- a row with the number of an accepted stroke is that stroke
      obtain ⟨r, hr, hseq⟩ := List.mem_map.mp hseen
      have hs := hw.accounted.sound
      have haccepted := hs.accepted_of_held ((), none) k hk'
      exact Or.inl (hs.eq_of_key_eq (hrows hr) haccepted hseq ▸ hr)
    · exact Or.inr ⟨hk', (mem_owed.mp hk).2, hseen⟩

/-! ## Where the strokes of a reply come from -/

/-- What a load has read or replies are accepted strokes, none of them twice. -/
def Genuine (w : World Unit) (load : Load) : Prop :=
  match load.phase with
  | .rowsRead _ persisted =>
    persisted ⊆ w.log.accepted ∧ (persisted.map PersistedStroke.seq).Nodup
  | .resolved _ history =>
    history.strokes ⊆ w.log.accepted ∧ (history.strokes.map PersistedStroke.seq).Nodup
  | _ => True

theorem Owned.nodup_seq_buffer (hw : w.Owned) :
    ((w.insts ()).buffer.map PersistedStroke.seq).Nodup := by
  have hs := hw.accounted.sound
  have hheld : ∀ k ∈ (w.insts ()).buffer, k ∈ w.log.accepted := hs.accepted_of_held ((), none)
  exact List.Nodup.map_on (fun x hx y hy ↦ hs.eq_of_key_eq (hheld x hx) (hheld y hy))
    (hs.held_nodup ((), none))

theorem genuine_merge (hw : w.Owned) {persisted : List PersistedStroke}
    (hrows : persisted ⊆ w.log.accepted) (hnodup : (persisted.map PersistedStroke.seq).Nodup)
    (n : ℕ) : mergeBufferedStrokes persisted (w.insts ()).buffer n ⊆ w.log.accepted ∧
      ((mergeBufferedStrokes persisted (w.insts ()).buffer n).map PersistedStroke.seq).Nodup := by
  have hheld : ∀ k ∈ (w.insts ()).buffer, k ∈ w.log.accepted :=
    hw.accounted.sound.accepted_of_held ((), none)
  refine ⟨fun k hk ↦ ?_, ?_⟩
  · rcases mem_mergeBufferedStrokes.mp hk with hk | ⟨hk, -, -⟩
    · exact hrows hk
    · exact hheld k hk
  · unfold mergeBufferedStrokes
    dsimp only
    split_ifs
    · exact hnodup
    · rw [((sortByKey_perm _).map _).nodup_iff, List.map_append]
      refine hnodup.append (hw.nodup_seq_buffer.sublist (List.filter_sublist.map _))
        fun m hm hm' ↦ ?_
      obtain ⟨k, hk, rfl⟩ := List.mem_map.mp hm'
      rw [List.mem_filter, decide_eq_true_iff] at hk
      exact hk.2.2 hm

theorem Genuine.step {a : Unit × Action} (hw : w.Owned)
    (h : w.step (fun _ ↦ cfg) a = some w')
    (hinv : ∀ l, ∀ load ∈ (w.insts ()).loads l, w.Genuine load) :
    ∀ l, ∀ load ∈ (w'.insts ()).loads l, w'.Genuine load := by
  intro l load hload
  have haccepted : w.log.accepted ⊆ w'.log.accepted := (hw.moves h).prefix_accepted.subset
  obtain ⟨i, a⟩ := a
  obtain ⟨log, inst, hstep, rfl⟩ := step_eq_some.mp h
  have hmove := (Instance.Step.of_step hstep).loadMove l
  rw [put_insts_self, Option.mem_def] at hload
  rw [hload] at hmove
  generalize hold : (w.insts ()).loads l = old at hmove
  cases hmove with
  | stay =>
    have hbefore := hinv l load hold
    unfold Genuine at hbefore ⊢
    split <;> rename_i hphase <;> simp only [hphase] at hbefore
    · exact ⟨List.Subset.trans hbefore.1 haccepted, hbefore.2⟩
    · exact ⟨List.Subset.trans hbefore.1 haccepted, hbefore.2⟩
    · trivial
  | readRows load snapshotSeq =>
    refine ⟨fun k hk ↦ haccepted ?_, (w.log.store.ascending_loadSince _).nodup_keys⟩
    exact hw.accounted.sound.accepted_of_stored k (Or.inl (BoardStore.mem_loadSince.mp hk).1)
  | resolve load snapshotSeq persisted hphase now =>
    have hbefore := hinv l load hold
    rw [Genuine, hphase] at hbefore
    obtain ⟨hsub, hnodup⟩ := genuine_merge hw hbefore.1 hbefore.2
      (fromSeq load.sinceSeq snapshotSeq)
    exact ⟨List.Subset.trans hsub haccepted, hnodup⟩
  | call | readSnapshotSeq | fail => trivial

/-! ## The reply is complete -/

/-- When the rows are read safely, they and the buffer hold everything owed. -/
theorem stored_or_buffered_of_rowsReadSafe (hw : w.Owned) (hpruned : w.log.pruned = []) {l : ℕ}
    {load : Load} (hload : load ∈ (w.insts ()).loads l) (howes : w.Owes load) {snapshotSeq : ℕ}
    (hphase : load.phase = .readingRows snapshotSeq) (hsafe : w.RowsReadSafe l)
    {k : PersistedStroke} (hk : k ∈ owed load snapshotSeq) :
    k ∈ w.log.store.strokes ∨ k ∈ (w.insts ()).buffer := by
  have haccepted := howes.1 (mem_owed.mp hk).1
  rcases (hw.accounted.conserved hpruned).somewhere k haccepted with hs | hb | ⟨d, hd, -⟩
  · exact Or.inl hs
  · exact Or.inr hb
  · exact Or.inl (hsafe load hload snapshotSeq hphase d k hd hk)

/-- **A safe step keeps what is known of the loads.** -/
theorem Owes.step {a : Unit × Action} (hw : w.Owned) (hpruned : w.log.pruned = [])
    (hsafe : w.HistorySafe cfg a) (h : w.step (fun _ ↦ cfg) a = some w')
    (hinv : ∀ l, ∀ load ∈ (w.insts ()).loads l, w.Owes load) :
    ∀ l, ∀ load ∈ (w'.insts ()).loads l, w'.Owes load := by
  intro l load hload
  have hstay : ∀ load ∈ (w.insts ()).loads l, w.Owes load → w'.Owes load :=
    fun _ hl ↦ Owes.stay hw hsafe h hl
  have haccepted : w.log.accepted ⊆ w'.log.accepted := (hw.moves h).prefix_accepted.subset
  obtain ⟨i, a⟩ := a
  obtain ⟨log, inst, hstep, rfl⟩ := step_eq_some.mp h
  have hmove := (Instance.Step.of_step hstep).loadMove l
  have heffect := (Instance.Step.of_step hstep).effect
  rw [put_insts_self, Option.mem_def] at hload
  rw [hload] at hmove
  generalize hold : (w.insts ()).loads l = old at hmove
  cases hmove with
  | stay => exact hstay load hold (hinv l load hold)
  | call sinceSeq => exact ⟨haccepted, trivial⟩
  | readSnapshotSeq load hphase =>
    exact ⟨List.Subset.trans (hinv l load hold).1 haccepted, trivial⟩
  | readRows load snapshotSeq hphase ha =>
    refine ⟨List.Subset.trans (hinv l load hold).1 haccepted, fun k hk ↦ ?_, fun k hk ↦ ?_⟩
    · have hrow := (BoardStore.mem_loadSince.mp hk).1
      exact haccepted (hw.accounted.sound.accepted_of_stored k (Or.inl hrow))
    · rcases stored_or_buffered_of_rowsReadSafe hw hpruned hold (hinv l load hold) hphase
        (hsafe.1 l ha) hk with hrow | hbuffer
      · exact Or.inl (BoardStore.mem_loadSince.mpr ⟨hrow, (mem_owed.mp hk).2⟩)
      · rcases buffer_step heffect hbuffer with hb | hcapture
        · exact Or.inr hb
        · rw [show a = .load l .readRows from ha] at hcapture
          cases hcapture
  | resolve load snapshotSeq persisted hphase now =>
    have howes := hinv l load hold
    refine ⟨List.Subset.trans howes.1 haccepted, fun k hk ↦ ?_⟩
    have hrows := howes.2
    rw [hphase] at hrows
    exact mem_history_of_owed hw hrows.1 _ now hk (hrows.2 k hk)
  | fail load => exact ⟨List.Subset.trans (hinv l load hold).1 haccepted, trivial⟩

/-- **History completeness.** In every run without a deletion whose steps are safe, the reply of
`loadForJoin` contains every stroke accepted before the call and numbered above its lower bound. -/
theorem history_complete (h : (machine fun _ ↦ cfg).Reaches (SafeHistory cfg) w) {l : ℕ}
    {load : Load} (hload : (w.insts ()).loads l = some load) {snapshotSeq : ℕ}
    {history : RoomHistory} (hphase : load.phase = .resolved snapshotSeq history) :
    ∀ k ∈ load.before, fromSeq load.sinceSeq snapshotSeq < k.seq → k ∈ history.strokes := by
  have hinv := h.invariant
    (P := fun w ↦ (w.Owned ∧ w.log.pruned = []) ∧ ∀ l, ∀ load ∈ (w.insts ()).loads l, w.Owes load)
    (fun w hi ↦ ?_) fun u a v hu ha hs ↦ ?_
  · have howes := (hinv.2 l load hload).2
    rw [hphase] at howes
    exact fun k hk hlt ↦ howes k (mem_owed.mpr ⟨hk, hlt⟩)
  · refine ⟨⟨.of_init hi, hi.2.1⟩, fun l load hl ↦ ?_⟩
    rw [hi.2.2] at hl
    cases hl
  · obtain ⟨⟨howned, hpruned⟩, howes⟩ := hu
    exact ⟨⟨howned.step hs, (pruned_step ha.1 hs).trans hpruned⟩,
      Owes.step howned hpruned ha.2 hs howes⟩

/-- A stroke waits in the buffer when a load is called. -/
def bufferedRun : List Action :=
  sampleRestore ++ [.resume "a" 5 0, .loadForJoin 0 none, .load 0 .readSnapshotSeq]

/-- The load goes on to read the rows, and its merge delivers the stroke. -/
theorem history_complete_of_buffered : ∃ w load history,
    (machine fun _ ↦ sampleConfig 9 9).exec (start Unit sampleStore)
      (overLone (bufferedRun ++ [.load 0 .readRows, .load 0 (.resolve 8)])) = some w ∧
    (w.insts ()).loads 0 = some load ∧ load.phase = .resolved 0 history ∧
    ∀ k ∈ load.before, fromSeq load.sinceSeq 0 < k.seq → k ∈ history.strokes := by
  obtain ⟨w, hw, hsteps⟩ := Machine.exists_of_guarded (start Unit sampleStore)
    (M := machine fun _ ↦ sampleConfig 9 9) (overLone bufferedRun)
    (show Option.isSome (((machine fun _ ↦ sampleConfig 9 9).guarded fun w a ↦
      a.2.prunes = false ∧ readsRows a.2 = false ∧
        Instance.captures (sampleConfig 9 9) (w.insts ()) a.2 = false).exec _ _) = true by decide)
  cases hw
  refine ⟨_, _, _, rfl, rfl, rfl, ?_⟩
  have hprefix := hsteps.mono fun w a ⟨hp, hr, hc⟩ ↦ (⟨hp, .of_quiet hr hc⟩ : SafeHistory _ w a)
  have hread := hprefix.tail (a := ((), Action.load 0 .readRows))
    ⟨rfl, fun l _ load _ n _ d k hk ↦ (by cases hk), fun hc ↦ (by cases hc)⟩ rfl
  have hresolved := hread.tail (a := ((), Action.load 0 (.resolve 8)))
    ⟨rfl, .of_quiet rfl rfl⟩ rfl
  have hreaches : (machine fun _ ↦ sampleConfig 9 9).Reaches (SafeHistory (sampleConfig 9 9)) _ :=
    ⟨_, init_start _, hresolved⟩
  exact history_complete (l := 0) hreaches rfl rfl

/-! ## A batch in flight -/

/-- A stroke fills the batch; while its insert is under way, a load reads the rows and merges. -/
def inFlightRun : List Action :=
  sampleRestore ++ [.resume "a" 5 0, .loadForJoin 0 none, .load 0 .readSnapshotSeq,
    .load 0 .readRows, .load 0 (.resolve 8)]

/-- The reply misses the stroke, although it was accepted before the call began. -/
theorem inFlight_missed : ∃ w load history k,
    (machine fun _ ↦ sampleConfig 1 9).exec (start Unit sampleStore) (overLone inFlightRun)
      = some w ∧
    (w.insts ()).loads 0 = some load ∧ load.phase = .resolved 0 history ∧
    k ∈ load.before ∧ fromSeq load.sinceSeq 0 < k.seq ∧ k ∉ history.strokes := by
  refine ⟨_, _, _, ⟨sampleSegment, "a", 1, "ada", 5⟩, rfl, rfl, rfl, ?_⟩
  decide

end World

end Synapse
